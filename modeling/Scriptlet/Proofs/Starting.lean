/-
  Scriptlet.Proofs.Starting — machines with nothing to run yet.

  A machine is started for a program by binding the functions of the machine and of the host. Each
  of them gets a number, behind those that the program has given out; whatever numbering agrees
  with the table at the end, the scopes are those in which evaluation starts (`ofProgram_eq`).
-/

import Scriptlet.Proofs.Inside
import Scriptlet.Proofs.Lowering
import Scriptlet.Proofs.Meaning
import Scriptlet.Proofs.Renaming

namespace Scriptlet

variable {ids : Text → Int} {names : List Text}

namespace Idents

/-- The numbering gives every name of the table its number there. -/
def Agrees (t : Idents) (ids : Text → Int) : Prop := ∀ name id, t.lookup? name = some id → ids name = id

/-- The number of a name, and -1 for names that have none. -/
def number (t : Idents) (name : Text) : Int :=
  match t.lookup? name with
  | some id => id
  | none => -1

theorem agrees_number (t : Idents) : t.Agrees t.number := by
  intro name id h
  unfold number
  rw [h]

variable {t : Idents}

theorem Agrees.mono {u : Idents} (h : u.Agrees ids) (hle : t.names <+: u.names) : t.Agrees ids :=
  fun name id hn => h name id (lookup?_mono hle hn)

theorem ext_names {u : Idents} (h : t.names = u.names) : t = u := by
  cases t
  cases u
  cases h
  rfl

theorem names_intern (t : Idents) (name : Text) :
    (t.intern name).2.names = if name ∈ t.names then t.names else t.names ++ [name] := by
  unfold intern
  split
  · rename_i id h
    have hmem : name ∈ t.names := List.mem_of_getElem? (lookup?_eq_some.mp h)
    rw [if_pos hmem]
  · rename_i h
    rw [if_neg (not_mem_of_lookup?_eq_none h)]

theorem mem_intern {name other : Text} : other ∈ (t.intern name).2.names ↔ other ∈ t.names ∨ other = name := by
  rw [names_intern]
  split
  · rename_i h
    constructor
    · exact .inl
    · rintro (ho | rfl)
      · exact ho
      · exact h
  · simp

def internAll (t : Idents) (names : List Text) : Idents := names.foldl (fun t name => (t.intern name).2) t

theorem names_internAll (t : Idents) (names : List Text) : t.names <+: (t.internAll names).names := by
  induction names generalizing t with
  | nil => exact List.prefix_rfl
  | cons name names ih => exact (intern_spec t name).1.trans (ih _)

theorem mem_internAll {other : Text} : other ∈ (t.internAll names).names ↔ other ∈ t.names ∨ other ∈ names := by
  induction names generalizing t with
  | nil => simp [internAll]
  | cons name names ih =>
    rw [show t.internAll (name :: names) = (t.intern name).2.internAll names from rfl, ih, mem_intern, List.mem_cons,
      or_assoc]

/-- Names that are all new get the numbers behind those of the table, in order. -/
theorem names_internAll_new (h : (t.names ++ names).Nodup) : (t.internAll names).names = t.names ++ names := by
  induction names generalizing t with
  | nil => simp [internAll]
  | cons name names ih =>
    have hnew : name ∉ t.names := by
      intro hmem
      exact (List.nodup_append.mp h).2.2 name hmem name List.mem_cons_self rfl
    have hnames : (t.intern name).2.names = t.names ++ [name] := by rw [names_intern, if_neg hnew]
    have hnodup : ((t.intern name).2.names ++ names).Nodup := by
      rw [hnames]
      simpa using h
    rw [show t.internAll (name :: names) = (t.intern name).2.internAll names from rfl, ih hnodup, hnames]
    simp

end Idents

theorem Scopes.all_empty (V : Option Value → Prop) : (⟨#[{ name := "globals" }]⟩ : Scopes).All V := by
  intro i t ht
  have : (Scopes.table ⟨#[{ name := "globals" }]⟩ i).tags = [] := by
    unfold Scopes.table Scopes.get?
    cases i <;> rfl
  rw [this] at ht
  cases ht

/-- Only functions of the host and of the machine are bound at the start. -/
theorem Scopes.all_initial {V : Option Value → Prop} (hV : Value.Inherited V) (ids : Text → Int) (hostNames : List Text) :
    (Scopes.initial ids hostNames).All V := by
  have fold (names : List Text) : ∀ s : Scopes, s.All V →
      (names.foldl (fun s name => s.bind 0 (ids name) name (some (.host (ids name) name none))) s).All V := by
    induction names with
    | nil => exact fun s h => h
    | cons name names ih => exact fun s h => ih _ (h.bind (hV.flat rfl))
  exact fold hostNames _ ((Scopes.all_empty V).bind (hV.flat rfl))

/-- No function of a program is bound at the start. -/
theorem Scopes.every_initial (Q : Closure → Prop) (ids : Text → Int) (hostNames : List Text) :
    (Scopes.initial ids hostNames).Every Q :=
  all_initial (Value.inherited_every Q) ids hostNames

/-- What is bound at the start depends on the numbering alone. -/
theorem Scopes.rename_initial {ρ : Renaming} (h : ρ.Faithful) (ids : Text → Int) (hostNames : List Text) :
    (Scopes.initial ids hostNames).rename ρ = Scopes.initial (fun name => ρ.ident (ids name)) hostNames := by
  have fold (names : List Text) : ∀ s : Scopes,
      (names.foldl (fun s name => s.bind 0 (ids name) name (some (.host (ids name) name none))) s).rename ρ
        = names.foldl (fun s name => s.bind 0 (ρ.ident (ids name)) name (some (.host (ρ.ident (ids name)) name none)))
          (s.rename ρ) := by
    induction names with
    | nil => exact fun s => rfl
    | cons name names ih =>
      intro s
      rw [List.foldl_cons, List.foldl_cons, ih, Scopes.bind_rename h]
      rfl
  have globals : (⟨#[{ name := "globals" }]⟩ : Scopes).rename ρ = ⟨#[{ name := "globals" }]⟩ := by
    simp [Scopes.rename, Scope.rename, Table.rename]
  unfold Scopes.initial
  rw [fold, Scopes.bind_rename h, globals]
  rfl

namespace Machine

/-- Binding a global gives its name a number in every numbering that agrees with the tables later. -/
theorem bindGlobal_eq {m : Machine} {name : Text} {v : Int → Value}
    (h : (m.program.idents.intern name).2.Agrees ids) :
    m.bindGlobal name (fun id => v id) = { m with
      program := { m.program with idents := (m.program.idents.intern name).2 }
      scopes := m.scopes.bind globals (ids name) name (some (v (ids name))) } := by
  rw [h name _ (Idents.intern_spec _ name).2]
  rfl

theorem bindHosts_eq {m : Machine}
    (h : (m.program.idents.internAll names).Agrees ids) :
    names.foldl (fun m name => m.bindGlobal name fun id => .host id name none) m = { m with
      program := { m.program with idents := m.program.idents.internAll names }
      scopes := names.foldl (fun s name => s.bind 0 (ids name) name (some (.host (ids name) name none))) m.scopes } := by
  induction names generalizing m with
  | nil => rfl
  | cons name names ih =>
    have hname : (m.program.idents.intern name).2.Agrees ids := h.mono (Idents.names_internAll _ names)
    rw [List.foldl_cons, bindGlobal_eq (v := fun id => .host id name none) hname, ih h]
    rfl

/-- A machine that was started has the program's code and constants, and has bound what evaluation starts with. The
identifiers are those of its own table where no others are asked for. -/
theorem ofProgram_eq {p : Program} {o : Options}
    (h : (p.idents.internAll (importName :: o.hostNames)).Agrees ids := by exact Idents.agrees_number _) :
    ofProgram p o = {
      program := { p with idents := p.idents.internAll (importName :: o.hostNames) }
      fallback := o.fallback
      limit := o.limit
      scopes := .initial ids o.hostNames } := by
  have himport : (p.idents.intern importName).2.Agrees ids := h.mono (Idents.names_internAll _ o.hostNames)
  unfold ofProgram
  simp only
  rw [bindGlobal_eq (v := fun _ => .builtin importName) himport, bindHosts_eq h]
  rfl

end Machine

end Scriptlet

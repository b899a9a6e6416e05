/-
  Scriptlet.Proofs.Lowering — what code a tree is lowered to.

  `Lowered` says, for every kind of node, which code stands for it in a program, given the program's
  tables. It is stated without the compiler, which only adds to the tables of a program and fills
  the blocks that it reserved itself (`nodes_grows`). The code that the compiler gives for a node stands
  for the node in every program that has the tables at the end of compiling, or more of them
  (`node_lowered`), and every tree without holes and foreign operators has code (`succeeds_hereditary`).
-/

import Mathlib.Data.List.Nodup
import Scriptlet.Code.Lower
import Scriptlet.Proofs.Trees

namespace Scriptlet

open Program
open List (prefix_rfl prefix_append map_cons)

/-- Code in which every instruction is marked if it completes a struct instance. -/
abbrev Marked := List (Instr × Bool)

def Marked.op (o : Op) (arg : Nat := 0) : Marked := [(⟨o, arg⟩, false)]

def Marked.site (id : Nat) : Marked := [(⟨.loadIdent, id⟩, true)]

def Slot.marked (s : Slot) : Marked := (s.code.getD []).mapIdx fun k i => (i, (s.sites.getD []).contains k)

namespace Fragment

def marked (p : Fragment) : Marked := p.code.mapIdx fun k i => (i, p.sites.contains k)

def Sited (p : Fragment) : Prop := ∀ k ∈ p.sites, k < p.code.length

theorem sited_op (o : Op) (n : Nat) : (op o n).Sited := by simp [Sited, op, of]

theorem sited_empty : empty.Sited := by simp [Sited, empty]

theorem sited_site (id : Nat) : (site id).Sited := by simp [Sited, site]

theorem sited_append {a b : Fragment} (ha : a.Sited) (hb : b.Sited) : (a ++ b).Sited := by
  intro k hk
  change k < (a.code ++ b.code).length
  rw [List.length_append]
  rcases List.mem_append.mp hk with hk | hk
  · have := ha k hk
    omega
  · obtain ⟨j, hj, rfl⟩ := List.mem_map.mp hk
    have := hb j hj
    omega

structure Marks (f : Fragment) : Prop where
  ascending : f.sites.Pairwise (· < ·)
  sited : f.Sited

theorem marks_empty : empty.Marks := ⟨.nil, sited_empty⟩

theorem marks_op (o : Op) (n : Nat) : (op o n).Marks := ⟨.nil, sited_op o n⟩

theorem marks_site (id : Nat) : (site id).Marks := ⟨List.pairwise_singleton _ _, sited_site id⟩

theorem Marks.append {a b : Fragment} (ha : a.Marks) (hb : b.Marks) : (a ++ b).Marks := by
  refine ⟨?_, sited_append ha.sited hb.sited⟩
  change (a.sites ++ b.sites.map (a.code.length + ·)).Pairwise (· < ·)
  refine List.pairwise_append.mpr ⟨ha.ascending, ?_, fun i hi j hj => ?_⟩
  · rw [List.pairwise_map]
    exact hb.ascending.imp fun hlt => Nat.add_lt_add_left hlt _
  · obtain ⟨k, -, rfl⟩ := List.mem_map.mp hj
    exact Nat.lt_add_right k (ha.sited i hi)

theorem marked_append {a b : Fragment} (ha : a.Sited) : (a ++ b).marked = a.marked ++ b.marked := by
  change (a.code ++ b.code).mapIdx (fun k i => (i, (a.sites ++ b.sites.map (a.code.length + ·)).contains k)) = _
  rw [List.mapIdx_append]
  congr 1
  · refine List.ext_getElem? fun k => ?_
    simp only [marked, List.getElem?_mapIdx]
    cases hk : a.code[k]? with
    | none => rfl
    | some i =>
      have hlt : k < a.code.length := (List.getElem?_eq_some_iff.mp hk).1
      have : ¬ ∃ j ∈ b.sites, a.code.length + j = k := by
        rintro ⟨j, -, rfl⟩
        omega
      simp [this]
  · refine List.ext_getElem? fun k => ?_
    simp only [marked, List.getElem?_mapIdx]
    cases hk : b.code[k]? with
    | none => rfl
    | some i =>
      have : k + a.code.length ∉ a.sites := fun h => by
        have := ha _ h
        omega
      have : (∃ j ∈ b.sites, a.code.length + j = k + a.code.length) ↔ k ∈ b.sites :=
        ⟨fun ⟨j, hj, e⟩ => (by omega : j = k) ▸ hj, fun h => ⟨k, h, by omega⟩⟩
      simp_all

theorem marked_toSlot (p : Fragment) : p.toSlot.marked = p.marked := by
  simp only [Slot.marked, toSlot, marked, Option.getD_some]
  split
  · rename_i h
    simp [List.isEmpty_iff.mp h]
  · rfl

end Fragment

theorem Slot.marked_getElem? (s : Slot) (pc : Nat) :
    s.marked[pc]? = (s.code.getD [])[pc]?.map fun i => (i, (s.sites.getD []).contains pc) := by
  rw [Slot.marked, List.getElem?_mapIdx]

variable {p q : Program} {id : Nat} {keep : Nat → Prop} {name : Text}

namespace Program

theorem block?_of_slot {b : Nat} {s : Slot} (h : p.slots[b]? = some s) : p.block? b = some (s.code.getD []) := by
  change (p.slots[b]?).map _ = _
  rw [h]
  rfl

theorem isConstructor_of_slot {b : Nat} {s : Slot} (h : p.slots[b]? = some s) (pc : Nat) :
    p.isConstructor b pc = (s.sites.getD []).contains pc := by
  have hs : p.sites? b = s.sites := by
    change (p.slots[b]?).bind _ = _
    rw [h]
    rfl
  unfold isConstructor
  rw [hs, Bool.eq_iff_iff]
  simp only [List.any_eq_true, beq_iff_eq, List.contains_iff_mem]
  exact ⟨fun ⟨x, hx, e⟩ => (by omega : x = pc) ▸ hx, fun h => ⟨pc, h, rfl⟩⟩

/-! ## Programs that grow -/

structure Le (p q : Program) : Prop where
  names : p.idents.names <+: q.idents.names
  consts : p.consts <+: q.consts
  slots : p.slots <+: q.slots

theorem Le.refl (p : Program) : p.Le p := ⟨prefix_rfl, prefix_rfl, prefix_rfl⟩

theorem Le.trans {p q r : Program} (h : p.Le q) (k : q.Le r) : p.Le r :=
  ⟨h.names.trans k.names, h.consts.trans k.consts, h.slots.trans k.slots⟩

/-- The second program has the identifiers, the constants and, among the blocks chosen, the code of
    the first. Blocks without code may have been filled. -/
structure Retains (keep : Nat → Prop) (p q : Program) : Prop where
  names : p.idents.names <+: q.idents.names
  consts : p.consts <+: q.consts
  slots : ∀ b s, keep b → p.slots[b]? = some s → s.code.isSome = true → q.slots[b]? = some s

theorem Le.retains (h : p.Le q) (keep : Nat → Prop) : Retains keep p q := by
  refine ⟨h.names, h.consts, fun b s _ hs _ => ?_⟩
  obtain ⟨t, ht⟩ := h.slots
  rw [← ht, List.getElem?_append_left (List.getElem?_eq_some_iff.mp hs).1, hs]

theorem Retains.trans {keep : Nat → Prop} {p q r : Program} (h : Retains keep p q) (k : Retains keep q r) :
    Retains keep p r :=
  ⟨h.names.trans k.names, h.consts.trans k.consts, fun b s hb hs hc => k.slots b s hb (h.slots b s hb hs hc) hc⟩

/-- Filling a block that has no code keeps the code of all others. -/
theorem retains_fill (s : Slot) (h : ∀ t, keep id → p.slots[id]? = some t → t.code = none) :
    Retains keep p (p.fill id s) := by
  refine ⟨prefix_rfl, prefix_rfl, fun b t hb ht hc => ?_⟩
  by_cases e : b = id
  · subst e
    rw [h t hb ht] at hc
    cases hc
  · simp only [fill]
    rw [List.getElem?_set_ne (Ne.symm e), ht]

end Program

namespace Idents

theorem lookup?_eq_some {t : Idents} : t.lookup? name = some id ↔ t.names[id]? = some name := by
  rw [lookup?, List.idxOf?_eq_some_iff, List.getElem?_eq_some_iff]
  constructor
  · rintro ⟨h, e, -⟩
    exact ⟨h, e⟩
  · rintro ⟨h, e⟩
    refine ⟨h, e, fun j hj hje => ?_⟩
    have := t.nodup.getElem_inj_iff.mp (hje.trans e.symm)
    omega

theorem lookup?_mono {t u : Idents} (h : t.names <+: u.names) (hn : t.lookup? name = some id) :
    u.lookup? name = some id := by
  rw [lookup?_eq_some] at hn ⊢
  obtain ⟨r, hr⟩ := h
  rw [← hr, List.getElem?_append_left (List.getElem?_eq_some_iff.mp hn).1, hn]

theorem name_of_lookup? {t : Idents} (h : t.lookup? name = some id) : t.name id = name := by
  have h := lookup?_eq_some.mp h
  change t.names.getD id [] = name
  simp [List.getD_eq_getElem?_getD, h]

theorem intern_spec (t : Idents) (name : Text) :
    t.names <+: (t.intern name).2.names ∧ (t.intern name).2.lookup? name = some (t.intern name).1 := by
  unfold intern
  split
  · rename_i id h
    exact ⟨prefix_rfl, h⟩
  · refine ⟨prefix_append _ _, ?_⟩
    rw [lookup?_eq_some]
    simp [size]

end Idents

/-! ## Lowered trees -/

def Operator.op? : Operator → Option Op
  | .add => some .add
  | .sub => some .sub
  | .mul => some .mul
  | .div => some .div
  | .other _ => none

namespace Program

def Numbers (p : Program) (names : List Text) (ids : List Nat) : Prop :=
  names.map p.idents.lookup? = ids.map some

end Program

def Marked.ops (o : Op) (ids : List Nat) : Marked := ids.flatMap fun id => Marked.op o id

def Marked.opening (depth : Nat) (fs : List (Text × Node)) : Marked :=
  if depth = 0 && !fs.isEmpty then [] else Marked.op .beginStruct

section

variable (keep : Nat → Prop) (p : Program)

mutual

/-- The code stands for the node in the program. The blocks of functions are among those to be kept. -/
def Lowered (depth : Nat) : Node → Marked → Prop
  | .ident name, c => ∃ id, p.idents.lookup? name = some id ∧ c = Marked.op .loadIdent id
  | .assign l r, c => ∃ a b, Lowered depth l a ∧ Lowered depth r b ∧ c = a ++ b ++ Marked.op .store
  | .construct type fs, c =>
    ∃ a id, LoweredFields (depth + 1) fs a ∧ p.idents.lookup? type = some id ∧
      c = Marked.opening depth fs ++ a ++ Marked.site id
  | .array items, c => ∃ a, LoweredAll depth items a ∧ c = a ++ Marked.op .makeArray items.length
  | .call callee args, c =>
    ∃ a b, Lowered depth callee a ∧ LoweredAll depth args b ∧ c = a ++ b ++ Marked.op .call args.length
  | .property object name, c =>
    ∃ a id, Lowered depth object a ∧ p.idents.lookup? name = some id ∧ c = a ++ Marked.op .loadField id
  | .binary op l r, c =>
    ∃ a b o, Lowered depth l a ∧ Lowered depth r b ∧ op.op? = some o ∧ c = a ++ b ++ Marked.op o
  | .function params body, c =>
    ∃ ids k b s, p.Numbers params ids ∧ p.consts[k]? = some (.proto ⟨(b : Nat), params.length⟩) ∧ keep b ∧
      p.slots[b]? = some s ∧ s.code.isSome = true ∧ LoweredAll 0 body s.marked ∧
      c = Marked.ops .loadIdent ids ++ Marked.op .loadConst k ++ Marked.op .makeFn params.length
  | .structDef name fs, c =>
    ∃ ids id, p.Numbers (fs.map (·.1)) ids ∧ p.idents.lookup? name = some id ∧
      c = Marked.ops .addField ids ++ Marked.op .createStruct id
  | .variable type name, c =>
    ∃ id k, p.idents.lookup? name = some id ∧ p.consts[k]? = some (Lower.initial type) ∧
      c = Marked.op .loadIdent id ++ Marked.op .loadConst k ++ Marked.op .store
  | .ret none, c => ∃ k, p.consts[k]? = some .none ∧ c = Marked.op .loadConst k ++ Marked.op .ret
  | .ret (some v), c => ∃ a, Lowered depth v a ∧ c = a ++ Marked.op .ret
  | .int n, c => ∃ k, p.consts[k]? = some (.int n) ∧ c = Marked.op .loadConst k
  | .float x, c => ∃ k, p.consts[k]? = some (.float x) ∧ c = Marked.op .loadConst k
  | .str s, c => ∃ k, p.consts[k]? = some (.str s) ∧ c = Marked.op .loadConst k
  | .hole, _ => False
termination_by structural n => n

def LoweredAll (depth : Nat) : List Node → Marked → Prop
  | [], c => c = []
  | n :: ns, c => ∃ a b, Lowered depth n a ∧ LoweredAll depth ns b ∧ c = a ++ b
termination_by structural ns => ns

def LoweredFields (depth : Nat) : List (Text × Node) → Marked → Prop
  | [], c => c = []
  | (name, n) :: fs, c =>
    ∃ a b id, Lowered depth n a ∧ p.idents.lookup? name = some id ∧ LoweredFields depth fs b ∧
      c = a ++ Marked.op .storeField id ++ b
termination_by structural fs => fs

end

end

section

variable {later : Nat → Prop}

theorem Program.Numbers.mono {names : List Text} {ids : List Nat} (h : p.idents.names <+: q.idents.names)
    (hn : p.Numbers names ids) : q.Numbers names ids := by
  unfold Numbers at *
  induction names generalizing ids with
  | nil => exact hn
  | cons name names ih =>
    cases ids with
    | nil => simp at hn
    | cons id ids =>
      simp only [map_cons, List.cons.injEq] at hn ⊢
      exact ⟨Idents.lookup?_mono h hn.1, ih hn.2⟩

theorem getElem?_mono {α : Type} {l r : List α} (h : l <+: r) {k : Nat} {a : α} (ha : l[k]? = some a) :
    r[k]? = some a := by
  obtain ⟨t, rfl⟩ := h
  rw [List.getElem?_append_left (List.getElem?_eq_some_iff.mp ha).1, ha]

mutual

/-- Code keeps standing for its tree when the program grows. -/
theorem Lowered.mono (h : Retains keep p q) (hk : ∀ b s, keep b → p.slots[b]? = some s → later b) :
    ∀ n {d c}, Lowered keep p d n c → Lowered later q d n c
  | .ident name, d, c => by
    rintro ⟨id, hi, rfl⟩
    exact ⟨id, Idents.lookup?_mono h.names hi, rfl⟩
  | .assign l r, d, c => by
    rintro ⟨a, b, ha, hb, rfl⟩
    exact ⟨a, b, Lowered.mono h hk l ha, Lowered.mono h hk r hb, rfl⟩
  | .construct type fs, d, c => by
    rintro ⟨a, id, ha, hi, rfl⟩
    exact ⟨a, id, LoweredFields.mono h hk fs ha, Idents.lookup?_mono h.names hi, rfl⟩
  | .array items, d, c => by
    rintro ⟨a, ha, rfl⟩
    exact ⟨a, LoweredAll.mono h hk items ha, rfl⟩
  | .call callee args, d, c => by
    rintro ⟨a, b, ha, hb, rfl⟩
    exact ⟨a, b, Lowered.mono h hk callee ha, LoweredAll.mono h hk args hb, rfl⟩
  | .property object name, d, c => by
    rintro ⟨a, id, ha, hi, rfl⟩
    exact ⟨a, id, Lowered.mono h hk object ha, Idents.lookup?_mono h.names hi, rfl⟩
  | .binary op l r, d, c => by
    rintro ⟨a, b, o, ha, hb, ho, rfl⟩
    exact ⟨a, b, o, Lowered.mono h hk l ha, Lowered.mono h hk r hb, ho, rfl⟩
  | .function params body, d, c => by
    rintro ⟨ids, k, b, s, hi, hc, hb, hs, hf, hl, rfl⟩
    exact ⟨ids, k, b, s, hi.mono h.names, getElem?_mono h.consts hc, hk b s hb hs, h.slots b s hb hs hf, hf,
      LoweredAll.mono h hk body hl, rfl⟩
  | .structDef name fs, d, c => by
    rintro ⟨ids, id, hi, hn, rfl⟩
    exact ⟨ids, id, hi.mono h.names, Idents.lookup?_mono h.names hn, rfl⟩
  | .variable type name, d, c => by
    rintro ⟨id, k, hi, hc, rfl⟩
    exact ⟨id, k, Idents.lookup?_mono h.names hi, getElem?_mono h.consts hc, rfl⟩
  | .ret (some v), d, c => by
    rintro ⟨a, ha, rfl⟩
    exact ⟨a, Lowered.mono h hk v ha, rfl⟩
  | .ret none, _, _ | .int _, _, _ | .float _, _, _ | .str _, _, _ => by
    rintro ⟨k, hc, rfl⟩
    exact ⟨k, getElem?_mono h.consts hc, rfl⟩
  | .hole, d, c => False.elim

theorem LoweredAll.mono (h : Retains keep p q) (hk : ∀ b s, keep b → p.slots[b]? = some s → later b) :
    ∀ ns {d c}, LoweredAll keep p d ns c → LoweredAll later q d ns c
  | [], d, c => id
  | n :: ns, d, c => by
    rintro ⟨a, b, ha, hb, rfl⟩
    exact ⟨a, b, Lowered.mono h hk n ha, LoweredAll.mono h hk ns hb, rfl⟩

theorem LoweredFields.mono (h : Retains keep p q) (hk : ∀ b s, keep b → p.slots[b]? = some s → later b) :
    ∀ fs {d c}, LoweredFields keep p d fs c → LoweredFields later q d fs c
  | [], d, c => id
  | (name, n) :: fs, d, c => by
    rintro ⟨a, b, id, ha, hi, hb, rfl⟩
    exact ⟨a, b, id, Lowered.mono h hk n ha, Idents.lookup?_mono h.names hi, LoweredFields.mono h hk fs hb, rfl⟩

end

end

namespace Lower

/-! ## Properties of the compiler -/

section

variable {α β : Type} {I : Program → Prop}

def result (x : Lower α) (p : Program) : Except LowerError α × Program := x.run.run p

theorem result_bind (x : Lower α) (k : α → Lower β) (p : Program) :
    result (x >>= k) p = match result x p with
      | (.ok a, q) => result (k a) q
      | (.error e, q) => (.error e, q) := by
  simp only [result, bind, ExceptT.bind, ExceptT.mk, ExceptT.run, StateT.bind, StateT.run]
  rcases x p with ⟨_ | _, r⟩ <;> rfl

/-- Has a text of its own in the source, or none. -/
def isLiteral : Value → Bool
  | .none | .int _ | .float _ | .str _ | .bool _ => true
  | _ => false

theorem isLiteral_initial (type : Text) : isLiteral (initial type) = true := by
  unfold initial
  repeat' split
  all_goals rfl

structure Hereditary (P : ∀ {α : Type}, Lower α → Prop) (H : Node → Prop) : Prop where
  part {n c : Node} : H n → c ∈ n.children → H c
  pure {α : Type} (a : α) : P (pure a)
  bind {α β : Type} {x : Lower α} {k : α → Lower β} : P x → (∀ a, P (k a)) → P (x >>= k)
  intern (name : Text) : P (intern name)
  literal (v : Value) : isLiteral v = true → P (constant v)
  operator {op : Operator} {l r : Node} : H (.binary op l r) → P (operator op)
  /-- The body of a function has a block of its own. -/
  function {params : List Text} {body : List Node} (d : Nat) : H (.function params body) → P (loads .loadIdent params) →
    P (nodes 0 body) → P (node d (.function params body))
  hole : H .hole → P (throw .hole : Lower Fragment)

namespace Hereditary

variable {P : ∀ {α : Type}, Lower α → Prop} {H : Node → Prop}

section

variable (h : Hereditary P H)

include h

theorem loads (o : Op) (names : List Text) : P (loads o names) := by
  induction names with
  | nil => exact h.pure _
  | cons name names ih => exact h.bind (h.intern name) fun _ => h.bind ih fun _ => h.pure _

theorem nodes_of_parts (d : Nat) {ns : List Node} (hns : ∀ n ∈ ns, P (Lower.node d n)) : P (Lower.nodes d ns) := by
  induction ns with
  | nil => exact h.pure _
  | cons n ns ih =>
    obtain ⟨hn, hns⟩ := List.forall_mem_cons.mp hns
    exact h.bind hn fun _ => h.bind (ih hns) fun _ => h.pure _

theorem fields_of_parts (d : Nat) {fs : List (Text × Node)}
    (hfs : ∀ n ∈ fs.map (·.2), P (Lower.node d n)) : P (fields d fs) := by
  induction fs with
  | nil => exact h.pure _
  | cons f fs ih =>
    obtain ⟨hf, hfs⟩ := List.forall_mem_cons.mp hfs
    exact h.bind hf fun _ => h.bind (h.intern f.1) fun _ => h.bind (ih hfs) fun _ => h.pure _

theorem node (n : Node) (hn : H n) (d : Nat) : P (Lower.node d n) := by
  induction n using Node.induction_children generalizing d with
  | step n ih =>
    have part : ∀ c ∈ n.children, ∀ d, P (Lower.node d c) := fun c hc d => ih c hc (h.part hn hc) d
    have parts (d : Nat) {ns : List Node} (hns : ∀ c ∈ ns, c ∈ n.children) : P (Lower.nodes d ns) :=
      h.nodes_of_parts d fun c hc => part c (hns c hc) d
    cases n with
    | ident name => exact h.bind (h.intern name) fun _ => h.pure _
    | assign l r =>
      have hl := part l (.head _) d
      have hr := part r (.tail _ (.head _)) d
      exact h.bind hl fun _ => h.bind hr fun _ => h.pure _
    | construct type fs =>
      have hfs := h.fields_of_parts (d + 1) fun c hc => part c hc (d + 1)
      exact h.bind hfs fun _ => h.bind (h.intern type) fun _ => h.pure _
    | array items => exact h.bind (parts d fun _ hc => hc) fun _ => h.pure _
    | call callee args =>
      have hargs := parts d fun _ hc => List.mem_cons_of_mem callee hc
      exact h.bind (part callee List.mem_cons_self d) fun _ => h.bind hargs fun _ => h.pure _
    | property object name =>
      exact h.bind (part object List.mem_cons_self d) fun _ => h.bind (h.intern name) fun _ => h.pure _
    | binary op l r =>
      have hl := part l (.head _) d
      have hr := part r (.tail _ (.head _)) d
      exact h.bind hl fun _ => h.bind hr fun _ => h.bind (h.operator hn) fun _ => h.pure _
    | function params body => exact h.function d hn (h.loads .loadIdent params) (parts 0 fun _ hc => hc)
    | structDef name fs => exact h.bind (h.loads .addField _) fun _ => h.bind (h.intern name) fun _ => h.pure _
    | «variable» type name =>
      exact h.bind (h.intern name) fun _ => h.bind (h.literal _ (isLiteral_initial type)) fun _ => h.pure _
    | ret v =>
      cases v with
      | none => exact h.bind (h.literal .none rfl) fun _ => h.pure _
      | some v => exact h.bind (part v List.mem_cons_self d) fun _ => h.pure _
    | int n => exact h.literal (.int n) rfl
    | float x => exact h.literal (.float x) rfl
    | str s => exact h.literal (.str s) rfl
    | hole => exact h.hole hn

theorem nodes {ns : List Node} (hns : ∀ n ∈ ns, H n) (d : Nat) : P (Lower.nodes d ns) :=
  h.nodes_of_parts d fun n hn => h.node n (hns n hn) d

end

end Hereditary

/-! ## What the compiler keeps -/

/-- Lowering keeps a property of the program, whether it succeeds or not. -/
def Keeps (I : Program → Prop) (x : Lower α) : Prop := ∀ p, I p → I (result x p).2

theorem keeps_pure (a : α) : Keeps I (pure a) := fun _ h => h

theorem keeps_throw (e : LowerError) : Keeps I (throw e : Lower α) := fun _ h => h

theorem Keeps.bind {x : Lower α} {k : α → Lower β} (hx : Keeps I x)
    (hk : ∀ {p q a}, result x p = (.ok a, q) → Keeps I (k a)) : Keeps I (x >>= k) := by
  intro p h
  have hq := hx p h
  rw [result_bind]
  rcases e : result x p with ⟨_ | a, q⟩
  · rw [e] at hq
    exact hq
  · rw [e] at hq
    exact hk e q hq

theorem keeps_hereditary (hintern : ∀ name, Keeps I (intern name))
    (hliteral : ∀ v, isLiteral v = true → Keeps I (constant v))
    (hfunction : ∀ (d : Nat) {params : List Text} {body : List Node}, Keeps I (loads .loadIdent params) →
      Keeps I (nodes 0 body) → Keeps I (node d (.function params body))) :
    Hereditary (fun {_} x => Keeps I x) fun _ => True where
  part _ _ := trivial
  pure := keeps_pure
  bind hx hk := hx.bind fun _ => hk _
  intern := hintern
  literal := hliteral
  operator {op _ _} _ := by
    cases op with
    | other b => exact keeps_throw _
    | _ => exact keeps_pure _
  function d _ := hfunction d
  hole _ := keeps_throw .hole

/-! ## The compiler adds to the tables -/

variable {base : Program}

theorem grows_intern (name : Text) : Keeps base.Le (intern name) := fun p h =>
  h.trans ⟨(p.idents.intern_spec name).1, prefix_rfl, prefix_rfl⟩

theorem grows_constant (v : Value) : Keeps base.Le (constant v) :=
  Keeps.bind (fun _ h => h.trans ⟨prefix_rfl, prefix_append _ _, prefix_rfl⟩) fun _ => keeps_pure _

/-- A block that is reserved stands behind the blocks there are. -/
theorem grows_reserve {k : Nat → Lower β} (hk : ∀ id, base.slots.length ≤ id → Keeps base.Le (k id)) :
    Keeps base.Le ((modifyGet (·.reserve) : Lower Nat) >>= k) := by
  intro p h
  exact hk p.slots.length h.slots.length_le _ (h.trans ⟨prefix_rfl, prefix_rfl, prefix_append _ _⟩)

theorem grows_fill (s : Slot) (hid : base.slots.length ≤ id) : Keeps base.Le (modify (·.fill id s)) := by
  intro p h
  obtain ⟨t, ht⟩ := h.slots
  refine ⟨h.names, h.consts, t.set (id - base.slots.length) s, ?_⟩
  change _ = p.slots.set id s
  rw [← ht, List.set_append_right _ _ hid]

theorem nodes_grows (d : Nat) (ns : List Node) : Keeps base.Le (nodes d ns) := by
  refine (keeps_hereditary grows_intern (fun v _ => grows_constant v) fun d _ _ hloads hbody => ?_).nodes
    (fun _ _ => trivial) d
  exact hloads.bind fun _ => grows_reserve fun _ hid => (grows_constant _).bind fun _ =>
    hbody.bind fun {_ _ b} _ => (grows_fill b.toSlot hid).bind fun _ => keeps_pure _

/-! ## The code that the compiler gives -/

def Gives (x : Lower α) (p : Program) (a : α) (q : Program) : Prop := result x p = (.ok a, q)

theorem gives_bind {x : Lower α} {k : α → Lower β} {r : Program} {b : β} :
    Gives (x >>= k) p b r ↔ ∃ a q, Gives x p a q ∧ Gives (k a) q b r := by
  unfold Gives
  rw [result_bind]
  rcases result x p with ⟨_ | a, q⟩ <;> simp

theorem gives_pure {a b : α} : Gives (pure a) p b q ↔ a = b ∧ p = q := by
  unfold Gives
  rw [show result (pure a) p = (.ok a, p) from rfl]
  simp

theorem gives_map {x : Lower α} {g : α → β} {b : β} :
    Gives (x >>= fun a => pure (g a)) p b q ↔ ∃ a, Gives x p a q ∧ g a = b := by
  simp only [gives_bind, gives_pure]
  exact ⟨fun ⟨a, _, ha, hb, hq⟩ => ⟨a, hq ▸ ha, hb⟩, fun ⟨a, ha, hb⟩ => ⟨a, q, ha, hb, rfl⟩⟩

theorem gives_map₂ {x : Lower α} {y : α → Lower β} {g : α → β → γ} {c : γ} :
    Gives (x >>= fun a => y a >>= fun b => pure (g a b)) p c q ↔
      ∃ a p₁ b, Gives x p a p₁ ∧ Gives (y a) p₁ b q ∧ g a b = c := by
  simp only [gives_bind (x := x), gives_map, exists_and_left]

theorem gives_constant {v : Value} {f : Fragment} :
    Gives (constant v) p f q ↔ Fragment.op .loadConst p.consts.length = f ∧ (p.addConst v).2 = q := by
  unfold Gives
  rw [show result (constant v) p = (.ok (.op .loadConst p.consts.length), (p.addConst v).2) from rfl]
  simp

theorem Gives.le {x : Lower α} {a : α} (h : Gives x p a q) (hx : Keeps p.Le x) : p.Le q := by
  have := hx p (.refl p)
  rwa [h] at this

structure Stands (L : (Nat → Prop) → Program → Marked → Prop) (p : Program) (f : Fragment) (q : Program) : Prop where
  le : p.Le q
  marks : f.Marks
  code : ∀ {keep : Nat → Prop} {r : Program}, (∀ b, p.slots.length ≤ b → keep b) → Program.Retains keep q r →
    L keep r f.marked

section

variable {L M : (Nat → Prop) → Program → Marked → Prop} {f : Fragment}

theorem Stands.imp (h : Stands L p f q) (hm : ∀ {keep r c}, L keep r c → M keep r c) :
    Stands M p f q :=
  ⟨h.le, h.marks, fun hk hr => hm (h.code hk hr)⟩

theorem Stands.append {p₁ : Program} {a b : Fragment} (ha : Stands L p a p₁) (hb : Stands M p₁ b q) :
    Stands (fun keep r c => ∃ x y, L keep r x ∧ M keep r y ∧ c = x ++ y) p (a ++ b) q := by
  refine ⟨ha.le.trans hb.le, ha.marks.append hb.marks, fun {keep r} hk hr => ?_⟩
  refine ⟨a.marked, b.marked, ha.code hk ((hb.le.retains keep).trans hr), ?_, Fragment.marked_append ha.marks.sited⟩
  exact hb.code (fun i hi => hk i (Nat.le_trans ha.le.slots.length_le hi)) hr

theorem stands_op (p : Program) (o : Op) (n : Nat) : Stands (fun _ _ c => c = Marked.op o n) p (.op o n) p :=
  ⟨.refl p, Fragment.marks_op o n, fun _ _ => rfl⟩

/-- A name that was interned has its number in every program that has the names of this one. -/
theorem Gives.number (h : Gives (intern name) p id q) :
    ∀ {r : Program}, q.idents.names <+: r.idents.names → r.idents.lookup? name = some id := by
  intro r hr
  unfold Gives at h
  rw [show result (intern name) p = (.ok (p.intern name).1, (p.intern name).2) from rfl] at h
  obtain ⟨rfl, rfl⟩ : (p.intern name).1 = id ∧ (p.intern name).2 = q := by simpa using h
  exact Idents.lookup?_mono hr (p.idents.intern_spec name).2

theorem Gives.op (h : Gives (intern name) p id q) (o : Op) :
    Stands (fun _ r c => ∃ id, r.idents.lookup? name = some id ∧ c = Marked.op o id) p (.op o id) q :=
  ⟨h.le (grows_intern name), Fragment.marks_op o id, fun _ hr => ⟨id, h.number hr.names, rfl⟩⟩

theorem Gives.site (h : Gives (intern name) p id q) :
    Stands (fun _ r c => ∃ id, r.idents.lookup? name = some id ∧ c = Marked.site id) p (.site id) q :=
  ⟨h.le (grows_intern name), Fragment.marks_site id, fun _ hr => ⟨id, h.number hr.names, rfl⟩⟩

theorem Gives.constant {v : Value} (h : Gives (constant v) p f q) :
    Stands (fun _ r c => ∃ k : Nat, r.consts[k]? = some v ∧ c = Marked.op .loadConst k) p f q := by
  have hle := h.le (grows_constant v)
  obtain ⟨rfl, rfl⟩ := gives_constant.mp h
  refine ⟨hle, Fragment.marks_op _ _, fun _ hr => ⟨p.consts.length, getElem?_mono hr.consts ?_, rfl⟩⟩
  simp [addConst]

theorem Gives.operator {op : Operator} (h : Gives (operator op) p f q) :
    Stands (fun _ _ c => ∃ o, op.op? = some o ∧ c = Marked.op o) p f q := by
  cases op with
  | other b => cases h
  | _ =>
    obtain ⟨rfl, rfl⟩ := gives_pure.mp h
    exact (stands_op p _ 0).imp fun e => ⟨_, rfl, e⟩

theorem Gives.loads {o : Op} {names : List Text} (h : Gives (loads o names) p f q) :
    Stands (fun _ r c => ∃ ids, r.Numbers names ids ∧ c = Marked.ops o ids) p f q := by
  induction names generalizing p f with
  | nil =>
    obtain ⟨rfl, rfl⟩ := gives_pure.mp h
    exact ⟨.refl p, Fragment.marks_empty, fun _ _ => ⟨[], rfl, rfl⟩⟩
  | cons name names ih =>
    obtain ⟨id, p₁, g, hi, hg, rfl⟩ := gives_map₂.mp h
    refine ((hi.op o).append (ih hg)).imp ?_
    rintro keep r c ⟨_, _, ⟨id, hid, rfl⟩, ⟨ids, hids, rfl⟩, rfl⟩
    refine ⟨id :: ids, ?_, rfl⟩
    unfold Numbers at hids ⊢
    rw [map_cons, map_cons, hid, hids]

end

theorem gives_reserve (h : Gives (modifyGet (·.reserve)) p id q) : p.slots.length = id ∧ p.reserve.2 = q := by
  unfold Gives at h
  rw [show result (modifyGet (·.reserve)) p = (.ok p.slots.length, p.reserve.2) from rfl] at h
  simpa using h

theorem gives_fill {s : Slot} {u : Unit} (h : Gives (modify (·.fill id s)) p u q) : p.fill id s = q := by
  unfold Gives at h
  rw [show result (modify (·.fill id s)) p = (.ok ⟨⟩, p.fill id s) from rfl] at h
  simpa using h

/-- The code of a function loads a prototype whose block has the code of the body. -/
theorem function_stands {params : List Text} {body : List Node} {d : Nat} {p₁ p₂ p₃ : Program} {a k b : Fragment}
    (ha : Gives (loads .loadIdent params) p a p₁)
    (hk : Gives (constant (.proto ⟨(p₁.slots.length : Nat), params.length⟩)) p₁.reserve.2 k p₂)
    (hb : Stands (LoweredAll · · 0 body) p₂ b p₃) :
    Stands (Lowered · · d (.function params body)) p (a ++ k ++ .op .makeFn params.length)
      (p₃.fill p₁.slots.length b.toSlot) := by
  have hres : p₁.Le p₁.reserve.2 := ⟨prefix_rfl, prefix_rfl, prefix_append _ _⟩
  have hle : p₁.Le p₃ := hres.trans (hk.constant.le.trans hb.le)
  have hlen : p.slots.length ≤ p₁.slots.length := ha.loads.le.slots.length_le
  have hempty : p₃.slots[p₁.slots.length]? = some {} := by
    refine getElem?_mono (hk.constant.le.trans hb.le).slots ?_
    simp [reserve]
  have hgrows : Keeps p.Le (modify (·.fill p₁.slots.length b.toSlot)) := grows_fill b.toSlot hlen
  refine ⟨hgrows p₃ (ha.loads.le.trans hle), ?_, fun {keep r} hkeep hr => ?_⟩
  · exact (ha.loads.marks.append hk.constant.marks).append (Fragment.marks_op _ _)
  · have h₃ : Retains keep p₃ r := by
      refine (retains_fill _ fun t _ ht => ?_).trans hr
      rw [hempty] at ht
      cases ht
      rfl
    have hslot : (p₃.fill p₁.slots.length b.toSlot).slots[p₁.slots.length]? = some b.toSlot := by
      simp [fill, (List.getElem?_eq_some_iff.mp hempty).1]
    have hlater {i : Nat} (hi : p₁.slots.length ≤ i) : keep i := hkeep i (Nat.le_trans hlen hi)
    obtain ⟨ids, hids, ea⟩ := ha.loads.code hkeep ((hle.retains keep).trans h₃)
    obtain ⟨n, hn, ek⟩ := hk.constant.code (fun i hi => hlater (Nat.le_trans hres.slots.length_le hi))
      ((hb.le.retains keep).trans h₃)
    have hbody := hb.code (fun i hi => hlater
      (Nat.le_trans (hres.trans hk.constant.le).slots.length_le hi)) h₃
    refine ⟨ids, n, p₁.slots.length, b.toSlot, hids, hn, hlater (Nat.le_refl _),
      hr.slots _ _ (hlater (Nat.le_refl _)) hslot rfl, rfl, ?_, ?_⟩
    · rw [Fragment.marked_toSlot]
      exact hbody
    · rw [Fragment.marked_append (ha.loads.marks.append hk.constant.marks).sited,
        Fragment.marked_append ha.loads.marks.sited, ea, ek]
      rfl

mutual

/-- The code compiled for a node stands for the node. -/
theorem node_lowered {d p q f} : ∀ n, Gives (node d n) p f q → Stands (Lowered · · d n) p f q
  | .ident name, h => by
    obtain ⟨id, hi, rfl⟩ := gives_map.mp h
    exact hi.op .loadIdent
  | .assign l r, h => by
    obtain ⟨a, p₁, b, ha, hb, rfl⟩ := gives_map₂.mp h
    refine (((node_lowered l ha).append (node_lowered r hb)).append (stands_op _ .store 0)).imp ?_
    rintro keep r c ⟨_, _, ⟨a, b, ha, hb, rfl⟩, rfl, rfl⟩
    exact ⟨a, b, ha, hb, rfl⟩
  | .construct type fs, h => by
    obtain ⟨a, p₁, id, ha, hi, rfl⟩ := gives_map₂.mp h
    have hs : Stands (fun _ _ c => c = Marked.opening d fs) p
        (if d = 0 && !fs.isEmpty then Fragment.empty else .op .beginStruct) p := by
      unfold Marked.opening
      split
      · exact ⟨.refl p, Fragment.marks_empty, fun _ _ => rfl⟩
      · exact stands_op p .beginStruct 0
    refine ((hs.append (fields_lowered fs ha)).append hi.site).imp ?_
    rintro keep r c ⟨_, _, ⟨_, a, rfl, ha, rfl⟩, ⟨id, hid, rfl⟩, rfl⟩
    exact ⟨a, id, ha, hid, rfl⟩
  | .array items, h => by
    obtain ⟨a, ha, rfl⟩ := gives_map.mp h
    refine ((nodes_lowered items ha).append (stands_op _ .makeArray items.length)).imp ?_
    rintro keep r c ⟨a, _, ha, rfl, rfl⟩
    exact ⟨a, ha, rfl⟩
  | .call callee args, h => by
    obtain ⟨a, p₁, b, ha, hb, rfl⟩ := gives_map₂.mp h
    refine (((node_lowered callee ha).append (nodes_lowered args hb)).append
      (stands_op _ .call args.length)).imp ?_
    rintro keep r c ⟨_, _, ⟨a, b, ha, hb, rfl⟩, rfl, rfl⟩
    exact ⟨a, b, ha, hb, rfl⟩
  | .property object name, h => by
    obtain ⟨a, p₁, id, ha, hi, rfl⟩ := gives_map₂.mp h
    refine ((node_lowered object ha).append (hi.op .loadField)).imp ?_
    rintro keep r c ⟨a, _, ha, ⟨id, hid, rfl⟩, rfl⟩
    exact ⟨a, id, ha, hid, rfl⟩
  | .binary op l r, h => by
    obtain ⟨a, p₁, ha, h⟩ := gives_bind.mp h
    obtain ⟨b, p₂, g, hb, hg, rfl⟩ := gives_map₂.mp h
    refine (((node_lowered l ha).append (node_lowered r hb)).append hg.operator).imp ?_
    rintro keep r c ⟨_, _, ⟨a, b, ha, hb, rfl⟩, ⟨o, ho, rfl⟩, rfl⟩
    exact ⟨a, b, o, ha, hb, ho, rfl⟩
  | .function params body, h => by
    obtain ⟨a, p₁, ha, h⟩ := gives_bind.mp h
    obtain ⟨id, p₂, hid, h⟩ := gives_bind.mp h
    obtain ⟨k, p₃, hk, h⟩ := gives_bind.mp h
    obtain ⟨b, p₄, hb, h⟩ := gives_bind.mp h
    obtain ⟨⟨⟩, p₅, hf, h⟩ := gives_bind.mp h
    obtain ⟨rfl, rfl⟩ := gives_pure.mp h
    obtain ⟨rfl, rfl⟩ := gives_reserve hid
    obtain rfl := gives_fill hf
    exact function_stands ha hk (nodes_lowered body hb)
  | .structDef name fs, h => by
    obtain ⟨a, p₁, id, ha, hi, rfl⟩ := gives_map₂.mp h
    refine (ha.loads.append (hi.op .createStruct)).imp ?_
    rintro keep r c ⟨_, _, ⟨ids, hids, rfl⟩, ⟨id, hid, rfl⟩, rfl⟩
    exact ⟨ids, id, hids, hid, rfl⟩
  | .variable type name, h => by
    obtain ⟨id, p₁, k, hi, hk, rfl⟩ := gives_map₂.mp h
    refine (((hi.op .loadIdent).append hk.constant).append (stands_op _ .store 0)).imp ?_
    rintro keep r c ⟨_, _, ⟨_, _, ⟨id, hid, rfl⟩, ⟨k, hk, rfl⟩, rfl⟩, rfl, rfl⟩
    exact ⟨id, k, hid, hk, rfl⟩
  | .ret none, h => by
    obtain ⟨k, hk, rfl⟩ := gives_map.mp h
    refine (hk.constant.append (stands_op _ .ret 0)).imp ?_
    rintro keep r c ⟨_, _, ⟨k, hk, rfl⟩, rfl, rfl⟩
    exact ⟨k, hk, rfl⟩
  | .ret (some v), h => by
    obtain ⟨a, ha, rfl⟩ := gives_map.mp h
    refine ((node_lowered v ha).append (stands_op _ .ret 0)).imp ?_
    rintro keep r c ⟨a, _, ha, rfl, rfl⟩
    exact ⟨a, ha, rfl⟩
  | .int n, h => h.constant
  | .float x, h => h.constant
  | .str s, h => h.constant
  | .hole, h => by cases h

theorem nodes_lowered {d p q f} : ∀ ns, Gives (nodes d ns) p f q → Stands (LoweredAll · · d ns) p f q
  | [], h => by
    obtain ⟨rfl, rfl⟩ := gives_pure.mp h
    exact ⟨.refl p, Fragment.marks_empty, fun _ _ => rfl⟩
  | n :: ns, h => by
    obtain ⟨a, p₁, b, ha, hb, rfl⟩ := gives_map₂.mp h
    exact (node_lowered n ha).append (nodes_lowered ns hb)

theorem fields_lowered {d p q f} : ∀ fs, Gives (fields d fs) p f q → Stands (LoweredFields · · d fs) p f q
  | [], h => by
    obtain ⟨rfl, rfl⟩ := gives_pure.mp h
    exact ⟨.refl p, Fragment.marks_empty, fun _ _ => rfl⟩
  | (name, n) :: fs, h => by
    obtain ⟨a, p₁, ha, h⟩ := gives_bind.mp h
    obtain ⟨id, p₂, b, hi, hb, rfl⟩ := gives_map₂.mp h
    refine (((node_lowered n ha).append (hi.op .storeField)).append (fields_lowered fs hb)).imp ?_
    rintro keep r c ⟨_, b, ⟨a, _, ha, ⟨id, hid, rfl⟩, rfl⟩, hb, rfl⟩
    exact ⟨a, b, id, ha, hid, hb, rfl⟩

end

/-! ## Trees that have code -/

def Succeeds (x : Lower α) : Prop := ∀ p, ∃ a q, Gives x p a q

theorem succeeds_pure (a : α) : Succeeds (pure a) := fun p => ⟨a, p, rfl⟩

theorem succeeds_modifyGet (g : Program → α × Program) : Succeeds (modifyGet g) := fun p => ⟨(g p).1, (g p).2, rfl⟩

theorem succeeds_bind {x : Lower α} {k : α → Lower β} (hx : Succeeds x) (hk : ∀ a, Succeeds (k a)) :
    Succeeds (x >>= k) := by
  intro p
  obtain ⟨a, q, ha⟩ := hx p
  obtain ⟨b, r, hb⟩ := hk a q
  exact ⟨b, r, gives_bind.mpr ⟨a, q, ha, hb⟩⟩

theorem succeeds_intern (name : Text) : Succeeds (intern name) := succeeds_modifyGet _

theorem succeeds_constant (v : Value) : Succeeds (constant v) :=
  succeeds_bind (succeeds_modifyGet _) fun _ => succeeds_pure _

theorem succeeds_operator {op : Operator} {l r : Node} (h : (Node.binary op l r).isWhole = true) :
    Succeeds (operator op) := by
  cases op with
  | other b => simp [Node.isWhole, Node.hasOperator] at h
  | _ => exact succeeds_pure _

/-- A tree without holes and foreign operators has code. -/
theorem succeeds_hereditary : Hereditary (fun {_} x => Succeeds x) fun n => n.every Node.isWhole = true where
  part h hc := (Node.every_iff.mp h).2 _ hc
  pure := succeeds_pure
  bind := succeeds_bind
  intern := succeeds_intern
  literal v _ := succeeds_constant v
  operator h := succeeds_operator (Node.check_of_every h)
  function _ _ hloads hbody :=
    succeeds_bind hloads fun _ => succeeds_bind (succeeds_modifyGet _) fun _ => succeeds_bind (succeeds_constant _) fun _ =>
      succeeds_bind hbody fun _ => succeeds_bind (succeeds_modifyGet _) fun _ => succeeds_pure _
  hole h := by cases h

/-! ## Whole programs -/

variable {ns : List Node}

theorem into_grows (hid : base.slots.length ≤ id) : Keeps base.Le (into id ns) :=
  (nodes_grows 0 ns).bind fun {_ _ b} _ => grows_fill b.toSlot hid

theorem into_succeeds (id : Nat) (h : Node.everyNode Node.isWhole ns = true) : Succeeds (into id ns) :=
  succeeds_bind (succeeds_hereditary.nodes (Node.everyNode_iff.mp h) 0) fun _ => succeeds_modifyGet _

/-- Code that is put into a block stands there, and all other code is as before. -/
theorem into_lowered (h : Gives (into id ns) p ⟨⟩ q) (hid : id < p.slots.length)
    (hk : ∀ b, p.slots.length ≤ b → keep b) (hn : ¬ keep id) :
    Retains (· ≠ id) p q ∧ p.slots.length ≤ q.slots.length ∧
      ∃ s, q.slots[id]? = some s ∧ s.code.isSome = true ∧ LoweredAll keep q 0 ns s.marked := by
  obtain ⟨f, p₁, hf, h⟩ := gives_bind.mp h
  obtain rfl := gives_fill h
  have hs := nodes_lowered ns hf
  have hfill {ok : Nat → Prop} (hok : ¬ ok id) : Retains ok p₁ (p₁.fill id f.toSlot) :=
    retains_fill _ fun t hb _ => absurd hb hok
  refine ⟨(hs.le.retains _).trans (hfill (by simp)), ?_, f.toSlot, ?_, rfl, ?_⟩
  · simpa [fill] using hs.le.slots.length_le
  · have : id < p₁.slots.length := Nat.lt_of_lt_of_le hid hs.le.slots.length_le
    simp [fill, this]
  · rw [Fragment.marked_toSlot]
    exact hs.code hk (hfill hn)

/-- A program that is compiled goes to a new block behind the others. -/
theorem compile_eq (p : Program) (ns : List Node) :
    p.compile ns = match result (into p.slots.length ns) p.reserve.2 with
      | (.ok _, q) => (.ok p.slots.length, q)
      | (.error e, q) => (.error e, q) := by
  change result (modifyGet (·.reserve) >>= fun id : Nat => into id ns >>= fun _ => pure id) p = _
  rw [result_bind]
  change result (into p.slots.length ns >>= fun _ => pure p.slots.length) p.reserve.2 = _
  rw [result_bind]
  rcases result (into p.slots.length ns) p.reserve.2 with ⟨_ | _, q⟩ <;> rfl

structure Invariant (I : Program → Prop) : Prop where
  intern {p : Program} (name : Text) : I p → I (p.intern name).2
  literal {p : Program} {v : Value} : isLiteral v = true → I p → I (p.addConst v).2
  proto {p : Program} (f : Proto) : I p → I (p.addConst (.proto f)).2
  reserve {p : Program} : I p → I p.reserve.2
  fill {p : Program} (id : Nat) {f : Fragment} : f.Marks → I p → I (p.fill id f.toSlot)

namespace Invariant

theorem nodes (h : Invariant I) (d : Nat) (ns : List Node) : Keeps I (nodes d ns) := by
  have constant {v : Value} (hv : ∀ {p}, I p → I (p.addConst v).2) : Keeps I (constant v) :=
    Keeps.bind (fun _ => hv) fun _ => keeps_pure _
  refine (keeps_hereditary (fun name _ => h.intern name) (fun v hv => constant (h.literal hv))
    fun d _ _ hloads hbody => ?_).nodes (fun _ _ => trivial) d
  have reserve : Keeps I (modifyGet (·.reserve) : Lower Nat) := fun _ => h.reserve
  have fill {id : Nat} {b : Fragment} (hb : b.Marks) : Keeps I (modify (·.fill id b.toSlot)) := fun _ => h.fill id hb
  exact hloads.bind fun _ => reserve.bind fun _ => (constant (h.proto _)).bind fun _ =>
    hbody.bind fun hb => (fill (nodes_lowered _ hb).marks).bind fun _ => keeps_pure _

theorem into (h : Invariant I) (id : Nat) (ns : List Node) : Keeps I (into id ns) :=
  (h.nodes 0 ns).bind fun hf _ => h.fill id (nodes_lowered ns hf).marks

theorem compile (h : Invariant I) (hp : I p) (ns : List Node) : I (p.compile ns).2 := by
  have hq := h.into p.slots.length ns p.reserve.2 (h.reserve hp)
  rw [compile_eq]
  rcases e : result (Lower.into p.slots.length ns) p.reserve.2 with ⟨_ | _, q⟩ <;> rwa [e] at hq

theorem recompile (h : Invariant I) (hp : I p) (id : Int) (ns : List Node) : I (p.recompile id ns).2 := by
  unfold Program.recompile
  split
  · split
    · exact h.into _ ns p hp
    · exact hp
  · exact hp

end Invariant

theorem compile_entry (h : p.compile ns = (.ok id, q)) : id = p.slots.length ∧ id < q.slots.length := by
  rw [compile_eq] at h
  rcases hr : result (into p.slots.length ns) p.reserve.2 with ⟨_ | _, r⟩
  · rw [hr] at h
    cases h
  · rw [hr] at h
    cases h
    have hlen : p.reserve.2.slots.length = p.slots.length + 1 := by simp [reserve]
    have behind : ∀ b, p.reserve.2.slots.length ≤ b → p.slots.length < b := by
      intro b hb
      omega
    have grown := (into_lowered hr (by omega) behind (Nat.lt_irrefl _)).2.1
    exact ⟨rfl, by omega⟩

/-- A program without holes and foreign operators can be compiled. Its code stands in a block behind
    the others, and these are as before. -/
theorem compile_lowered (hw : Node.everyNode Node.isWhole ns = true)
    (hk : ∀ b, p.slots.length < b → keep b) (hn : ¬ keep p.slots.length) :
    ∃ q, p.compile ns = (.ok p.slots.length, q) ∧ p.Le q ∧
      ∃ s, q.slots[p.slots.length]? = some s ∧ s.code.isSome = true ∧ LoweredAll keep q 0 ns s.marked := by
  obtain ⟨⟨⟩, q, hq⟩ := into_succeeds p.slots.length hw p.reserve.2
  have hlen : p.reserve.2.slots.length = p.slots.length + 1 := by simp [reserve]
  have hle : p.Le q := by
    have hres : p.Le p.reserve.2 := ⟨prefix_rfl, prefix_rfl, prefix_append _ _⟩
    have hgrows : Keeps p.Le (into p.slots.length ns) := into_grows (Nat.le_refl _)
    have := hgrows p.reserve.2 hres
    rwa [hq] at this
  refine ⟨q, ?_, hle, ?_⟩
  · rw [compile_eq, hq]
  · exact (into_lowered hq (by omega) (fun b hb => hk b (by omega)) hn).2.2

end

end Lower

end Scriptlet

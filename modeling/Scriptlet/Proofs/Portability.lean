/-
  Scriptlet.Proofs.Portability — an image does what its source does.

  A machine that loads a source text has numbered the functions of the host before the names of the
  program; a machine made from an image numbers them the other way round. The tables end up with the
  same names, so there is a translation between the numbers (`Idents.translate`), and one machine is
  the other one under it (`Program.Paired.renamed`). Trees that were parsed can be stored if their
  literals can (`Parse.source_portable`): names have letters only, and no literal is not a number.
-/

import Mathlib.Logic.Equiv.Basic
import Scriptlet.Proofs.Lexing
import Scriptlet.Proofs.Numbering

namespace Scriptlet

/-! ## Tables with the same names -/

variable {name : Text}

namespace Idents

/-- The number that the name with a number has in another table. Numbers that were not given out stay. -/
def translate (t u : Idents) : Int → Int
  | .ofNat n => ((t.names[n]?).map u.number).getD n
  | .negSucc n => .negSucc n

section

variable {t u : Idents}

theorem exists_lookup? (h : name ∈ t.names) : ∃ id, t.lookup? name = some id := by
  obtain ⟨id, hid⟩ := List.mem_iff_getElem?.mp h
  exact ⟨id, lookup?_eq_some.mpr hid⟩

theorem mem_of_lookup? {id : Nat} (h : t.lookup? name = some id) : name ∈ t.names :=
  List.mem_of_getElem? (lookup?_eq_some.mp h)

theorem translate_of_lookup? {i j : Nat} (hi : t.lookup? name = some i) (hj : u.lookup? name = some j) :
    t.translate u i = j := by
  change ((t.names[i]?).map u.number).getD i = j
  rw [lookup?_eq_some.mp hi]
  exact agrees_number u name j hj

theorem translate_of_le {n : Nat} (h : t.names.length ≤ n) : t.translate u n = n := by
  change ((t.names[n]?).map u.number).getD n = n
  rw [List.getElem?_eq_none h]
  rfl

variable (h : ∀ name, name ∈ t.names ↔ name ∈ u.names)

include h

theorem length_of_same : t.names.length = u.names.length :=
  ((List.perm_ext_iff_of_nodup t.nodup u.nodup).mpr h).length_eq

/-- A number stays as it is in both tables, or both have a number for one name. -/
theorem translate_cases (id : Int) : t.translate u id = id ∧ u.translate t id = id ∧ t.name id = [] ∧ u.name id = [] ∨
    ∃ name i j, id = (i : Nat) ∧ t.lookup? name = some i ∧ u.lookup? name = some j := by
  cases id with
  | negSucc n => exact .inl ⟨rfl, rfl, rfl, rfl⟩
  | ofNat n =>
    have hlen := length_of_same h
    by_cases hn : n < t.names.length
    · have hi : t.lookup? t.names[n] = some n := lookup?_eq_some.mpr (List.getElem?_eq_getElem hn)
      obtain ⟨j, hj⟩ := exists_lookup? ((h _).mp (mem_of_lookup? hi))
      exact .inr ⟨_, n, j, rfl, hi, hj⟩
    · have hle : t.names.length ≤ n := Nat.le_of_not_lt hn
      refine .inl ⟨translate_of_le hle, translate_of_le (hlen ▸ hle), ?_, ?_⟩
      · change t.names.getD n [] = []
        rw [List.getD_eq_getElem?_getD, List.getElem?_eq_none hle]
        rfl
      · change u.names.getD n [] = []
        rw [List.getD_eq_getElem?_getD, List.getElem?_eq_none (hlen ▸ hle)]
        rfl

theorem leftInverse_translate : Function.LeftInverse (u.translate t) (t.translate u) := by
  intro id
  rcases translate_cases h id with ⟨ht, hu, -⟩ | ⟨name, i, j, rfl, hi, hj⟩
  · rw [ht, hu]
  · rw [translate_of_lookup? hi hj, translate_of_lookup? hj hi]

theorem bijective_translate : Function.Bijective (t.translate u) :=
  Function.bijective_iff_has_inverse.mpr
    ⟨u.translate t, leftInverse_translate h, leftInverse_translate fun name => (h name).symm⟩

theorem name_translate (id : Int) : u.name (t.translate u id) = t.name id := by
  rcases translate_cases h id with ⟨ht, -, hn, hm⟩ | ⟨name, i, j, rfl, hi, hj⟩
  · rw [ht, hn, hm]
  · rw [translate_of_lookup? hi hj, name_of_lookup? hi, name_of_lookup? hj]

/-- Translated numbers agree with the other table. -/
theorem agrees_translate : u.Agrees fun name => t.translate u (t.number name) := by
  intro name j hj
  obtain ⟨i, hi⟩ := exists_lookup? ((h name).mpr (mem_of_lookup? hj))
  change t.translate u (t.number name) = j
  rw [agrees_number t name i hi]
  exact translate_of_lookup? hi hj

end

end Idents

/-! ## Programs under the other numbers -/

/-- Translates the numbers of identifiers from one table to another, and swaps two names of units. -/
def Renaming.between (t u : Idents) (a b : Text) : Renaming := { ident := t.translate u, unit := Equiv.swap a b }

/-- Constants have no numbers of identifiers in them. -/
theorem Value.rename_storable {ρ : Renaming} (hb : ρ.block = id) {v : Value} (h : v.isStorable = true) : v.rename ρ = v := by
  cases v with
  | proto p =>
    change Value.proto { p with block := ρ.block p.block } = .proto p
    rw [hb]
    rfl
  | none | int _ | float _ | str _ | bool _ => rfl
  | _ => cases h

section

variable {t u : Idents} {a b : Text}

theorem Instr.Alike.rename_eq {i j : Instr} (h : Instr.Alike t u i j) : i.rename (.between t u a b) = j := by
  cases h with
  | named ho hi hj =>
    unfold Instr.rename
    rw [if_pos ho]
    exact congrArg _ (Idents.translate_of_lookup? hi hj)
  | plain arg ho =>
    unfold Instr.rename
    rw [if_neg (by rw [ho]; exact Bool.false_ne_true)]

theorem Slot.Alike.rename_eq {s s' : Slot} (h : Slot.Alike t u s s') :
    (s.code.getD []).map (Instr.rename (.between t u a b)) = s'.code.getD [] := by
  have hcode := h.code
  generalize s.code.getD [] = c at hcode ⊢
  generalize s'.code.getD [] = c' at hcode ⊢
  induction hcode with
  | nil => rfl
  | cons hi _ ih => rw [List.map_cons, ih, hi.rename_eq]

end

namespace Program

section

variable {base : List Text} {p q : Program}

/-- A block is in both programs or in none. -/
theorem Paired.slot (h : p.Paired base q) (id : Int) : p.slot? id = none ∧ q.slot? id = none ∨
    ∃ s s', p.slot? id = some s ∧ q.slot? id = some s' ∧ Slot.Alike p.idents q.idents s s' := by
  cases id with
  | negSucc n => exact .inl ⟨rfl, rfl⟩
  | ofNat n =>
    have hlen := h.slots.length_eq
    by_cases hn : n < p.slots.length
    · have hn' : n < q.slots.length := hlen ▸ hn
      exact .inr ⟨_, _, List.getElem?_eq_getElem hn, List.getElem?_eq_getElem hn', (List.forall₂_iff_get.mp h.slots).2 n hn hn'⟩
    · have hle : p.slots.length ≤ n := Nat.le_of_not_lt hn
      exact .inl ⟨List.getElem?_eq_none hle, List.getElem?_eq_none (hlen ▸ hle)⟩

theorem Paired.longest (h : p.Paired base q) : q.longest = p.longest := by
  have fold {ss ss' : List Slot} (hs : List.Forall₂ (Slot.Alike p.idents q.idents) ss ss') : ∀ n,
      ss'.foldl (fun n s => max n (s.code.getD []).length) n = ss.foldl (fun n s => max n (s.code.getD []).length) n := by
    induction hs with
    | nil => exact fun n => rfl
    | cons hs _ ih =>
      intro n
      rw [List.foldl_cons, List.foldl_cons, ih, hs.code.length_eq]
  exact fold h.slots 0

/-- The second program, with the names that the first has beyond it. -/
def withNames (q : Program) (base : List Text) : Program := { q with idents := q.idents.internAll base }

theorem Paired.same (h : p.Paired base q) (name : Text) :
    name ∈ p.idents.names ↔ name ∈ (q.withNames base).idents.names := by
  rw [h.names, show (q.withNames base).idents = q.idents.internAll base from rfl, Idents.mem_internAll, or_comm]

theorem Paired.renamed (h : p.Paired base q) (a b : Text) :
    p.Renamed (.between p.idents (q.withNames base).idents a b) (q.withNames base) := by
  have alike {s s' : Slot} (hs : Slot.Alike p.idents q.idents s s') : Slot.Alike p.idents (q.withNames base).idents s s' :=
    hs.mono List.prefix_rfl (Idents.names_internAll _ base)
  have relabels : p.Relabels (.between p.idents (q.withNames base).idents a b) (q.withNames base) :=
    ⟨(Idents.bijective_translate h.same).injective, (Equiv.swap a b).injective, rfl, Idents.name_translate h.same⟩
  refine ⟨relabels, fun id => ?_, fun id => ?_, fun id pc => ?_, h.longest⟩
  · change nth? q.consts id = (nth? p.consts id).map _
    rw [← h.consts]
    cases hv : nth? q.consts id with
    | none => rfl
    | some v => exact congrArg some (Value.rename_storable rfl (h.storable v (mem_of_nth? hv))).symm
  · change (q.slot? id).map _ = ((p.slot? id).map _).map _
    rcases h.slot id with ⟨hp, hq⟩ | ⟨s, s', hp, hq, hs⟩
    · rw [hp, hq]
      rfl
    · rw [hp, hq]
      exact congrArg some (alike hs).rename_eq.symm
  · change (((q.slot? id).bind (·.sites)).getD []).any _ = (((p.slot? id).bind (·.sites)).getD []).any _
    rcases h.slot id with ⟨hp, hq⟩ | ⟨s, s', hp, hq, hs⟩
    · rw [hp, hq]
    · rw [hp, hq, Option.bind_some, Option.bind_some, hs.sites]

end

end Program

/-! ## Source texts -/

namespace Node

/-- Names are text, and literals are numbers, in every program that was parsed. -/
def isLexed : Node → Bool
  | .ident name => name.isValid
  | .float x => !x.isNaN
  | _ => true

/-- The node is no string that is not text, and no negative zero. -/
def isPreserved : Node → Bool
  | .str s => s.isValid
  | .float x => !(x.isZero && x.isNegative)
  | _ => true

theorem isParsed_portable {n : Node} (h : n.isParsed isLexed = true) (hp : n.isPreserved = true) :
    n.isParsed isPortable = true := by
  simp only [isParsed, Bool.and_eq_true] at h ⊢
  refine ⟨h.1, ?_⟩
  have hl := h.2
  cases n with
  | int n => rfl
  | float x =>
    simp only [leaves, List.all_cons, List.all_nil, Bool.and_true] at hl ⊢
    exact Bool.and_eq_true_iff.mpr ⟨hl, hp⟩
  | str s =>
    simp only [leaves, List.all_cons, List.all_nil, Bool.and_true]
    exact hp
  | _ =>
    simp only [leaves, List.all_map] at hl ⊢
    exact hl

end Node

namespace Parse

theorem fine_tokenize (src : Text) : Fine Node.isLexed (Token.tokenize src) := by
  intro t ht v hv
  unfold literal? at hv
  split at hv
  · rename_i hk
    cases hv
    exact Text.isValid_of_narrow fun b hb => Text.narrow_of_isLetter (Token.ident_letters ht hk b hb)
  · cases hv
    rfl
  · cases hv
    rfl
  · rename_i x hk hx
    cases hv
    exact congrArg (!·) (Token.decimal_number ht hk hx).1
  · cases hv

/-- What was parsed can be stored, if its strings are text and it has no negative zero. -/
theorem source_portable {src : Text} {ns : List Node} (h : source src = .ok ns)
    (hl : Node.everyNode Node.isPreserved ns = true) : Node.everyNode (Node.isParsed Node.isPortable) ns = true :=
  Node.everyNode_of_both (fun _ => Node.isParsed_portable) ns (source_parsed (fine_tokenize src) h) hl

end Parse

/-! ## Machines -/

namespace Machine

section

variable {base : List Text} {p q : Program} {o : Options} {ids : Text → Int}

def ready (p : Program) (o : Options) (ids : Text → Int) (name : Text) (block : Int) : Machine :=
  { program := p, fallback := o.fallback, limit := o.limit, scopes := .initial ids o.hostNames
    units := [⟨name, block, []⟩]
    frames := [{ name := name, unit := name, block := block, scope := globals }] }

theorem load_ready {src : Text} {ns : List Node} {block : Nat} (hparse : Parse.source src = .ok ns)
    (hcompile : ({ idents := Idents.empty.internAll (importName :: o.hostNames) } : Program).compile ns = (.ok block, p))
    (hids : (Idents.empty.internAll (importName :: o.hostNames)).Agrees ids) :
    (new o).load name src = (.ok (), ready p o ids name block) := by
  have fresh : new o = { program := { idents := Idents.empty.internAll (importName :: o.hostNames) }
                         fallback := o.fallback, limit := o.limit, scopes := .initial ids o.hostNames } :=
    ofProgram_eq hids
  rw [fresh]
  simp only [load, hparse, loadNodes, unit?, hcompile]
  rfl

theorem ofImage_ready {i : Image} (h : i.toProgram = .ok q)
    (hids : (q.withNames (importName :: o.hostNames)).idents.Agrees ids) :
    ofImage i o = .ok (ready (q.withNames (importName :: o.hostNames)) o ids imageUnit i.entry) := by
  unfold ofImage
  rw [h]
  change Except.ok ({ ofProgram q o with units := [⟨imageUnit, i.entry, []⟩] }.enter imageUnit i.entry) = _
  rw [ofProgram_eq hids]
  rfl

theorem ready_rename {ρ : Renaming} (hρ : ρ.Faithful) (name : Text) (block : Int) :
    (ready p o ids name block).rename ρ q = ready q o (fun name => ρ.ident (ids name)) (ρ.unit name) (ρ.block block) := by
  unfold ready rename
  rw [Scopes.rename_initial hρ]
  rfl

/-- An image that was built from a source text can be stored and comes back, unless it is too long. The machine made
    from it and the machine that loads the text, driven in the same way with answers that are plain data, show the
    host the same actions and errors, up to the numbers of identifiers, which one bijection translates. -/
theorem image_acts_as_source (o : Options) (name src : Text) {ns : List Node} (hparse : Parse.source src = .ok ns)
    (hliterals : Node.everyNode Node.isPreserved ns = true) :
    ∃ q i m m' ρ, (new o).load name src = (.ok (), m) ∧
      ({} : Program).compile ns = (.ok 0, q) ∧ Image.ofProgram q 0 = .ok i ∧
      (i.toItem.isWithinLimits = true → Image.decode i.encode = .ok i) ∧ ofImage i o = .ok m' ∧
      Function.Bijective ρ.ident ∧ ρ.block = id ∧ (∀ id, m'.name (ρ.ident id) = m.name id) ∧
      ∀ moves, (∀ a ∈ moves, a.isPlain = true) → m'.drive moves = (m.drive moves).map (Sight.rename ρ) := by
  let base := importName :: o.hostNames
  let p₀ : Program := { idents := Idents.empty.internAll base }
  have start : p₀.Paired base {} := by
    refine ⟨fun name => ?_, rfl, .nil, fun _ h => (List.not_mem_nil h).elim, fun _ h => (List.not_mem_nil h).elim⟩
    exact Idents.mem_internAll.trans or_comm
  have portable := Parse.source_portable hparse hliterals
  obtain ⟨p, q, hp, hq, hle, hpq⟩ := Lower.compile_pairs start portable
  have hentry : 0 < q.slots.length := (Lower.compile_entry hq).2
  obtain ⟨i, hi, he, hdecode, hprogram⟩ := Image.stored hpq.isStorable hentry
  let ρ := Renaming.between p.idents (q.withNames base).idents name imageUnit
  have hρ := hpq.renamed name imageUnit
  have hload : (new o).load name src = (.ok (), ready p o p.idents.number name 0) :=
    load_ready hparse hp ((Idents.agrees_number p.idents).mono hle)
  have himage : ofImage i o = .ok ((ready p o p.idents.number name 0).rename ρ (q.withNames base)) := by
    rw [ready_rename hρ.faithful, show ρ.unit name = imageUnit from Equiv.swap_apply_left name imageUnit,
      ofImage_ready hprogram (Idents.agrees_translate hpq.same), he]
    rfl
  exact ⟨q, i, _, _, ρ, hload, hq, hi, hdecode, himage, Idents.bijective_translate hpq.same, rfl, hρ.name,
    fun moves hmoves => drive_rename hρ hmoves⟩

end

/-- Declares a type and a function, which makes an object and hands one of its fields to the host. -/
def rally : Text :=
  "type Ball \x7b x: Int \x7d serve = n => \x7b ball = Ball \x7b x: n \x7d return hit(ball.x + 1, \"net\") \x7d score = serve(2)"

def rallyOptions : Options := { hostNames := ["hit"] }

/-- Runs to the call of the host, answers 7 and runs to the end. -/
def rallyMoves : List Move := [.step false, .drain, .resume (some (.int 7)), .step false, .step false, .drain]

/-- The text can be parsed and stored, and its image is short enough. -/
def rallyFits : Bool :=
  match Parse.source rally with
  | .error _ => false
  | .ok ns => Node.everyNode Node.isPreserved ns && match Image.ofProgram (({} : Program).compile ns).2 0 with
    | .error _ => false
    | .ok i => i.toItem.isWithinLimits

theorem image_acts_as_source_rally :
    ∃ ns i m m' ρ, Parse.source rally = .ok ns ∧ Node.everyNode Node.isPreserved ns = true ∧
      (new rallyOptions).load "main" rally = (.ok (), m) ∧ Image.decode i.encode = .ok i ∧
      ofImage i rallyOptions = .ok m' ∧ Function.Bijective ρ.ident ∧
      m'.drive rallyMoves = (m.drive rallyMoves).map (Sight.rename ρ) ∧
      ((m.drive rallyMoves).flatMap (·.2)).map Action.render =
        ["Construct\x7b1 Ball\x7d", "StoreField\x7b1 x 2\x7d", "LoadField\x7b1 x\x7d", "Call\x7bhit(3, \"net\")\x7d",
          "Quit"] := by
  have fits : rallyFits = true := by decide +kernel
  have shown : (((((new rallyOptions).load "main" rally).2.drive rallyMoves).flatMap (·.2)).map Action.render) =
      ["Construct\x7b1 Ball\x7d", "StoreField\x7b1 x 2\x7d", "LoadField\x7b1 x\x7d", "Call\x7bhit(3, \"net\")\x7d",
        "Quit"] := by decide +kernel
  unfold rallyFits at fits
  cases hns : Parse.source rally with
  | error e =>
    rw [hns] at fits
    cases fits
  | ok ns =>
    simp only [hns, Bool.and_eq_true] at fits
    obtain ⟨preserved, limited⟩ := fits
    obtain ⟨q, i, m, m', ρ, hload, hq, hi, hdecode, himage, hρ, -, -, hdrive⟩ :=
      image_acts_as_source rallyOptions "main" rally hns preserved
    simp only [hq, hi] at limited
    rw [hload] at shown
    have plain : ∀ a ∈ rallyMoves, a.isPlain = true := by decide
    exact ⟨ns, i, m, m', ρ, rfl, preserved, hload, hdecode limited, himage, hρ, hdrive rallyMoves plain, shown⟩

end Machine

end Scriptlet

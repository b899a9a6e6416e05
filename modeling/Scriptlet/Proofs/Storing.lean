/-
  Scriptlet.Proofs.Storing — programs come back from their images.

  Every part of an image is read from the items it is written as: texts that are valid, numbers within
  the limits, lists and records of them. A program whose names and texts are valid, whose floats are
  numbers other than -0.0, and whose constructor sites are in order (`Program.IsStorable`) has an image,
  the image is decoded from its bytes, and its program is the program (`Image.stored`).
-/

import Scriptlet.Image.Cbor
import Scriptlet.Proofs.Items
import Scriptlet.Proofs.Starting

namespace Scriptlet

open List (mem_cons_self mem_cons_of_mem map_cons map_nil map_map)

/-! ## Texts -/

namespace Text

/-- Texts of characters that take one byte each are valid. -/
theorem isValid_of_narrow {t : Text} (h : ∀ b ∈ t, b < 0x80) : t.isValid = true := by
  unfold isValid pieces
  induction t with
  | nil => rfl
  | cons b t ih =>
    have hb : b < 0x80 := h b mem_cons_self
    have hfront : front? (b :: t) = some (Char.ofNat b.toNat, 1) := if_pos hb
    simp only [piecesFrom, hfront, List.all_cons, Piece.isChar, Bool.true_and]
    exact ih fun c hc => h c (mem_cons_of_mem b hc)

end Text

/-- Fingerprints consist of digits and letters. -/
theorem Block.isValid_fingerprint (b : Block) : b.fingerprint.isValid = true := by
  have hhex : ∀ n < 256, (Text.hex 2 n).all (· < 0x80) = true := by decide +kernel
  have hstart : (Text.ofString "v1_").all (· < 0x80) = true := by decide +kernel
  refine Text.isValid_of_narrow fun c hc => ?_
  rcases List.mem_append.mp hc with hc | hc
  · simpa using List.all_eq_true.mp hstart c hc
  · obtain ⟨d, -, hd⟩ := List.mem_flatMap.mp hc
    simpa using List.all_eq_true.mp (hhex d.toNat d.toNat_lt) c hd

variable {limit : Option Nat}

namespace Cbor

/-! ## Data -/

variable {depth : Nat}

namespace Item

theorem toByte?_uint (k : UInt8) : (Item.uint k.toNat).toByte? = some k := by
  have hk : k.toNat < 256 := k.toNat_lt
  have hi : toInt? 0 255 (.uint k.toNat) = some k.toNat := by
    simp [toInt?, orNull, isNull, number?]
    omega
  simp [toByte?, hi]

theorem isNull_ofInt (n : Int) : (ofInt n).isNull = false := by cases n <;> rfl

theorem number?_ofInt (n : Int) : (ofInt n).number? = some n := by cases n <;> rfl

/-- A number within the limits is one of 64 bits. -/
theorem toInt64?_ofInt {n : Int} (h : (ofInt n).isWithin limit = true) : (ofInt n).toInt64? = some n := by
  have hr : (decide (-2 ^ 63 ≤ n) && decide (n ≤ 2 ^ 63 - 1)) = true := by
    rw [Bool.and_eq_true, decide_eq_true_eq, decide_eq_true_eq]
    cases n with
    | ofNat n =>
      have hn : n < lengthLimit := of_decide_eq_true h
      unfold lengthLimit at hn
      rw [Int.ofNat_eq_natCast]
      omega
    | negSucc n =>
      have hn : n < lengthLimit := of_decide_eq_true h
      unfold lengthLimit at hn
      omega
  rw [toInt64?, toInt?, orNull, isNull_ofInt, if_neg Bool.false_ne_true, number?_ofInt]
  exact if_pos hr

theorem toText?_ofText (t : Text) : (ofText t).toText? = if t.isValid then some t else none := by
  simp [ofText, toText?, orNull, isNull]

variable {α : Type}

theorem mapM_map {β : Type} {f : β → Option α} {g : α → β} {ok : α → Bool} {l : List α}
    (h : ∀ a ∈ l, f (g a) = if ok a then some a else none) : (l.map g).mapM f = if l.all ok then some l else none := by
  induction l with
  | nil => rfl
  | cons a l ih =>
    have ha := h a mem_cons_self
    have hl := ih fun b hb => h b (mem_cons_of_mem a hb)
    rw [map_cons, List.mapM_cons, ha, hl, List.all_cons]
    cases ok a <;> cases l.all ok <;> rfl

/-- A list is read if all of its items are. -/
theorem toList?_ofList {f : Item → Option α} {g : α → Item} {ok : α → Bool} {l : Option (List α)}
    (h : ∀ a ∈ l.getD [], f (g a) = if ok a then some a else none) :
    (ofList g l).toList? f = if (l.getD []).all ok then some l else none := by
  cases l with
  | none => rfl
  | some l =>
    have hl := mapM_map (l := l) h
    simp only [ofList, toList?, orNull, isNull, hl, Option.getD_some]
    by_cases hok : l.all ok = true
    · rw [if_pos hok, if_pos hok]
      rfl
    · rw [if_neg hok, if_neg hok]
      rfl

theorem toList?_ofList_some {f : Item → Option α} {g : α → Item} {l : Option (List α)}
    (h : ∀ a ∈ l.getD [], f (g a) = some a) : (ofList g l).toList? f = some l := by
  have hl : (ofList g l).toList? f = if (l.getD []).all (fun _ => true) then some l else none := toList?_ofList h
  rwa [List.all_eq_true.mpr fun _ _ => rfl] at hl

theorem areWithin_iff {is : List Item} : areWithin limit is = true ↔ ∀ i ∈ is, i.isWithin limit = true := by
  induction is with
  | nil => simp [areWithin]
  | cons i is ih => simp [areWithin, ih]

theorem areCanonical_iff {is : List Item} : areCanonical depth is = true ↔ ∀ i ∈ is, i.isCanonical depth = true := by
  induction is with
  | nil => simp [areCanonical]
  | cons i is ih => simp [areCanonical, ih]

/-- The items of a list within the limits are within them. -/
theorem isWithin_ofList {g : α → Item} {l : Option (List α)} (h : (ofList g l).isWithin limit = true) :
    ∀ a ∈ l.getD [], (g a).isWithin limit = true := by
  cases l with
  | none => simp
  | some l =>
    simp only [ofList, isWithin, Bool.and_eq_true, areWithin_iff, List.mem_map] at h
    exact fun a ha => h.2 _ ⟨a, ha, rfl⟩

theorem isCanonical_ofList {g : α → Item} {l : Option (List α)}
    (h : ∀ a ∈ l.getD [], (g a).isCanonical depth = true) : (ofList g l).isCanonical (depth + 1) = true := by
  cases l with
  | none => rfl
  | some l =>
    simp only [ofList, isCanonical, Bool.and_eq_true, areCanonical_iff, List.mem_map]
    refine ⟨by simp, ?_⟩
    rintro _ ⟨a, ha, rfl⟩
    exact h a ha

theorem isCanonical_ofInt (depth : Nat) (n : Int) : (ofInt n).isCanonical depth = true := by cases n <;> rfl

end Item

/-! ## Records -/

namespace Record

/-- A field is passed over if it has another key. -/
theorem give?_append {fits : Key → Bool} {v : Item} {before fs : Fields} (h : ∀ f ∈ before, fits f.1 = false) :
    give? fits v (before ++ fs) = (give? fits v fs).map (before ++ ·) := by
  induction before with
  | nil => simp
  | cons f before ih =>
    obtain ⟨k, found⟩ := f
    have hk : fits k = false := h _ mem_cons_self
    rw [List.cons_append, give?, hk, Bool.and_false, if_neg Bool.false_ne_true,
      ih fun g hg => h g (mem_cons_of_mem _ hg), Option.map_map]
    rfl

/-- The entries of a record with numbered fields, of which some are left out. -/
def entries (l : List (Nat × Option Item)) : List (Item × Item) :=
  l.flatMap fun f => (f.2.map fun v => (Item.uint f.1, v)).toList

def keyOf (n : Nat) : Key := .number (Int64.ofInt n)

variable {l : List (Nat × Option Item)}

/-- Fields with different numbers are read from their entries. -/
theorem read?_entries (h : (l.map fun f => keyOf f.1).Nodup) :
    read? (l.map fun f => keyOf f.1) (.map (entries l)) = some (l.map fun f => f.2.getD .null) := by
  have fold (done todo : List (Nat × Option Item)) (h : ((done ++ todo).map fun f => keyOf f.1).Nodup) :
      (entries todo).foldlM (fun fs (e : Item × Item) => enter fs e.1 e.2)
          ((done.map fun f => (keyOf f.1, f.2)) ++ todo.map fun f => (keyOf f.1, none))
        = some ((done ++ todo).map fun f => (keyOf f.1, f.2)) := by
    induction todo generalizing done with
    | nil => simp [entries]
    | cons f todo ih =>
      obtain ⟨n, v⟩ := f
      have step := ih (done ++ [(n, v)]) (by simpa using h)
      have happ : done ++ [(n, v)] ++ todo = done ++ (n, v) :: todo := by simp
      rw [happ] at step
      rw [← step]
      cases v with
      | none => simp [entries]
      | some v =>
        have hother : ∀ g ∈ done.map fun f => (keyOf f.1, f.2), (g.1 == keyOf n) = false := by
          intro g hg
          obtain ⟨x, hx, rfl⟩ := List.mem_map.mp hg
          rw [beq_eq_false_iff_ne]
          intro e
          rw [List.map_append, List.nodup_append] at h
          exact h.2.2 _ (List.mem_map_of_mem (f := fun f : Nat × Option Item => keyOf f.1) hx) _
            (by simp) e
        have hgive : give? (· == keyOf n) v ((done.map fun f => (keyOf f.1, f.2)) ++ (keyOf n, none)
              :: todo.map fun f => (keyOf f.1, none))
            = some ((done.map fun f => (keyOf f.1, f.2)) ++ (keyOf n, some v)
              :: todo.map fun f => (keyOf f.1, none)) := by
          rw [give?_append hother]
          simp [give?]
        have hentries : entries ((n, some v) :: todo) = (Item.uint n, v) :: entries todo := by simp [entries]
        rw [hentries, List.foldlM_cons]
        have henter : enter ((done.map fun f => (keyOf f.1, f.2)) ++ ((n, some v) :: todo).map fun f => (keyOf f.1, none))
            (.uint n) v = some ((done.map fun f => (keyOf f.1, f.2)) ++ (keyOf n, some v)
              :: todo.map fun f => (keyOf f.1, none)) := by
          unfold enter
          simp only [map_cons]
          exact congrArg (fun o => some (Option.getD o _)) hgive
        rw [henter]
        simp
  have hfold := fold [] l h
  rw [map_nil, List.nil_append, List.nil_append] at hfold
  unfold read?
  simp [Item.orNull, Item.isNull, map_map, Function.comp_def, hfold]

theorem within_entries (h : Item.entriesWithin limit (entries l) = true) {n : Nat} {v : Item} (hf : (n, some v) ∈ l) :
    v.isWithin limit = true := by
  induction l with
  | nil => cases hf
  | cons f l ih =>
    obtain ⟨m, w⟩ := f
    cases w with
    | none =>
      cases hf with
      | tail _ hf => exact ih h hf
    | some w =>
      have hs : entries ((m, some w) :: l) = (.uint m, w) :: entries l := rfl
      rw [hs, Item.entriesWithin, Bool.and_eq_true, Bool.and_eq_true] at h
      cases hf with
      | head => exact h.1.2
      | tail _ hf => exact ih h.2 hf

theorem canonical_entries (h : ∀ f ∈ l, ∀ v, f.2 = some v → v.isCanonical depth = true) :
    Item.entriesCanonical depth (entries l) = true := by
  induction l with
  | nil => rfl
  | cons f l ih =>
    obtain ⟨m, w⟩ := f
    have hl := ih fun g hg => h g (mem_cons_of_mem _ hg)
    cases w with
    | none => exact hl
    | some w =>
      have hs : entries ((m, some w) :: l) = (.uint m, w) :: entries l := rfl
      rw [hs, Item.entriesCanonical, hl, h _ mem_cons_self w rfl]
      rfl

/-- Two named fields are read from their entries. -/
theorem read?_names {a b : Text} (ha : a.isValid = true) (hb : b.isValid = true) (v w : Item) :
    read? [.name a, .name b] (.map [(.ofText a, v), (.ofText b, w)]) = some [v, w] := by
  have htext : (Item.text [a]).toText? = some a := (Item.toText?_ofText a).trans (if_pos ha)
  have htext' : (Item.text [b]).toText? = some b := (Item.toText?_ofText b).trans (if_pos hb)
  simp [read?, Item.orNull, Item.isNull, Item.ofText, enter, htext, htext', give?, Key.text]

end Record

end Cbor

open Cbor

/-! ## Instructions and constants -/

theorem Op.ofCode_code (o : Op) : Op.ofCode o.code = o := by
  cases o with
  | unknown c h => simp [Op.code, Op.ofCode, h]
  | _ => rfl

namespace Instr

theorem ofItem?_toItem {i : Instr} (h : i.toItem.isWithin limit = true) : ofItem? i.toItem = some i := by
  have harg : (Item.ofInt i.arg).isWithin limit = true := by
    simp only [toItem, Item.isWithin, Item.entriesWithin, Bool.and_eq_true] at h
    exact h.2.2.1.2
  have hread : Record.read? [.name "Op", .name "Arg"] i.toItem = some [.uint i.op.code.toNat, .ofInt i.arg] :=
    Record.read?_names (by decide +kernel) (by decide +kernel) _ _
  unfold ofItem?
  simp [hread, Item.toByte?_uint, Item.toInt64?_ofInt harg, Op.ofCode_code]

end Instr

namespace Const

/-- An entry that is left out when it is zero. -/
theorem entry_eq (key : Nat) (isZero : Bool) (v : Item) :
    entry key isZero v = ((if isZero then none else some v).map fun v => (Item.uint key, v)).toList := by
  cases isZero <;> rfl

def fields : Const → List (Nat × Option Item)
  | .mk kind int float str bool items block params =>
    [(1, some (.uint kind.toNat)), (2, if int = 0 then none else some (.ofInt int)),
      (3, if float.isZero then none else some (.float float)), (4, if str.isEmpty then none else some (.ofText str)),
      (5, if bool then some (.ofBool bool) else none), (6, if items.isEmpty then none else some (.array (toItems items))),
      (7, if block = 0 then none else some (.ofInt block)), (8, if params = 0 then none else some (.ofInt params))]

theorem toItem_eq (c : Const) : c.toItem = .map (Record.entries c.fields) := by
  obtain ⟨kind, int, float, str, bool, items, block, params⟩ := c
  rw [toItem]
  cases bool <;> simp [entry_eq, Record.entries, fields]

def str : Const → Text
  | .mk _ _ _ str .. => str

/-- A constant without parts whose number is not changed by being stored. -/
def isSettled : Const → Bool
  | .mk _ _ float _ _ items _ _ =>
    (!float.isZero || decide (float = .zero)) && (!float.isNaN || decide (float = .nan)) && items.isEmpty

/-- A constant without parts that is not changed by being stored. -/
def isLiteral (c : Const) : Bool := c.isSettled && c.str.isValid

section

variable {n : Int} {x : Binary64} {t : Text}

theorem toInt64?_field (h : n ≠ 0 → (Item.ofInt n).isWithin limit = true) :
    ((if n = 0 then none else some (Item.ofInt n)).getD .null).toInt64? = some n := by
  by_cases hn : n = 0
  · subst hn
    rfl
  · rw [if_neg hn]
    exact Item.toInt64?_ofInt (h hn)

theorem toFloat?_field (h : x.isZero = true → x = .zero) :
    ((if x.isZero then none else some (Item.float x)).getD .null).toFloat? = some x := by
  cases hx : x.isZero with
  | true =>
    rw [h hx]
    rfl
  | false => rfl

theorem toText?_field (t : Text) :
    ((if t.isEmpty then none else some (Item.ofText t)).getD .null).toText? = if t.isValid then some t else none := by
  cases t with
  | nil => rfl
  | cons b t => exact Item.toText?_ofText (b :: t)

theorem toBool?_field (b : Bool) :
    ((if b then some (Item.ofBool b) else none).getD .null).toBool? = some b := by cases b <;> rfl

end

/-- A constant is read if its text is valid. -/
theorem ofItem?_toItem {c : Const} (h : c.isSettled = true) (hl : c.toItem.isWithin limit = true) (depth : Nat) :
    ofItem? (depth + 1) c.toItem = if c.str.isValid then some c else none := by
  obtain ⟨kind, int, float, str, bool, items, block, params⟩ := c
  simp only [isSettled, Bool.and_eq_true, Bool.or_eq_true, Bool.not_eq_true', decide_eq_true_eq, List.isEmpty_iff] at h
  obtain ⟨⟨hfloat, -⟩, rfl⟩ := h
  change ofItem? (depth + 1) _ = if str.isValid then _ else _
  have hlimits : Item.entriesWithin limit (Record.entries (fields (.mk kind int float str bool [] block params))) = true := by
    rw [toItem_eq, Item.isWithin, Bool.and_eq_true] at hl
    exact hl.2
  have hfield {n : Nat} {v : Item} (hf : (n, some v) ∈ fields (.mk kind int float str bool [] block params)) :
      v.isWithin limit = true := Record.within_entries hlimits hf
  have hint := toInt64?_field (n := int) fun hn => hfield (n := 2) (by simp [fields, hn])
  have hblock := toInt64?_field (n := block) fun hn => hfield (n := 7) (by simp [fields, hn])
  have hparams := toInt64?_field (n := params) fun hn => hfield (n := 8) (by simp [fields, hn])
  have hzero : float.isZero = true → float = .zero := fun hz => hfloat.resolve_left (by simp [hz])
  have hkeys : [Key.number 1, .number 2, .number 3, .number 4, .number 5, .number 6, .number 7, .number 8]
      = [1, 2, 3, 4, 5, 6, 7, 8].map Record.keyOf := by decide +kernel
  have hdistinct : ([1, 2, 3, 4, 5, 6, 7, 8].map Record.keyOf).Nodup := by decide +kernel
  have hread := Record.read?_entries (l := fields (.mk kind int float str bool [] block params)) hdistinct
  rw [toItem_eq, ofItem?, hkeys]
  have hread' : Record.read? ([1, 2, 3, 4, 5, 6, 7, 8].map Record.keyOf)
      (.map (Record.entries (fields (.mk kind int float str bool [] block params)))) = _ := hread
  rw [hread']
  simp only [fields, map_cons, map_nil, Option.bind_eq_bind, Option.bind_some, Option.getD_some,
    Item.toByte?_uint, hint, hblock, hparams, toFloat?_field hzero, toText?_field, toBool?_field]
  by_cases hvalid : str.isValid = true
  · rw [if_pos hvalid, if_pos hvalid]
    rfl
  · rw [if_neg hvalid, if_neg hvalid]
    rfl

theorem isCanonical_toItem {c : Const} (h : c.isSettled = true) (depth : Nat) : c.toItem.isCanonical (depth + 1) = true := by
  obtain ⟨kind, int, float, str, bool, items, block, params⟩ := c
  simp only [isSettled, Bool.and_eq_true, List.isEmpty_iff] at h
  obtain ⟨⟨-, hnan⟩, rfl⟩ := h
  rw [toItem_eq, Item.isCanonical, Bool.and_eq_true]
  refine ⟨by simp, Record.canonical_entries ?_⟩
  have opt {z : Prop} [Decidable z] {i : Item} (hi : i.isCanonical depth = true) :
      ∀ v, (if z then none else some i) = some v → v.isCanonical depth = true := by
    intro v hv
    split at hv
    · cases hv
    · cases hv
      exact hi
  have hbool : ∀ v, (if bool then some (Item.ofBool bool) else none) = some v → v.isCanonical depth = true := by
    intro v hv
    cases bool <;> cases hv
    rfl
  simp only [fields, List.forall_mem_cons]
  refine ⟨fun v hv => by cases hv; rfl, opt (Item.isCanonical_ofInt depth int), opt ?_, opt rfl, hbool, ?_,
    opt (Item.isCanonical_ofInt depth block), opt (Item.isCanonical_ofInt depth params), fun f hf => by cases hf⟩
  · rw [Item.isCanonical]
    exact hnan
  · intro v hv
    cases hv

end Const

/-! ## Programs -/

def Value.isStorable : Value → Bool
  | .none | .int _ | .bool _ | .proto _ => true
  | .float x => !x.isNaN && !(x.isZero && x.isNegative)
  | .str s => s.isValid
  | _ => false

theorem Binary64.eq_zero {x : Binary64} (hz : x.isZero = true) (hn : x.isNegative = false) : x = .zero := by
  have hm : x.magnitude = 0 := of_decide_eq_true hz
  rw [← x.withSign_magnitude, hm, hn]
  rfl

theorem Const.ofValue_storable {v : Value} (h : v.isStorable = true) :
    ∃ c, ofValue v = .ok c ∧ c.isLiteral = true ∧ c.toValue = .ok v := by
  cases v with
  | none => exact ⟨_, rfl, rfl, rfl⟩
  | int n =>
    refine ⟨_, rfl, rfl, ?_⟩
    change Except.ok (Value.int (Int64.ofInt n.toInt)) = _
    rw [Int64.ofInt_toInt]
  | float x =>
    simp only [Value.isStorable, Bool.and_eq_true, Bool.not_eq_true'] at h
    refine ⟨_, rfl, ?_, rfl⟩
    have hzero : (!x.isZero || decide (x = .zero)) = true := by
      cases hz : x.isZero with
      | false => rfl
      | true =>
        have hn : x.isNegative = false := by simpa [hz] using h.2
        simp [Binary64.eq_zero hz hn]
    rw [isLiteral, isSettled, hzero, h.1]
    rfl
  | str s =>
    have hs : s.isValid = true := h
    refine ⟨_, rfl, ?_, rfl⟩
    rw [isLiteral, str, hs]
    rfl
  | bool b => exact ⟨_, rfl, rfl, rfl⟩
  | proto p => exact ⟨_, rfl, rfl, rfl⟩
  | _ => cases h

structure Slot.IsOrdered (s : Slot) : Prop where
  ascending : (s.sites.getD []).Pairwise (· < ·)
  loads : ∀ k ∈ s.sites.getD [], ((s.code.getD [])[k]?.map (·.op)) = some .loadIdent

structure Program.IsStorable (p : Program) : Prop where
  names : ∀ name ∈ p.idents.names, name.isValid = true
  consts : ∀ v ∈ p.consts, v.isStorable = true
  slots : ∀ s ∈ p.slots, s.IsOrdered

namespace Image

/-! ## Verification -/

theorem verifyFingerprints_ok (n : Nat) (bs : List (Option Block)) :
    verifyFingerprints n bs (bs.map fun b => (b.getD []).fingerprint) = .ok () := by
  induction bs generalizing n with
  | nil => rfl
  | cons b bs ih =>
    rw [map_cons, verifyFingerprints, if_pos rfl]
    exact ih (n + 1)

theorem verifySites_ok (n : Nat) (before : Option Nat) {b : Block} {sites : List Nat}
    (hb : ∀ k ∈ before, ∀ j ∈ sites, k < j) (ha : sites.Pairwise (· < ·))
    (hl : ∀ k ∈ sites, (b[k]?.map (·.op)) = some .loadIdent) :
    verifySites n b (before.map fun (k : Nat) => (k : Int)) (sites.map fun (k : Nat) => (k : Int)) = .ok () := by
  induction sites generalizing before with
  | nil => rfl
  | cons k sites ih =>
    rw [List.pairwise_cons] at ha
    have hfits : siteFits b (before.map fun (k : Nat) => (k : Int)) k = true := by
      have hk := hl k mem_cons_self
      have hbefore : (before.map fun (k : Nat) => (k : Int)).all (· < (k : Int)) = true := by
        cases before with
        | none => rfl
        | some j => simpa using hb j rfl k mem_cons_self
      rw [siteFits, hbefore, Bool.and_true, beq_iff_eq]
      exact hk
    rw [map_cons, verifySites, if_pos hfits]
    have hk : ∀ i ∈ some k, ∀ j ∈ sites, i < j := by
      intro i hi
      cases hi
      exact ha.1
    exact ih (some k) hk ha.2 fun j hj => hl j (mem_cons_of_mem k hj)

theorem verifyAllSites_ok (n : Nat) {slots : List Slot} (h : ∀ s ∈ slots, s.IsOrdered) :
    verifyAllSites n (slots.map (·.code)) (slots.map fun s => s.sites.map fun l => l.map fun (k : Nat) => (k : Int))
      = .ok () := by
  induction slots generalizing n with
  | nil => rfl
  | cons s slots ih =>
    obtain ⟨ha, hl⟩ := h s mem_cons_self
    have hsites : (s.sites.map fun l => l.map fun (k : Nat) => (k : Int)).getD []
        = (s.sites.getD []).map fun (k : Nat) => (k : Int) := by
      cases s.sites <;> rfl
    have hs : verifySites n (s.code.getD []) none ((s.sites.getD []).map fun (k : Nat) => (k : Int)) = .ok () :=
      verifySites_ok n none (fun k hk => by cases hk) ha hl
    rw [map_cons, map_cons, verifyAllSites, hsites, hs]
    exact ih (n + 1) fun t ht => h t (mem_cons_of_mem s ht)

structure Framed (i : Image) : Prop where
  version : i.version = currentVersion
  fingerprints : i.fingerprintList.length = i.blockList.length
  siteCount : i.siteList.length = i.blockList.length
  sites : verifyAllSites 0 i.blockList i.siteList = .ok ()
  entry : 0 ≤ i.entry ∧ i.entry < i.blockList.length

theorem Framed.verify {i : Image} (h : i.Framed) : i.verify = verifyFingerprints 0 i.blockList i.fingerprintList := by
  have hentry : ¬ (decide (i.entry < 0) || decide ((i.blockList.length : Int) ≤ i.entry)) = true := by
    have := h.entry
    simp
    omega
  unfold Image.verify
  simp only [h.version, h.fingerprints, h.siteCount, h.sites, hentry, ne_eq, not_true, if_false]
  cases verifyFingerprints 0 i.blockList i.fingerprintList <;> rfl

def holding (p : Program) (entry : Nat) (consts : List Const) : Image where
  version := currentVersion
  idents := some p.idents.names
  consts := if consts.isEmpty then none else some consts
  blocks := some (p.slots.map (·.code))
  entry := entry
  fingerprints := some (p.slots.map fun s => (s.code.getD []).fingerprint)
  sites := some (p.slots.map fun s => s.sites.map fun l => l.map fun (k : Nat) => (k : Int))

section

variable {p : Program} {entry : Nat} {consts : List Const}

theorem verify_holding (hs : ∀ s ∈ p.slots, s.IsOrdered) (he : entry < p.slots.length) :
    (holding p entry consts).verify = .ok () := by
  have hframed : (holding p entry consts).Framed :=
    ⟨rfl, by simp [holding, fingerprintList, blockList], by simp [holding, siteList, blockList], verifyAllSites_ok 0 hs,
      by simp [holding, blockList, he]⟩
  have hf := verifyFingerprints_ok 0 (p.slots.map (·.code))
  rw [map_map] at hf
  exact hframed.verify.trans hf

/-- The constants that an image holds. -/
theorem consts_holding : (holding p entry consts).consts.getD [] = consts := by
  cases consts <;> rfl

def fields (i : Image) : List (Nat × Option Item) :=
  [(1, some (.ofInt i.version)), (2, some (.ofList .ofText i.idents)), (3, some (.ofList Const.toItem i.consts)),
    (4, some (.ofList (.ofList Instr.toItem) i.blocks)), (5, some (.ofInt i.entry)),
    (6, some (.ofList .ofText i.fingerprints)), (7, some (.ofList (.ofList .ofInt) i.sites))]

theorem toItem_eq (i : Image) : i.toItem = .map (Record.entries i.fields) := rfl

def hasValidText (i : Image) : Bool :=
  (i.idents.getD []).all Text.isValid && (i.consts.getD []).all (·.str.isValid)

/-- An image is read from its item if its texts are valid. -/
theorem ofItem?_toItem (hc : ∀ c ∈ consts, c.isSettled = true) (hl : (holding p entry consts).toItem.isWithin limit = true) :
    ofItem? (holding p entry consts).toItem =
      if (holding p entry consts).hasValidText then some (holding p entry consts) else none := by
  have hlimits : Item.entriesWithin limit (Record.entries (holding p entry consts).fields) = true := by
    rw [toItem_eq, Item.isWithin, Bool.and_eq_true] at hl
    exact hl.2
  have hfield {n : Nat} {v : Item} (hf : (n, some v) ∈ (holding p entry consts).fields) : v.isWithin limit = true :=
    Record.within_entries hlimits hf
  have hversion := Item.toInt64?_ofInt (n := (holding p entry consts).version) (hfield (n := 1) (by simp [fields]))
  have hentry := Item.toInt64?_ofInt (n := (holding p entry consts).entry) (hfield (n := 5) (by simp [fields]))
  have hidents : (Item.ofList .ofText (holding p entry consts).idents).toList? (·.toText?)
      = if ((holding p entry consts).idents.getD []).all Text.isValid then some (holding p entry consts).idents else none :=
    Item.toList?_ofList fun name _ => Item.toText?_ofText name
  have hprints : (Item.ofList .ofText (holding p entry consts).fingerprints).toList? (·.toText?)
      = some (holding p entry consts).fingerprints := by
    refine Item.toList?_ofList_some fun t ht => (Item.toText?_ofText t).trans (if_pos ?_)
    obtain ⟨s, -, rfl⟩ := List.mem_map.mp ht
    exact Block.isValid_fingerprint _
  have hconsts : (Item.ofList Const.toItem (holding p entry consts).consts).toList? (Const.ofItem? nestingLimit)
      = if ((holding p entry consts).consts.getD []).all (·.str.isValid) then some (holding p entry consts).consts
        else none := by
    have hwithin := Item.isWithin_ofList (hfield (n := 3) (v := .ofList Const.toItem (holding p entry consts).consts)
      (by simp [fields]))
    refine Item.toList?_ofList fun c h => Const.ofItem?_toItem ?_ (hwithin c h) 31
    rw [consts_holding] at h
    exact hc c h
  have hblocks : (Item.ofList (.ofList Instr.toItem) (holding p entry consts).blocks).toList? (·.toList? Instr.ofItem?)
      = some (holding p entry consts).blocks := by
    have hwithin := Item.isWithin_ofList
      (hfield (n := 4) (v := .ofList (.ofList Instr.toItem) (holding p entry consts).blocks) (by simp [fields]))
    exact Item.toList?_ofList_some fun b h => Item.toList?_ofList_some fun i hi =>
      Instr.ofItem?_toItem (Item.isWithin_ofList (hwithin b h) i hi)
  have hsites : (Item.ofList (.ofList .ofInt) (holding p entry consts).sites).toList? (·.toList? (·.toInt64?))
      = some (holding p entry consts).sites := by
    have hwithin := Item.isWithin_ofList
      (hfield (n := 7) (v := .ofList (.ofList .ofInt) (holding p entry consts).sites) (by simp [fields]))
    exact Item.toList?_ofList_some fun l h => Item.toList?_ofList_some fun k hk =>
      Item.toInt64?_ofInt (Item.isWithin_ofList (hwithin l h) k hk)
  have hkeys : [Key.number 1, .number 2, .number 3, .number 4, .number 5, .number 6, .number 7]
      = [1, 2, 3, 4, 5, 6, 7].map Record.keyOf := by decide +kernel
  have hdistinct : ([1, 2, 3, 4, 5, 6, 7].map Record.keyOf).Nodup := by decide +kernel
  have hread : Record.read? ([1, 2, 3, 4, 5, 6, 7].map Record.keyOf)
      (.map (Record.entries (holding p entry consts).fields)) = _ := Record.read?_entries hdistinct
  rw [toItem_eq, ofItem?, hkeys, hread]
  simp only [fields, map_cons, map_nil, Option.bind_eq_bind, Option.bind_some, Option.getD_some,
    hversion, hentry, hidents, hprints, hconsts, hblocks, hsites]
  rw [hasValidText]
  by_cases hnames : ((holding p entry consts).idents.getD []).all Text.isValid = true
  · rw [if_pos hnames, hnames, Bool.true_and]
    by_cases hstrs : ((holding p entry consts).consts.getD []).all (·.str.isValid) = true
    · rw [if_pos hstrs, if_pos hstrs]
      rfl
    · rw [if_neg hstrs, if_neg hstrs]
      rfl
  · rw [if_neg hnames, Bool.eq_false_iff.mpr hnames]
    rfl

/-- The item of an image has the form in which items are written. -/
theorem isCanonical_toItem (hc : ∀ c ∈ consts, c.isSettled = true) :
    (holding p entry consts).toItem.isCanonical nestingLimit = true := by
  have htext (ts : Option (List Text)) : (Item.ofList .ofText ts).isCanonical 31 = true :=
    Item.isCanonical_ofList fun t _ => rfl
  have hconsts : (Item.ofList Const.toItem (holding p entry consts).consts).isCanonical 31 = true := by
    refine Item.isCanonical_ofList fun c h => Const.isCanonical_toItem ?_ 29
    rw [consts_holding] at h
    exact hc c h
  have hinstr (i : Instr) : i.toItem.isCanonical 29 = true := by
    simp [Instr.toItem, Item.isCanonical, Item.entriesCanonical, Item.ofText, Item.isCanonical_ofInt]
  have hblocks (bs : Option (List (Option Block))) : (Item.ofList (.ofList Instr.toItem) bs).isCanonical 31 = true :=
    Item.isCanonical_ofList fun b _ => Item.isCanonical_ofList fun i _ => hinstr i
  have hsites (ss : Option (List (Option (List Int)))) : (Item.ofList (.ofList .ofInt) ss).isCanonical 31 = true :=
    Item.isCanonical_ofList fun l _ => Item.isCanonical_ofList fun k _ => Item.isCanonical_ofInt 29 k
  rw [toItem_eq, Item.isCanonical, Bool.and_eq_true]
  refine ⟨by decide, Record.canonical_entries ?_⟩
  simp only [fields, List.forall_mem_cons, Option.some.injEq, forall_eq']
  exact ⟨Item.isCanonical_ofInt 31 _, htext _, hconsts, hblocks _, Item.isCanonical_ofInt 31 _, htext _, hsites _,
    fun f hf => by cases hf⟩

/-- The bytes of an image within the limits are decoded to it if its texts are valid. -/
theorem decodeWith_encode (hs : ∀ s ∈ p.slots, s.IsOrdered) (he : entry < p.slots.length)
    (hc : ∀ c ∈ consts, c.isSettled = true) (hl : (holding p entry consts).toItem.isWithin limit = true) :
    decodeWith limit (holding p entry consts).encode =
      if (holding p entry consts).hasValidText then .ok (holding p entry consts) else .error .malformed := by
  have hread : (Cbor.decodeWith limit (holding p entry consts).toItem.encode).mapError ImageError.unreadable
      = .ok (holding p entry consts).toItem := by
    rw [Cbor.decodeWith_encode hl (isCanonical_toItem hc)]
    rfl
  unfold decodeWith encode
  rw [hread]
  simp only [bind, Except.bind, ofItem?_toItem hc hl]
  cases (holding p entry consts).hasValidText with
  | false => rfl
  | true =>
    simp only [if_true, verify_holding hs he]
    rfl

/-- The program of an image is the one it was made of. -/
theorem toProgram_holding (hs : ∀ s ∈ p.slots, s.IsOrdered) (he : entry < p.slots.length)
    (hv : consts.mapM Const.toValue = .ok p.consts) : (holding p entry consts).toProgram = .ok p := by
  have hidents : p.idents.names.foldl (fun t name => (t.intern name).2) .empty = p.idents :=
    Idents.ext_names (Idents.names_internAll_new (t := .empty) p.idents.nodup)
  have hsites (l : List Nat) : (l.map fun (k : Nat) => (k : Int)).map Int.toNat = l := by
    rw [map_map]
    exact List.map_id l
  have hslots : List.zipWith (fun b s => (⟨b, s.map fun l => l.map Int.toNat⟩ : Slot)) (p.slots.map (·.code))
      (p.slots.map fun s => s.sites.map fun l => l.map fun (k : Nat) => (k : Int)) = p.slots := by
    rw [List.zipWith_map, List.zipWith_self]
    refine (List.map_congr_left fun s _ => ?_).trans (List.map_id p.slots)
    obtain ⟨code, sites⟩ := s
    cases sites with
    | none => rfl
    | some l => simp only [Option.map_some, hsites, id]
  unfold toProgram
  rw [verify_holding hs he, consts_holding, hv]
  change Except.ok (Program.mk _ _ _) = _
  rw [show (holding p entry consts).idents.getD [] = p.idents.names from rfl, hidents]
  exact congrArg (fun slots => Except.ok (Program.mk p.idents p.consts slots)) hslots

/-- The constants of storable values are literals and give the values back. -/
theorem ofValues_storable {vs : List Value} (h : ∀ v ∈ vs, v.isStorable = true) :
    ∃ cs, vs.mapM Const.ofValue = .ok cs ∧ (∀ c ∈ cs, c.isLiteral = true) ∧ cs.mapM Const.toValue = .ok vs := by
  induction vs with
  | nil => exact ⟨[], rfl, by simp, rfl⟩
  | cons v vs ih =>
    obtain ⟨c, hc, hl, hv⟩ := Const.ofValue_storable (h v mem_cons_self)
    obtain ⟨cs, hcs, hls, hvs⟩ := ih fun u hu => h u (mem_cons_of_mem v hu)
    refine ⟨c :: cs, ?_, ?_, ?_⟩
    · rw [List.mapM_cons, hc, hcs]
      rfl
    · intro d hd
      rcases List.mem_cons.mp hd with rfl | hd
      · exact hl
      · exact hls d hd
    · rw [List.mapM_cons, hv, hvs]
      rfl

/-- A storable program has an image. The image is decoded from its bytes, as far as it is within the limits, and
    its program is the program. -/
theorem stored (h : p.IsStorable) (he : entry < p.slots.length) :
    ∃ i, ofProgram p entry = .ok i ∧ i.entry = entry ∧ (i.toItem.isWithinLimits = true → decode i.encode = .ok i) ∧
      i.toProgram = .ok p := by
  obtain ⟨cs, hcs, hl, hvs⟩ := ofValues_storable h.consts
  have hslot : p.slot? entry = some p.slots[entry] := List.getElem?_eq_getElem he
  refine ⟨holding p entry cs, ?_, rfl, fun hlimits => ?_, toProgram_holding h.slots he hvs⟩
  · unfold ofProgram
    rw [hslot, hcs]
    rfl
  · have hvalid : (holding p entry cs).hasValidText = true := by
      rw [hasValidText, consts_holding, Bool.and_eq_true, List.all_eq_true, List.all_eq_true]
      exact ⟨h.names, fun c hc => (Bool.and_eq_true_iff.mp (hl c hc)).2⟩
    have hsettled : ∀ c ∈ cs, c.isSettled = true := fun c hc => (Bool.and_eq_true_iff.mp (hl c hc)).1
    rw [decode, decodeWith_encode h.slots he hsettled hlimits, if_pos hvalid]

end

end Image

end Scriptlet

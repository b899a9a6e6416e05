/-
  Scriptlet.Proofs.Restoring — programs that come back from their images.

  Whatever was compiled, and with whatever success, the program has an image for each of its blocks.
  The bytes of the image are decoded if and only if the names of the program and the texts among
  its constants are valid, and then the program is as it was, except that a zero has lost its
  sign, since zeros are left out, and that all not-a-numbers are one, since there is one form in
  which they are written (`Compiler.image_round_trip`).

  Both losses happen in writing: the image of the program that comes back has the same bytes
  (`Image.encode_restored`), and nothing is lost in reading these.
-/

import Scriptlet.Proofs.Tables

namespace Scriptlet

open Cbor

namespace Binary64

/-- The number in the form in which it is written; all not-a-numbers have the same. -/
def unified (x : Binary64) : Binary64 := if x.isNaN then .nan else x

/-- The number as it comes back; a zero that was left out has no sign. -/
def restored (x : Binary64) : Binary64 := if x.isZero then .zero else x.unified

theorem isNaN_unified (x : Binary64) : x.unified.isNaN = x.isNaN := by
  unfold unified
  split
  · rename_i h
    rw [h]
    decide
  · rfl

theorem isZero_unified (x : Binary64) : x.unified.isZero = x.isZero := by
  unfold unified
  split
  · rename_i h
    have hz : x.isZero = false := by
      have hm : infinityMagnitude < x.magnitude := of_decide_eq_true h
      refine decide_eq_false fun hz => ?_
      rw [hz] at hm
      exact Nat.not_lt_zero _ hm
    rw [hz]
    decide
  · rfl

theorem isZero_restored (x : Binary64) : x.restored.isZero = x.isZero := by
  unfold restored
  split
  · rename_i h
    rw [h]
    decide
  · exact x.isZero_unified

theorem restored_of_nonzero {x : Binary64} (h : x.isZero = false) : x.restored = x.unified := by
  rw [restored, if_neg (by simp [h])]

end Binary64

theorem Cbor.Item.encodeFloat_unified (x : Binary64) : encodeFloat x.unified = encodeFloat x := by
  unfold Binary64.unified
  split
  · rename_i h
    rw [encodeFloat, encodeFloat, if_pos h, if_pos (by decide)]
  · rfl

namespace Cbor.Item

mutual

/-- The item with all numbers in the form in which they are written. -/
def unified : Item → Item
  | .array items => .array (unifiedAll items)
  | .map entries => .map (unifiedEntries entries)
  | .float x => .float x.unified
  | .uint n => .uint n
  | .nint n => .nint n
  | .bytes b => .bytes b
  | .text chunks => .text chunks
  | .simple n => .simple n
termination_by structural i => i

def unifiedAll : List Item → List Item
  | [] => []
  | i :: is => i.unified :: unifiedAll is
termination_by structural is => is

def unifiedEntries : List (Item × Item) → List (Item × Item)
  | [] => []
  | (k, v) :: es => (k.unified, v.unified) :: unifiedEntries es
termination_by structural es => es

end

theorem unifiedAll_eq (is : List Item) : unifiedAll is = is.map unified := by
  induction is with
  | nil => rfl
  | cons i is ih => rw [unifiedAll, ih, List.map_cons]

theorem unifiedEntries_eq (es : List (Item × Item)) :
    unifiedEntries es = es.map fun e => (e.1.unified, e.2.unified) := by
  induction es with
  | nil => rfl
  | cons e es ih => rw [unifiedEntries, ih, List.map_cons]

mutual

theorem encode_unified : ∀ i : Item, i.unified.encode = i.encode
  | .array items => by
    rw [unified, encode, encode, encodeAll_unified items, unifiedAll_eq, List.length_map]
  | .map entries => by
    rw [unified, encode, encode, encodeEntries_unified entries, unifiedEntries_eq, List.length_map]
  | .float x => by
    rw [unified, encode, encode, encodeFloat_unified]
  | .uint _ | .nint _ | .bytes _ | .text _ | .simple _ => rfl

theorem encodeAll_unified : ∀ is : List Item, encodeAll (unifiedAll is) = encodeAll is
  | [] => rfl
  | i :: is => by rw [unifiedAll, encodeAll, encodeAll, encode_unified i, encodeAll_unified is]

theorem encodeEntries_unified : ∀ es : List (Item × Item), encodeEntries (unifiedEntries es) = encodeEntries es
  | [] => rfl
  | (k, v) :: es => by
    rw [unifiedEntries, encodeEntries, encodeEntries, encode_unified k, encode_unified v, encodeEntries_unified es]

end

section

variable (limit : Option Nat)

mutual

theorem isWithin_unified : ∀ i : Item, i.unified.isWithin limit = i.isWithin limit
  | .array items => by
    rw [unified, isWithin, isWithin, areWithin_unified items, unifiedAll_eq, List.length_map]
  | .map entries => by
    rw [unified, isWithin, isWithin, entriesWithin_unified entries, unifiedEntries_eq, List.length_map]
  | .uint _ | .nint _ | .bytes _ | .text _ | .simple _ | .float _ => rfl

theorem areWithin_unified : ∀ is : List Item, areWithin limit (unifiedAll is) = areWithin limit is
  | [] => rfl
  | i :: is => by rw [unifiedAll, areWithin, areWithin, isWithin_unified i, areWithin_unified is]

theorem entriesWithin_unified : ∀ es : List (Item × Item), entriesWithin limit (unifiedEntries es) = entriesWithin limit es
  | [] => rfl
  | (k, v) :: es => by
    rw [unifiedEntries, entriesWithin, entriesWithin, isWithin_unified k, isWithin_unified v, entriesWithin_unified es]

end

end

theorem unified_ofInt (n : Int) : (ofInt n).unified = ofInt n := by cases n <;> rfl

theorem unified_ofList {α β : Type} {f : α → Item} {g : β → Item} {h : α → β} {l : Option (List α)}
    (hl : ∀ a ∈ l.getD [], g (h a) = (f a).unified) : ofList g (l.map (List.map h)) = (ofList f l).unified := by
  cases l with
  | none => rfl
  | some l =>
    rw [Option.map_some, ofList, ofList, unified, unifiedAll_eq, List.map_map, List.map_map]
    exact congrArg Item.array (List.map_congr_left hl)

theorem unified_ofList_self {α : Type} {f : α → Item} (hf : ∀ a, (f a).unified = f a) (l : Option (List α)) :
    (ofList f l).unified = ofList f l := by
  cases l with
  | none => rfl
  | some l =>
    rw [ofList, unified, unifiedAll_eq, List.map_map]
    exact congrArg Item.array (List.map_congr_left fun a _ => hf a)

end Cbor.Item

theorem Cbor.Record.unified_entries (l : List (Nat × Option Item)) :
    (Item.map (entries l)).unified = .map (entries (l.map fun f => (f.1, f.2.map Item.unified))) := by
  rw [Item.unified]
  refine congrArg Item.map ?_
  induction l with
  | nil => rfl
  | cons f l ih =>
    obtain ⟨n, v⟩ := f
    cases v with
    | none => exact ih
    | some v => exact congrArg (_ :: ·) ih

/-! ## Constants -/

def Value.restored : Value → Value
  | .float x => .float x.restored
  | v => v

def Value.hasValidText : Value → Bool
  | .str s => s.isValid
  | _ => true

/-- Code does not depend on the numbers among the constants. -/
theorem Program.Sourced.restored {p : Program} {S : List (List Node)} (h : p.Sourced S) :
    ({ p with consts := p.consts.map Value.restored } : Program).Sourced S := by
  refine ⟨h.slots.imp fun ns s hs => ?_, fun v hv => ?_⟩
  · cases hs with
    | nothing => exact .nothing
    | code hf =>
      refine .code ⟨hf.length, hf.sites, hf.ascending, hf.completes, fun i hi => ?_, fun k i hi ho => ?_⟩
      · have hr := hf.refers i hi
        exact ⟨fun ho => by simpa using hr.const ho, hr.ident⟩
      · obtain ⟨j, c, b, hk, hj, hc, hb⟩ := hf.prepares k i hi ho
        exact ⟨j, c, b, hk, hj, by simp [hc, Value.restored], hb⟩
  · obtain ⟨u, hu, rfl⟩ := List.mem_map.mp hv
    have hc := h.consts u hu
    cases u <;> exact hc

variable {p : Program}

namespace Const

def restored : Const → Const
  | .mk kind int float str bool items block params => .mk kind int float.restored str bool items block params

def isSimple : Const → Bool
  | .mk _ _ _ _ _ items _ _ => items.isEmpty

theorem str_restored (c : Const) : c.restored.str = c.str := by
  obtain ⟨kind, int, float, str, bool, items, block, params⟩ := c
  rfl

variable {c : Const}

theorem isSettled_restored (h : c.isSimple = true) : c.restored.isSettled = true := by
  obtain ⟨kind, int, float, str, bool, items, block, params⟩ := c
  have hi : items.isEmpty = true := h
  have hzero : (!float.restored.isZero || decide (float.restored = .zero)) = true := by
    rw [float.isZero_restored]
    cases hz : float.isZero with
    | false => rfl
    | true => simp [Binary64.restored, hz]
  have hnan : (!float.restored.isNaN || decide (float.restored = .nan)) = true := by
    cases hz : float.isZero with
    | true =>
      rw [Binary64.restored, if_pos hz]
      decide
    | false =>
      rw [Binary64.restored_of_nonzero hz, float.isNaN_unified]
      cases hn : float.isNaN with
      | false => rfl
      | true => simp [Binary64.unified, hn]
  rw [restored, isSettled, hzero, hnan, hi]
  rfl

theorem toItem_restored (h : c.isSimple = true) : c.restored.toItem = c.toItem.unified := by
  rw [toItem_eq, toItem_eq, Record.unified_entries]
  obtain ⟨kind, int, float, str, bool, items, block, params⟩ := c
  obtain rfl := List.isEmpty_iff.mp h
  refine congrArg (fun l => Item.map (Record.entries l)) ?_
  have hopt {z : Prop} [Decidable z] {i j : Item} (hij : ¬ z → i.unified = j) :
      (if z then none else some i).map Item.unified = if z then none else some j := by
    split
    · rfl
    · rename_i hz
      exact congrArg some (hij hz)
  have hbool : (if bool then some (Item.ofBool bool) else none).map Item.unified
      = if bool then some (Item.ofBool bool) else none := by
    cases bool <;> rfl
  have hfloat : float.isZero ≠ true → (Item.float float).unified = .float float.restored := by
    intro hz
    rw [Binary64.restored_of_nonzero (Bool.eq_false_iff.mpr hz)]
    rfl
  have hstr : (Item.ofText str).unified = .ofText str := rfl
  simp only [restored, fields, List.map_cons, List.map_nil, float.isZero_restored, hopt fun _ => Item.unified_ofInt int,
    hopt hfloat, hopt fun _ => hstr, hbool, hopt fun _ => Item.unified_ofInt block,
    hopt fun _ => Item.unified_ofInt params]
  rfl

structure Stores (v : Value) (c : Const) : Prop where
  simple : c.isSimple = true
  valid : c.str.isValid = v.hasValidText
  value : c.restored.toValue = .ok v.restored

theorem stores_of_isConstant {v : Value} (h : v.IsConstant p) (hc : ofValue v = .ok c) : Stores v c := by
  cases v with
  | array | closure | structType | object | host | builtin => cases h
  | int n =>
    cases hc
    refine ⟨rfl, rfl, ?_⟩
    change Except.ok (Value.int (Int64.ofInt n.toInt)) = _
    rw [Int64.ofInt_toInt]
    rfl
  | _ =>
    cases hc
    exact ⟨rfl, rfl, rfl⟩

variable {vs : List Value} {cs : List Const}

theorem stores_all (h : ∀ v ∈ vs, v.IsConstant p) (hcs : List.Forall₂ (fun v c => ofValue v = .ok c) vs cs) :
    List.Forall₂ Stores vs cs := by
  induction hcs with
  | nil => exact .nil
  | cons hc _ ih =>
    exact .cons (stores_of_isConstant (h _ List.mem_cons_self) hc) (ih fun v hv => h v (List.mem_cons_of_mem _ hv))

theorem simple_of_stores (h : List.Forall₂ Stores vs cs) : ∀ c ∈ cs, c.isSimple = true := by
  induction h with
  | nil => simp
  | cons hc _ ih =>
    intro c hm
    rcases List.mem_cons.mp hm with rfl | hm
    · exact hc.simple
    · exact ih c hm

theorem valid_of_stores (h : List.Forall₂ Stores vs cs) : cs.all (·.str.isValid) = vs.all Value.hasValidText := by
  induction h with
  | nil => rfl
  | cons hc _ ih => rw [List.all_cons, List.all_cons, hc.valid, ih]

theorem values_of_stores (h : List.Forall₂ Stores vs cs) :
    (cs.map restored).mapM toValue = .ok (vs.map Value.restored) := by
  induction h with
  | nil => rfl
  | cons hc _ ih =>
    rw [List.map_cons, List.mapM_cons, hc.value, ih]
    rfl

end Const

def Program.HasValidText (p : Program) : Prop :=
  (∀ name ∈ p.idents.names, name.isValid = true) ∧ ∀ s, Value.str s ∈ p.consts → s.isValid = true

namespace Image

variable {entry : Nat} {cs : List Const} {limit : Option Nat}

theorem toItem_restored (hc : ∀ c ∈ cs, c.isSimple = true) :
    (holding p entry (cs.map Const.restored)).toItem = (holding p entry cs).toItem.unified := by
  have hinstr (i : Instr) : i.toItem.unified = i.toItem := by
    rw [Instr.toItem]
    simp only [Item.unified, Item.unifiedEntries, Item.unified_ofInt, Item.ofText]
  have hconsts : (holding p entry (cs.map Const.restored)).consts = (holding p entry cs).consts.map (List.map Const.restored) := by
    cases cs <;> rfl
  have hlist : Item.ofList Const.toItem (holding p entry (cs.map Const.restored)).consts
      = (Item.ofList Const.toItem (holding p entry cs).consts).unified := by
    rw [hconsts]
    refine Item.unified_ofList fun c h => Const.toItem_restored ?_
    rw [consts_holding] at h
    exact hc c h
  have htexts := Item.unified_ofList_self fun t => (rfl : (Item.ofText t).unified = .ofText t)
  have hblocks := Item.unified_ofList_self (Item.unified_ofList_self hinstr)
  have hsites := Item.unified_ofList_self (Item.unified_ofList_self Item.unified_ofInt)
  rw [toItem_eq, toItem_eq, Record.unified_entries]
  refine congrArg (fun l => Item.map (Record.entries l)) ?_
  simp only [fields, List.map_cons, List.map_nil, Option.map_some, Item.unified_ofInt, htexts, hblocks, hsites, hlist]
  rfl

/-- The image of the program that comes back has the same bytes. -/
theorem encode_restored (hc : ∀ c ∈ cs, c.isSimple = true) :
    (holding p entry (cs.map Const.restored)).encode = (holding p entry cs).encode := by
  rw [encode, encode, toItem_restored hc, Item.encode_unified]

theorem hasValidText_restored (h : List.Forall₂ Const.Stores p.consts cs) :
    (holding p entry (cs.map Const.restored)).hasValidText = true ↔ p.HasValidText := by
  have hstrs : (cs.map Const.restored).all (·.str.isValid) = p.consts.all Value.hasValidText := by
    rw [List.all_map, ← Const.valid_of_stores h]
    exact congrArg cs.all (funext fun c => congrArg Text.isValid c.str_restored)
  rw [hasValidText, consts_holding, hstrs, Bool.and_eq_true, List.all_eq_true, List.all_eq_true]
  refine and_congr_right fun _ => ⟨fun hv s hs => hv _ hs, fun hv v hm => ?_⟩
  cases v with
  | str s => exact hv s hm
  | _ => rfl

end Image

namespace Compiler

/-- The program of a compiler has an image for each of its blocks. Within the limits on numbers and lengths, and on
    counts if there is one, its bytes are decoded if and only if the texts of the program are valid, and then the
    program comes back with the same names, blocks and constructor sites, and with its constants as far as they are
    not changed by being written. -/
theorem image_round_trip (es : List Edit) (entry : Int) (limit : Option Nat)
    (he : ((after es).program.slot? entry).isSome = true) :
    ∃ i, Image.ofProgram (after es).program entry = .ok i ∧
      (i.toItem.isWithin limit = true →
        ((∃ j, Image.decodeWith limit i.encode = .ok j) ↔ (after es).program.HasValidText) ∧
        ∀ j, Image.decodeWith limit i.encode = .ok j → j.entry = entry ∧
          ∃ q, j.toProgram = .ok q ∧ q.idents = (after es).program.idents ∧ q.slots = (after es).program.slots ∧
            q.consts = (after es).program.consts.map Value.restored) := by
  have hsourced := after_sourced es
  generalize (after es).program = p at he hsourced
  obtain ⟨n, rfl, hn⟩ := Program.exists_of_slot? he
  obtain ⟨cs, hcs, hi⟩ := hsourced.image hn
  have hstores := Const.stores_all hsourced.consts hcs
  have hsimple := Const.simple_of_stores hstores
  refine ⟨.holding p n cs, hi, fun hl => ?_⟩
  -- The bytes are those of the image that comes back, and of this one nothing is lost.
  have hsettled : ∀ c ∈ cs.map Const.restored, c.isSettled = true := by
    intro c hc
    obtain ⟨d, hd, rfl⟩ := List.mem_map.mp hc
    exact Const.isSettled_restored (hsimple d hd)
  have hlimits : (Image.holding p n (cs.map Const.restored)).toItem.isWithin limit = true := by
    rwa [Image.toItem_restored hsimple, Item.isWithin_unified]
  rw [← Image.encode_restored hsimple, Image.decodeWith_encode hsourced.isOrdered hn hsettled hlimits]
  have hvalid : (Image.holding p n (cs.map Const.restored)).hasValidText = true ↔ p.HasValidText :=
    Image.hasValidText_restored hstores
  by_cases h : (Image.holding p n (cs.map Const.restored)).hasValidText = true
  · rw [if_pos h]
    refine ⟨⟨fun _ => hvalid.mp h, fun _ => ⟨_, rfl⟩⟩, fun j hj => ?_⟩
    cases hj
    refine ⟨rfl, { p with consts := p.consts.map Value.restored }, ?_, rfl, rfl, rfl⟩
    exact Image.toProgram_holding (p := { p with consts := p.consts.map Value.restored }) hsourced.isOrdered hn
      (Const.values_of_stores hstores)
  · rw [if_neg h]
    refine ⟨⟨?_, fun hp => absurd (hvalid.mpr hp) h⟩, fun j hj => ?_⟩
    · rintro ⟨j, hj⟩
      cases hj
    · cases hj

/-- A program with a negative zero, a not-a-number and a text, which fails inside of a function. -/
def oddNumbers : List Edit :=
  [.compile [.float ⟨0x8000000000000000⟩, .float ⟨0xFFF8000000000000⟩, .str "é", .function ["x"] [.hole]]]

theorem image_round_trip_oddNumbers :
    ∃ i j q, Image.ofProgram (after oddNumbers).program 1 = .ok i ∧ Image.decode i.encode = .ok j ∧ j.entry = 1 ∧
      j.toProgram = .ok q ∧ q.idents.names = ["x"] ∧ q.slots = [{}, {}] ∧
      q.consts = [.float .zero, .float .nan, .str "é", .proto ⟨1, 1⟩] := by
  have hnames : (after oddNumbers).program.idents.names = ["x"] := by decide +kernel
  have hconsts : (after oddNumbers).program.consts =
      [.float ⟨0x8000000000000000⟩, .float ⟨0xFFF8000000000000⟩, .str "é", .proto ⟨1, 1⟩] := by rfl
  have hslots : (after oddNumbers).program.slots = [{}, {}] := by decide +kernel
  have hlimits : (Image.ofProgram (after oddNumbers).program 1).toOption.any (·.toItem.isWithinLimits) = true := by
    decide +kernel
  have hvalid : (after oddNumbers).program.HasValidText := by
    rw [Program.HasValidText, hnames, hconsts]
    refine ⟨by decide +kernel, fun s hs => ?_⟩
    simp only [List.mem_cons, List.not_mem_nil, or_false, reduceCtorEq, false_or, Value.str.injEq] at hs
    subst hs
    decide +kernel
  obtain ⟨i, hi, h⟩ := image_round_trip oddNumbers 1 (some countLimit) (by rw [Program.slot?, hslots]; rfl)
  rw [hi] at hlimits
  obtain ⟨hiff, hback⟩ := h hlimits
  obtain ⟨j, hj⟩ := hiff.mpr hvalid
  obtain ⟨hentry, q, hq, hidents, hqslots, hqconsts⟩ := hback j hj
  refine ⟨i, j, q, hi, hj, hentry, hq, by rw [hidents, hnames], by rw [hqslots, hslots], ?_⟩
  rw [hqconsts, hconsts]
  rfl

end Compiler

end Scriptlet

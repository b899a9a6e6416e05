/-
  Scriptlet.Proofs.Items — data items are read back as they were written.

  Reading has limits: on numbers and lengths, on how many items an array or a map has, and on the
  nesting. Within them (`Item.isWithin`), an item in the form in which it is written
  (`Item.isCanonical`) is what its bytes are read as, whatever follows them (`item_encode`), and so
  what a text that holds nothing else is decoded to (`decodeWith_encode`).
-/

import Scriptlet.Cbor.Read
import Scriptlet.Proofs.Narrowing

namespace Scriptlet.Cbor

/-! ## Numbers -/

theorem number_cons (b : UInt8) (t : Text) : number (b :: t) = b.toNat * 256 ^ t.length + number t := by
  have fold (acc : Nat) : t.foldl (fun n x => 256 * n + x.toNat) acc = acc * 256 ^ t.length + number t := by
    unfold number
    induction t generalizing acc with
    | nil => simp
    | cons c t ih =>
      rw [List.foldl_cons, List.foldl_cons, ih, ih (256 * 0 + c.toNat), List.length_cons, Nat.pow_succ]
      ring
  change t.foldl _ (256 * 0 + b.toNat) = _
  rw [fold]
  simp

theorem bigEndian_succ (width n : Nat) :
    Item.bigEndian (width + 1) n = UInt8.ofNat (n / 256 ^ width) :: Item.bigEndian width n := by
  unfold Item.bigEndian
  rw [List.range_succ_eq_map, List.map_cons, List.map_map]
  refine congrArg₂ _ (by simp) (List.map_congr_left fun i _ => ?_)
  rw [Function.comp_apply, show width + 1 - 1 - i.succ = width - 1 - i by omega]

theorem length_bigEndian (width n : Nat) : (Item.bigEndian width n).length = width := by simp [Item.bigEndian]

theorem number_bigEndian (width n : Nat) : number (Item.bigEndian width n) = n % 256 ^ width := by
  induction width with
  | zero => simp [Item.bigEndian, number, Nat.mod_one]
  | succ width ih =>
    rw [bigEndian_succ, number_cons, length_bigEndian, ih, UInt8.toNat_ofNat', Nat.pow_succ 256,
      Nat.mod_mul (a := 256 ^ width)]
    ring

/-! ## Heads -/

section

variable {major info n : Nat}

/-- A head whose number stands in one, two, four or eight bytes of its own. -/
theorem head_wide (hm : major < 8) (hi : 24 ≤ info) (hi' : info ≤ 27) (hn : n < 256 ^ 2 ^ (info - 24))
    (hs : major = 7 → info = 24 → 32 ≤ n) (rest : Text) :
    head (UInt8.ofNat (32 * major + info) :: (Item.bigEndian (2 ^ (info - 24)) n ++ rest))
      = .ok (⟨major, info, some n⟩, rest) := by
  have hb : (UInt8.ofNat (32 * major + info)).toNat = 32 * major + info := by
    rw [UInt8.toNat_ofNat']
    omega
  have hmajor : (32 * major + info) / 32 = major := by omega
  have hinfo : (32 * major + info) % 32 = info := by omega
  have htake : (Item.bigEndian (2 ^ (info - 24)) n ++ rest).take (2 ^ (info - 24)) = Item.bigEndian (2 ^ (info - 24)) n := by
    rw [List.take_left' (length_bigEndian _ n)]
  have hdrop : (Item.bigEndian (2 ^ (info - 24)) n ++ rest).drop (2 ^ (info - 24)) = rest := by
    rw [List.drop_left' (length_bigEndian _ n)]
  have hnum : number (Item.bigEndian (2 ^ (info - 24)) n) = n := by rw [number_bigEndian, Nat.mod_eq_of_lt hn]
  have hlen : ¬ (Item.bigEndian (2 ^ (info - 24)) n ++ rest).length < 2 ^ (info - 24) := by
    simp [length_bigEndian]
  have hsimple : (decide (major = 7) && decide (info = 24) && decide (n < 32)) = false := by
    simp only [Bool.and_eq_false_iff, decide_eq_false_iff_not]
    omega
  have hcases : info = 24 ∨ info = 25 ∨ info = 26 ∨ info = 27 := by omega
  unfold head
  simp only [hb, hmajor, hinfo]
  rcases hcases with rfl | rfl | rfl | rfl
  all_goals
    simp only [Nat.reduceSub, Nat.reducePow] at htake hdrop hnum hlen hsimple ⊢
    simp only [htake, hdrop, hnum, hlen, hsimple]
    rfl

/-- A head is read as it was written. Numbers below 256 stand in the head or in one byte. -/
theorem head_encode (hm : major < 8) (hn : n < 2 ^ 64) (hs : major = 7 → n < 24 ∨ 32 ≤ n) (rest : Text) :
    ∃ info, head (Item.head major n ++ rest) = .ok (⟨major, info, some n⟩, rest) ∧ (n < 2 ^ 8 → info ≤ 24) := by
  unfold Item.head
  dsimp only
  split
  · rename_i hsmall
    have hb : (UInt8.ofNat (32 * major + n)).toNat = 32 * major + n := by
      rw [UInt8.toNat_ofNat']
      omega
    refine ⟨n, ?_, fun _ => by omega⟩
    unfold head
    have hmajor : (32 * major + n) / 32 = major := by omega
    have hinfo : (32 * major + n) % 32 = n := by omega
    simp only [List.cons_append, List.nil_append, hb, hmajor, hinfo, hsmall, if_true]
  · rename_i h24
    split
    · exact ⟨24, head_wide hm (by omega) (by omega) (by omega) (fun h _ => by omega) rest, fun _ => by omega⟩
    · split
      · exact ⟨25, head_wide hm (by omega) (by omega) (by omega) (fun _ h => by omega) rest, fun _ => by omega⟩
      · split
        · exact ⟨26, head_wide hm (by omega) (by omega) (by omega) (fun _ h => by omega) rest, fun _ => by omega⟩
        · exact ⟨27, head_wide hm (by omega) (by omega) (by omega) (fun _ h => by omega) rest, fun _ => by omega⟩

end

/-! ## Items -/

namespace Item

mutual

/-- The item keeps to the limits on numbers, lengths and counts. -/
def isWithin (limit : Option Nat) : Item → Bool
  | .uint n => n < lengthLimit
  | .nint n => n < lengthLimit
  | .bytes b => b.length < lengthLimit
  | .text chunks => chunks.flatten.length < lengthLimit
  | .array items => items.length < lengthLimit && !exceeds limit items.length && areWithin limit items
  | .map entries => entries.length < lengthLimit && !exceeds limit entries.length && entriesWithin limit entries
  | .simple _ | .float _ => true
termination_by structural i => i

def areWithin (limit : Option Nat) : List Item → Bool
  | [] => true
  | i :: is => i.isWithin limit && areWithin limit is
termination_by structural is => is

def entriesWithin (limit : Option Nat) : List (Item × Item) → Bool
  | [] => true
  | (k, v) :: es => k.isWithin limit && v.isWithin limit && entriesWithin limit es
termination_by structural es => es

end

def isWithinLimits (i : Item) : Bool := i.isWithin (some countLimit)

mutual

/-- The item has the form in which items are written: texts in one chunk, simple values that can be
    written, and one not-a-number only. It has at most so many levels of arrays and maps. -/
def isCanonical (depth : Nat) : Item → Bool
  | .uint _ | .nint _ | .bytes _ => true
  | .text chunks => chunks.length = 1
  | .array items => depth ≠ 0 && areCanonical (depth - 1) items
  | .map entries => depth ≠ 0 && entriesCanonical (depth - 1) entries
  | .simple n => n < 24 || (32 ≤ n && n < 256)
  | .float x => !x.isNaN || decide (x = .nan)
termination_by structural i => i

def areCanonical (depth : Nat) : List Item → Bool
  | [] => true
  | i :: is => i.isCanonical depth && areCanonical depth is
termination_by structural is => is

def entriesCanonical (depth : Nat) : List (Item × Item) → Bool
  | [] => true
  | (k, v) :: es => k.isCanonical depth && v.isCanonical depth && entriesCanonical depth es
termination_by structural es => es

end

end Item

/-- A float is read as it was written. -/
theorem itemWith_float (limit : Option Nat) (inner : Option (Reader Item)) {x : Binary64}
    (hx : x.isNaN = true → x = .nan) (rest : Text) :
    itemWith limit inner (Item.encodeFloat x ++ rest) = .ok (.float x, rest) := by
  have wide {info n : Nat} (hi : 25 ≤ info) (hi' : info ≤ 27) (hn : n < 256 ^ 2 ^ (info - 24)) :
      itemWith limit inner (UInt8.ofNat (32 * 7 + info) :: (Item.bigEndian (2 ^ (info - 24)) n ++ rest))
        = .ok (special info n, rest) := by
    have hh : head (UInt8.ofNat (32 * 7 + info) :: (Item.bigEndian (2 ^ (info - 24)) n ++ rest))
        = .ok (⟨7, info, some n⟩, rest) := head_wide (by omega) (by omega) hi' hn (fun _ h => by omega) rest
    unfold itemWith
    rw [hh]
    rfl
  unfold Item.encodeFloat
  by_cases hnan : x.isNaN = true
  · obtain rfl := hx hnan
    exact wide (n := 0x7E00) (show 25 ≤ 25 by decide) (by decide) (by decide)
  rw [if_neg hnan]
  cases hh : FloatFormat.half.narrow? x with
  | some w =>
    obtain ⟨hw, e⟩ := FloatFormat.widen_narrow? (by decide) hh
    refine (wide (show 25 ≤ 25 by decide) (by decide) hw).trans ?_
    rw [special, e]
  | none =>
    cases hs : FloatFormat.single.narrow? x with
    | some w =>
      obtain ⟨hw, e⟩ := FloatFormat.widen_narrow? (by decide) hs
      refine (wide (show 25 ≤ 26 by decide) (by decide) hw).trans ?_
      rw [special, e]
    | none =>
      refine (wide (show 25 ≤ 27 by decide) (by decide) x.bits.toNat_lt).trans ?_
      rw [special, UInt64.ofNat_toNat]

section

variable {limit : Option Nat}

def inner (limit : Option Nat) : Nat → Option (Reader Item)
  | 0 => none
  | depth + 1 => some (item limit depth)

theorem item_eq (depth : Nat) : item limit depth = itemWith limit (inner limit depth) := by cases depth <;> rfl

theorem many_encode {α : Type} {read : Reader α} {h : Head} {as : List α} {t rest : Text}
    (hh : h.number = some as.length) (hn : as.length < lengthLimit) (hc : exceeds limit as.length = false)
    (ht : times read as.length t = .ok (as, rest)) : many limit read h t = .ok (as, rest) := by
  unfold many
  simp only [hh, if_neg (Nat.not_le.mpr hn), hc, ht]
  rfl

theorem string_encode {h : Head} {s : Text} (hh : h.number = some s.length) (hl : s.length < lengthLimit) (rest : Text) :
    string h (s ++ rest) = .ok ([s], rest) := by
  unfold string
  simp [hh, definite, take, Nat.not_le.mpr hl, Except.map]

/-- An item that starts with a number or a length below the limit. -/
theorem head_limited {major n : Nat} (hm : major < 7) (hn : n < lengthLimit) (rest : Text) :
    ∃ info, head (Item.head major n ++ rest) = .ok (⟨major, info, some n⟩, rest) := by
  unfold lengthLimit at hn
  have hm8 : major < 8 := by omega
  have hn64 : n < 2 ^ 64 := by omega
  obtain ⟨info, hh, -⟩ := head_encode hm8 hn64 (fun h => by omega) rest
  exact ⟨info, hh⟩

mutual

/-- Within the limits, an item is read as it was written, whatever follows it. -/
theorem item_encode {depth : Nat} {rest : Text} : ∀ i : Item, i.isWithin limit = true → i.isCanonical depth = true →
    item limit depth (i.encode ++ rest) = .ok (i, rest)
  | .uint n, hl, _ => by
    simp only [Item.isWithin, decide_eq_true_eq] at hl
    obtain ⟨info, hh⟩ := head_limited (show 0 < 7 by decide) hl rest
    rw [item_eq, itemWith, Item.encode, hh]
    rfl
  | .nint n, hl, _ => by
    simp only [Item.isWithin, decide_eq_true_eq] at hl
    obtain ⟨info, hh⟩ := head_limited (show 1 < 7 by decide) hl rest
    rw [item_eq, itemWith, Item.encode, hh]
    rfl
  | .bytes b, hl, _ => by
    simp only [Item.isWithin, decide_eq_true_eq] at hl
    obtain ⟨info, hh⟩ := head_limited (show 2 < 7 by decide) hl (b ++ rest)
    have hs : string ⟨2, info, some b.length⟩ (b ++ rest) = _ := string_encode rfl hl rest
    rw [item_eq, itemWith, Item.encode, List.append_assoc, hh]
    simp only [bind, Except.bind, hs]
    simp [Except.map]
  | .text chunks, hl, hc => by
    simp only [Item.isWithin, Item.isCanonical, decide_eq_true_eq] at hl hc
    obtain ⟨s, rfl⟩ := List.length_eq_one_iff.mp hc
    rw [List.flatten_singleton] at hl
    obtain ⟨info, hh⟩ := head_limited (show 3 < 7 by decide) hl (s ++ rest)
    have hs : string ⟨3, info, some s.length⟩ (s ++ rest) = _ := string_encode rfl hl rest
    rw [item_eq, itemWith, Item.encode, List.flatten_singleton, List.append_assoc, hh]
    simp only [bind, Except.bind, hs]
    rfl
  | .array items, hl, hc => by
    simp only [Item.isWithin, Item.isCanonical, Bool.and_eq_true, Bool.not_eq_true', decide_eq_true_eq] at hl hc
    obtain ⟨d, rfl⟩ := Nat.exists_eq_succ_of_ne_zero hc.1
    obtain ⟨info, hh⟩ := head_limited (show 4 < 7 by decide) hl.1.1 (Item.encodeAll items ++ rest)
    have hm : many limit (item limit d) ⟨4, info, some items.length⟩ (Item.encodeAll items ++ rest) = _ :=
      many_encode rfl hl.1.1 hl.1.2 (times_encodeAll items hl.2 hc.2)
    rw [item_eq, itemWith, Item.encode, List.append_assoc, hh]
    simp only [bind, Except.bind, inner, nested, hm]
    rfl
  | .map entries, hl, hc => by
    simp only [Item.isWithin, Item.isCanonical, Bool.and_eq_true, Bool.not_eq_true', decide_eq_true_eq] at hl hc
    obtain ⟨d, rfl⟩ := Nat.exists_eq_succ_of_ne_zero hc.1
    obtain ⟨info, hh⟩ := head_limited (show 5 < 7 by decide) hl.1.1 (Item.encodeEntries entries ++ rest)
    have hm : many limit (pair (item limit d)) ⟨5, info, some entries.length⟩ (Item.encodeEntries entries ++ rest) = _ :=
      many_encode rfl hl.1.1 hl.1.2 (times_encodeEntries entries hl.2 hc.2)
    rw [item_eq, itemWith, Item.encode, List.append_assoc, hh]
    simp only [bind, Except.bind, inner, nested, hm]
    rfl
  | .simple n, _, hc => by
    simp only [Item.isCanonical, Bool.or_eq_true, Bool.and_eq_true, decide_eq_true_eq] at hc
    obtain ⟨info, hh, hi⟩ := head_encode (show 7 < 8 by decide) (show n < 2 ^ 64 by omega) (fun _ => by omega) rest
    have hinfo : info ≤ 24 := hi (by omega)
    have hspecial : special info n = .simple n := by
      unfold special
      split
      · omega
      · omega
      · omega
      · rfl
    rw [item_eq, itemWith, Item.encode, hh]
    simp only [bind, Except.bind, Option.getD_some, hspecial]
    rfl
  | .float x, _, hc => by
    rw [item_eq]
    refine itemWith_float limit _ (fun hnan => ?_) rest
    simpa [Item.isCanonical, hnan] using hc

theorem times_encodeAll {depth : Nat} {rest : Text} : ∀ is : List Item, Item.areWithin limit is = true →
    Item.areCanonical depth is = true → times (item limit depth) is.length (Item.encodeAll is ++ rest) = .ok (is, rest)
  | [], _, _ => rfl
  | i :: is, hl, hc => by
    simp only [Item.areWithin, Item.areCanonical, Bool.and_eq_true] at hl hc
    rw [Item.encodeAll, List.append_assoc, List.length_cons, times, item_encode i hl.1 hc.1]
    simp only [bind, Except.bind]
    rw [times_encodeAll is hl.2 hc.2]
    rfl

theorem times_encodeEntries {depth : Nat} {rest : Text} : ∀ es : List (Item × Item),
    Item.entriesWithin limit es = true → Item.entriesCanonical depth es = true →
      times (pair (item limit depth)) es.length (Item.encodeEntries es ++ rest) = .ok (es, rest)
  | [], _, _ => rfl
  | (k, v) :: es, hl, hc => by
    simp only [Item.entriesWithin, Item.entriesCanonical, Bool.and_eq_true] at hl hc
    rw [Item.encodeEntries, List.append_assoc, List.append_assoc, List.length_cons, times, pair,
      item_encode k hl.1.1 hc.1.1]
    simp only [bind, Except.bind]
    rw [item_encode v hl.1.2 hc.1.2]
    simp only [pure, Except.pure]
    rw [times_encodeEntries es hl.2 hc.2]

end

/-- Within the limits, the bytes of an item are decoded to it. -/
theorem decodeWith_encode {i : Item} (hl : i.isWithin limit = true) (hc : i.isCanonical nestingLimit = true) :
    decodeWith limit i.encode = .ok i := by
  have hi : item limit nestingLimit (i.encode ++ []) = .ok (i, []) := item_encode i hl hc
  rw [List.append_nil] at hi
  unfold decodeWith
  cases he : i.encode with
  | nil =>
    rw [he, item_eq] at hi
    cases hi
  | cons b t =>
    rw [he] at hi
    rw [hi]
    rfl

end

end Scriptlet.Cbor

/-
  Scriptlet.Proofs.Delimiting — texts that are put together can be taken apart.

  (1) A run of bytes of one class ends where a byte of another follows (`run_inj`), and a list with separators
      is read off if its elements are (`join_inj`).
  (2) Hexadecimal digits denote their number (`hexValue_hex`), and as many bytes have as many (`hexOfBytes_inj`).
  (3) Quoting hides line ends and loses nothing (`newline_not_mem_quoted`, `quoted_inj`).
-/

import Scriptlet.Proofs.Encoding
import Scriptlet.Proofs.Spelling

namespace Scriptlet

namespace Text

/-! ## (1) Runs and lists -/

theorem run_inj {p : UInt8 → Bool} {u v s t : Text} {c d : UInt8} (hu : ∀ b ∈ u, p b = true) (hv : ∀ b ∈ v, p b = true)
    (hc : p c = false) (hd : p d = false) (h : u ++ c :: s = v ++ d :: t) : u = v ∧ c :: s = d :: t := by
  have taken {u s : Text} {c : UInt8} (hu : ∀ b ∈ u, p b = true) (hc : p c = false) : (u ++ c :: s).takeWhile p = u := by
    simp [List.takeWhile_append_of_pos hu, hc]
  obtain rfl : u = v := by rw [← taken hu hc, h, taken hv hd]
  exact ⟨rfl, List.append_cancel_left h⟩

/-- Pieces that are put together are told one by one if the first of them is. -/
theorem flatten_inj {α : Type} {P : List α → Prop} {f : List α → List α} (hnil : ¬ P [])
    (hfirst : ∀ x xs, (∀ y ∈ x :: xs, P y) → f (x :: xs).flatten = x) {xs ys : List (List α)} (hxs : ∀ x ∈ xs, P x)
    (hys : ∀ y ∈ ys, P y) (h : xs.flatten = ys.flatten) : xs = ys := by
  have ends {xs : List (List α)} (hxs : ∀ x ∈ xs, P x) (h : xs.flatten = []) : xs = [] := by
    refine List.eq_nil_iff_forall_not_mem.mpr fun x hx => hnil ?_
    rw [← List.flatten_eq_nil_iff.mp h x hx]
    exact hxs x hx
  induction xs generalizing ys with
  | nil => exact (ends hys h.symm).symm
  | cons x xs ih =>
    cases ys with
    | nil => exact ends hxs h
    | cons y ys =>
      obtain rfl : x = y := by rw [← hfirst x xs hxs, h, hfirst y ys hys]
      rw [ih (List.forall_mem_cons.mp hxs).2 (List.forall_mem_cons.mp hys).2 (List.append_cancel_left h)]

theorem map_inj {α β : Type} {f : α → β} {as bs : List α} (hf : ∀ a ∈ as, ∀ b ∈ bs, f a = f b → a = b)
    (h : as.map f = bs.map f) : as = bs := by
  induction as generalizing bs with
  | nil => exact (List.map_eq_nil_iff.mp h.symm).symm
  | cons a as ih =>
    obtain ⟨b, bs, rfl, hb, hbs⟩ := List.map_eq_cons_iff.mp h.symm
    rw [hf a (.head _) b (.head _) hb.symm, ih (fun a ha b hb => hf a (.tail _ ha) b (.tail _ hb)) hbs.symm]

theorem ofNat_inj {m n : Nat} (h : ofNat m = ofNat n) : m = n := by
  rw [← placeValue_ofNat m, h, placeValue_ofNat]

theorem ofInt_inj {y z : Int} (h : ofInt y = ofInt z) : y = z := by
  have hread := Decimal.readInt?_of_denotes (Decimal.denotes_ofInt y)
  rw [h, Decimal.readInt?_of_denotes (Decimal.denotes_ofInt z)] at hread
  exact (Option.some.inj hread).symm

def isNumeral (b : UInt8) : Bool := isDigit b || b = '-'.toUInt8

theorem isNumeral_of_mem_ofInt {z : Int} : ∀ b ∈ ofInt z, isNumeral b = true := by
  intro b hb
  cases z with
  | ofNat n => simp [isNumeral, isDigit_of_mem_ofNat b hb]
  | negSucc n =>
    rcases List.mem_cons.mp hb with rfl | hb
    · rfl
    · simp [isNumeral, isDigit_of_mem_ofNat b hb]

/-- Elements with separators between them are read off up to the byte that ends the list, if it starts neither a
    separator nor an element, and if an element is read off where a separator or the end follows. -/
theorem join_inj {α : Type} {f : α → Text} {P : α → Prop} {c d : UInt8} {sep y z : Text} (hcd : c ≠ d)
    (hstart : ∀ a, P a → ∀ s t, d :: s ≠ f a ++ t)
    (hread : ∀ a b, P a → P b → ∀ x s x' t, x = c ∨ x = d → x' = c ∨ x' = d →
      f a ++ x :: s = f b ++ x' :: t → a = b ∧ x :: s = x' :: t) {as bs : List α} (has : ∀ a ∈ as, P a) (hbs : ∀ b ∈ bs, P b)
    (h : join (c :: sep) (as.map f) ++ d :: y = join (c :: sep) (bs.map f) ++ d :: z) : as = bs ∧ y = z := by
  -- what follows the first element
  have split (a : α) (as : List α) (y : Text) : ∃ x s,
      join (c :: sep) ((a :: as).map f) ++ d :: y = f a ++ x :: s ∧
      (as = [] ∧ x = d ∧ s = y ∨ x = c ∧ s = sep ++ (join (c :: sep) (as.map f) ++ d :: y)) := by
    cases as with
    | nil => exact ⟨d, y, rfl, .inl ⟨rfl, rfl, rfl⟩⟩
    | cons a' as => exact ⟨c, _, by simp [join], .inr ⟨rfl, rfl⟩⟩
  induction as generalizing bs with
  | nil =>
    cases bs with
    | nil => exact ⟨rfl, (List.cons.inj h).2⟩
    | cons b bs =>
      obtain ⟨x, t, ht, -⟩ := split b bs z
      exact absurd (h.trans ht) (hstart b (hbs b List.mem_cons_self) y _)
  | cons a as ih =>
    obtain ⟨x, s, hs, hx⟩ := split a as y
    cases bs with
    | nil => exact absurd (h.symm.trans hs) (hstart a (has a List.mem_cons_self) z _)
    | cons b bs =>
      obtain ⟨x', t, ht, hx'⟩ := split b bs z
      rw [hs, ht] at h
      obtain ⟨rfl, e⟩ := hread a b (has a List.mem_cons_self) (hbs b List.mem_cons_self) x s x' t
        (by tauto) (by tauto) h
      obtain ⟨rfl, rfl⟩ := List.cons.inj e
      rcases hx with ⟨rfl, rfl, rfl⟩ | ⟨rfl, rfl⟩ <;> rcases hx' with ⟨rfl, e, e'⟩ | ⟨e, e'⟩
      · exact ⟨rfl, e'⟩
      · exact absurd e.symm hcd
      · exact absurd e hcd
      · obtain ⟨rfl, rfl⟩ := ih (fun a ha => has a (List.mem_cons_of_mem _ ha))
          (fun b hb => hbs b (List.mem_cons_of_mem _ hb)) (List.append_cancel_left e')
        exact ⟨rfl, rfl⟩

/-! ## (2) Hexadecimal digits -/

def hexValue (t : Text) : Nat := t.foldl (fun n b => 16 * n + (b.toNat - if isDigit b then 48 else 87)) 0

theorem hexValue_hex (width n : Nat) : hexValue (hex width n) = n := by
  have digit : ∀ d < 16, ((Nat.digitChar d).toUInt8.toNat - if isDigit (Nat.digitChar d).toUInt8 then 48 else 87) = d := by
    decide
  have digits (n : Nat) : hexValue ((Nat.toDigits 16 n).map Char.toUInt8) = n := by
    induction n using Nat.strongRecOn with
    | ind n ih =>
      rw [Nat.toDigits_eq_if (by decide)]
      split
      · rename_i hn
        simp [hexValue, digit n hn]
      · rename_i hn
        have hquot := ih (n / 16) (by omega)
        simp only [hexValue, List.map_append, List.map_cons, List.map_nil, List.foldl_append, List.foldl_cons,
          List.foldl_nil, digit (n % 16) (by omega)] at hquot ⊢
        rw [hquot]
        omega
  have zeros (k : Nat) (t : Text) : hexValue (List.replicate k '0'.toUInt8 ++ t) = hexValue t := by
    induction k with
    | zero => rfl
    | succ k ih => exact ih
  rw [hex, padLeft, zeros, digits]

theorem length_hex {width n : Nat} (hw : 0 < width) (h : n < 16 ^ width) : (hex width n).length = width := by
  have hlen : (Nat.toDigits 16 n).length ≤ width := (Nat.length_toDigits_le_iff (by decide) hw).mpr h
  simp only [hex, padLeft, List.length_append, List.length_replicate, List.length_map]
  omega

theorem hexOfBytes_inj {s t : Text} (h : hexOfBytes s = hexOfBytes t) : s = t := by
  have two {s : Text} : ∀ x ∈ s.map fun b => hex 2 b.toNat, x.length = 2 :=
    List.forall_mem_map.mpr fun b _ => length_hex (by decide) b.toNat_lt
  rw [hexOfBytes, hexOfBytes, List.flatMap_def, List.flatMap_def] at h
  refine map_inj (fun a _ b _ hab => ?_) (flatten_inj (f := List.take 2) (by decide) (fun x xs hx => ?_) two two h)
  · rw [← UInt8.toNat_inj, ← hexValue_hex 2 a.toNat, hab, hexValue_hex]
  · rw [List.flatten_cons, ← hx x List.mem_cons_self, List.take_left]

theorem newline_not_mem_hex (width n : Nat) : '\n'.toUInt8 ∉ hex width n := by
  have digit : ∀ d < 16, (Nat.digitChar d).toUInt8 ≠ '\n'.toUInt8 := by decide
  have digits (n : Nat) : '\n'.toUInt8 ∉ (Nat.toDigits 16 n).map Char.toUInt8 := by
    induction n using Nat.strongRecOn with
    | ind n ih =>
      rw [Nat.toDigits_eq_if (by decide)]
      split
      · rename_i hn
        simpa using (digit n hn).symm
      · rw [List.map_append, List.mem_append, not_or]
        exact ⟨ih (n / 16) (by omega), by simpa using (digit (n % 16) (by omega)).symm⟩
  intro h
  rcases List.mem_append.mp h with h | h
  · exact absurd (List.eq_of_mem_replicate h) (by decide)
  · exact digits n h

/-! ## (3) Quoting -/

theorem toNat_of_mem_ofChar {c : Char} {b : UInt8} (hb : b ∈ ofChar c) (h : b.toNat < 128) : c.toNat = b.toNat := by
  have hnat : c.toNat = c.val.toNat := rfl
  rw [ofChar, String.utf8EncodeChar] at hb
  split at hb
  · rename_i hn
    rw [List.mem_singleton.mp hb, hnat, UInt8.toNat_ofNat']
    omega
  · exfalso
    repeat' split at hb
    all_goals
      simp only [List.mem_cons, List.not_mem_nil, or_false] at hb
      rcases hb with rfl | rfl | rfl | rfl | rfl <;> simp only [UInt8.toNat_ofNat'] at h <;> omega

def escapeWidth (l : UInt8) : Nat :=
  if l = 'x'.toUInt8 then 2 else if l = 'u'.toUInt8 then 4 else if l = 'U'.toUInt8 then 8 else 0

/-- The bytes that the letter behind a backslash stands for, with its digits. -/
def escapeMeaning (l : UInt8) (ds : Text) : Text :=
  if l = 'x'.toUInt8 then [UInt8.ofNat (hexValue ds)]
  else if l = 'u'.toUInt8 ∨ l = 'U'.toUInt8 then ofChar (Char.ofNat (hexValue ds))
  else
    let controls : List UInt8 := [7, 8, 9, 10, 11, 12, 13]
    [(controls.find? fun b => (controlLetter? (Char.ofNat b.toNat)).map Char.toUInt8 = some l).getD l]

/-- A piece stands in a quotation as it is, or as a backslash with a letter and its digits. -/
theorem escapePiece_cases (p : Piece) :
    (escapePiece '"' p = p.bytes ∧ '\\'.toUInt8 ∉ p.bytes ∧ '\n'.toUInt8 ∉ p.bytes) ∨
      ∃ l ds, escapePiece '"' p = '\\'.toUInt8 :: l :: ds ∧ ds.length = escapeWidth l ∧ escapeMeaning l ds = p.bytes ∧
        '\n'.toUInt8 ∉ l :: ds := by
  have numbered (width n : Nat) (l : UInt8) {t : Text} (hl : l ≠ '\n'.toUInt8) (hw : escapeWidth l = width)
      (hpos : 0 < width) (hn : n < 16 ^ width) (hmeans : escapeMeaning l (hex width n) = t) :
      ∃ l' ds, '\\'.toUInt8 :: l :: hex width n = '\\'.toUInt8 :: l' :: ds ∧ ds.length = escapeWidth l' ∧
        escapeMeaning l' ds = t ∧ '\n'.toUInt8 ∉ l' :: ds :=
    ⟨l, _, rfl, (length_hex hpos hn).trans hw.symm, hmeans, by simp [newline_not_mem_hex, Ne.symm hl]⟩
  cases p with
  | stray b =>
    refine .inr (numbered 2 b.toNat 'x'.toUInt8 (by decide) rfl (by decide) b.toNat_lt ?_)
    simp [escapeMeaning, hexValue_hex, Piece.bytes]
  | char c =>
    rw [escapePiece, escapeChar]
    split
    · rename_i hc
      simp only [Bool.or_eq_true, decide_eq_true_eq] at hc
      rcases hc with rfl | rfl
      · exact .inr ⟨'"'.toUInt8, [], rfl, rfl, rfl, by decide⟩
      · exact .inr ⟨'\\'.toUInt8, [], rfl, rfl, rfl, by decide⟩
    split
    · rename_i hc hprint
      have absent (b : UInt8) (hb : b.toNat < 128) (hne : c ≠ Char.ofNat b.toNat) : b ∉ ofChar c := by
        intro hmem
        exact hne (by rw [← toNat_of_mem_ofChar hmem hb, Char.ofNat_toNat])
      simp only [Bool.or_eq_true, decide_eq_true_eq, not_or] at hc
      refine .inl ⟨rfl, absent _ (by decide) hc.2, absent _ (by decide) ?_⟩
      rintro rfl
      exact absurd hprint (by decide)
    · have hchar (n : Nat) (h : c.toNat = n) : c = Char.ofNat n := by rw [← h, Char.ofNat_toNat]
      split
      · rename_i l hl
        unfold controlLetter? at hl
        split at hl <;> cases hl
        all_goals
          rename_i hn
          rw [hchar _ hn]
          exact .inr ⟨_, [], rfl, rfl, rfl, by decide⟩
      split
      · rename_i hn
        refine .inr (numbered 2 c.toNat 'x'.toUInt8 (by decide) rfl (by decide) (by omega) ?_)
        have hbyte : (UInt8.ofNat c.toNat).toNat = c.toNat := by rw [UInt8.toNat_ofNat']; omega
        have hcode := ofChar_narrow (b := UInt8.ofNat c.toNat) (by rw [UInt8.lt_iff_toNat_lt, hbyte]; exact hn)
        rw [hbyte, Char.ofNat_toNat] at hcode
        simp [escapeMeaning, hexValue_hex, Piece.bytes, hcode]
      have hmeans (width : Nat) : ofChar (Char.ofNat (hexValue (hex width c.toNat))) = ofChar c := by
        rw [hexValue_hex, Char.ofNat_toNat]
      split
      · rename_i hn
        exact .inr (numbered 4 c.toNat 'u'.toUInt8 (by decide) rfl (by decide) hn (hmeans 4))
      · have hn : c.toNat < 0x110000 := c.valid.elim (fun h => Nat.lt_trans h (by decide)) And.right
        exact .inr (numbered 8 c.toNat 'U'.toUInt8 (by decide) rfl (by decide) (by omega) (hmeans 8))

inductive Escaped : Text → Text → Prop
  | nil : Escaped [] []
  | plain {b : UInt8} {e t : Text} : b ≠ '\\'.toUInt8 → Escaped e t → Escaped (b :: e) (b :: t)
  | marked {l : UInt8} {ds e t : Text} : ds.length = escapeWidth l → Escaped e t →
      Escaped ('\\'.toUInt8 :: l :: (ds ++ e)) (escapeMeaning l ds ++ t)

theorem Escaped.unique {e t u : Text} (h : Escaped e t) (h' : Escaped e u) : t = u := by
  induction h generalizing u with
  | nil =>
    cases h'
    rfl
  | plain hb _ ih =>
    cases h' with
    | plain _ h' => rw [ih h']
    | marked => exact absurd rfl hb
  | @marked l ds e t hlen _ ih =>
    generalize hx : '\\'.toUInt8 :: l :: (ds ++ e) = x at h'
    cases h' with
    | nil => cases hx
    | plain hb => exact absurd (List.cons.inj hx).1.symm hb
    | marked hlen' h' =>
      obtain ⟨rfl, hrest⟩ := List.cons.inj (List.cons.inj hx).2
      obtain ⟨rfl, rfl⟩ := List.append_inj hrest (hlen.trans hlen'.symm)
      rw [ih h']

theorem escaped_pieces (ps : List Piece) : Escaped (ps.flatMap (escapePiece '"')) (ps.flatMap Piece.bytes) := by
  induction ps with
  | nil => exact .nil
  | cons p ps ih =>
    rw [List.flatMap_cons, List.flatMap_cons]
    rcases escapePiece_cases p with ⟨he, hplain, -⟩ | ⟨l, ds, he, hlen, hmeans, -⟩
    · rw [he]
      revert hplain
      induction p.bytes with
      | nil => exact fun _ => ih
      | cons b bs ihb =>
        intro hplain
        obtain ⟨hb, hbs⟩ := not_or.mp (List.mem_cons.not.mp hplain)
        exact .plain (Ne.symm hb) (ihb hbs)
    · rw [he, ← hmeans]
      exact .marked hlen ih

theorem quoted_inj {s t : Text} (h : quoted s = quoted t) : s = t := by
  simp only [quoted, quoteWith, List.append_assoc] at h
  have hescaped := escaped_pieces (pieces s)
  rw [List.append_cancel_right (List.append_cancel_left h), flatMap_pieces] at hescaped
  rw [hescaped.unique (escaped_pieces (pieces t)), flatMap_pieces]

theorem newline_not_mem_quoted (s : Text) : '\n'.toUInt8 ∉ quoted s := by
  rw [quoted, quoteWith]
  simp only [List.mem_append, List.mem_flatMap, not_or, not_exists, not_and]
  refine ⟨⟨by decide, fun p _ hp => ?_⟩, by decide⟩
  rcases escapePiece_cases p with ⟨he, -, hplain⟩ | ⟨l, ds, he, -, -, hmarked⟩
  · exact hplain (he ▸ hp)
  · rw [he] at hp
    exact hmarked ((List.mem_cons.mp hp).resolve_left (by decide))

end Text

end Scriptlet

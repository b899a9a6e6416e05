/-
  Scriptlet.Proofs.Encoding — a text is what its pieces encode.

  A character that is read off the front of a text is encoded by the bytes it was read from
  (`front?_encodes`), so the pieces of a text make it up (`flatMap_pieces`). A text of characters that
  quoting leaves as they are is quoted by the quotes around it (`quoted_verbatim`).
-/

import Mathlib.Data.List.Basic
import Scriptlet.Text.Quoted

namespace Scriptlet

namespace Text

variable {b x y : UInt8} {r : Text} {c : Char}

theorem continuation_bounds (h : isContinuation b = true) : 128 ≤ b.toNat ∧ b.toNat < 192 := by
  have bounds : ∀ n < 256, isContinuation (UInt8.ofNat n) = true → 128 ≤ n ∧ n < 192 := by decide +kernel
  have hb := bounds b.toNat b.toNat_lt
  rw [UInt8.ofNat_toNat] at hb
  exact hb h

theorem ofNat_eq_byte {n : Nat} (h : n = b.toNat) : UInt8.ofNat n = b := by
  rw [h, UInt8.ofNat_toNat]

/-- The character is encoded by the bytes at the front, as many as its width says. -/
def Encodes (t : Text) (c : Char) (width : Nat) : Prop := ∃ r, t = ofChar c ++ r ∧ (ofChar c).length = width

theorem ofChar_narrow (h : b < 0x80) : ofChar (Char.ofNat b.toNat) = [b] := by
  have hb : b.toNat < 128 := h
  have hchar : (Char.ofNat b.toNat).val.toNat = b.toNat := by
    rw [Char.ofNat, dif_pos (.inl (by omega))]
    rfl
  rw [ofChar, String.utf8EncodeChar, hchar]
  simp only [show b.toNat ≤ 127 by omega, if_true, UInt8.ofNat_toNat]

theorem encodes_narrow (h : b < 0x80) : Encodes (b :: r) (Char.ofNat b.toNat) 1 :=
  ⟨r, by rw [ofChar_narrow h]; rfl, by rw [ofChar_narrow h]; rfl⟩

/-- A wide character: its continuation bytes are there, and its number is assembled from them. -/
theorem wide_some {lead base more least width : Nat}
    (h : front?.wide lead base more least r = some (c, width)) :
    ∃ tail s, r = tail ++ s ∧ tail.length = more ∧ width = more + 1 ∧ (∀ b ∈ tail, 128 ≤ b.toNat ∧ b.toNat < 192) ∧
      c.val.toNat = assemble (lead - base) tail ∧ least ≤ c.val.toNat := by
  unfold front?.wide at h
  dsimp only at h
  by_cases hall : ((r.take more).length = more && (r.take more).all isContinuation &&
      least ≤ assemble (lead - base) (r.take more)) = true
  · rw [if_pos hall] at h
    simp only [Bool.and_eq_true, decide_eq_true_eq, List.all_eq_true] at hall
    obtain ⟨⟨hlen, hcont⟩, hleast⟩ := hall
    by_cases hvalid : (assemble (lead - base) (r.take more)).isValidChar
    · rw [dif_pos hvalid] at h
      obtain ⟨rfl, rfl⟩ := Prod.mk.inj (Option.some.inj h)
      exact ⟨r.take more, r.drop more, (List.take_append_drop more r).symm, hlen, rfl,
        fun b hb => continuation_bounds (hcont b hb), rfl, hleast⟩
    · rw [dif_neg hvalid] at h
      cases h
  · rw [if_neg hall] at h
    cases h

theorem ofChar_two (hx : 192 ≤ x.toNat ∧ x.toNat < 224) (hy : 128 ≤ y.toNat ∧ y.toNat < 192)
    (hn : c.val.toNat = assemble (x.toNat - 192) [y]) (hleast : 128 ≤ c.val.toNat) : ofChar c = [x, y] := by
  simp only [assemble, List.foldl_cons, List.foldl_nil] at hn
  rw [ofChar, String.utf8EncodeChar]
  simp only [show ¬ c.val.toNat ≤ 127 by omega, show c.val.toNat ≤ 2047 by omega, if_true, if_false]
  rw [ofNat_eq_byte (b := x) (by omega), ofNat_eq_byte (b := y) (by omega)]

theorem ofChar_three {z : UInt8} (hx : 224 ≤ x.toNat ∧ x.toNat < 240)
    (hy : 128 ≤ y.toNat ∧ y.toNat < 192) (hz : 128 ≤ z.toNat ∧ z.toNat < 192)
    (hn : c.val.toNat = assemble (x.toNat - 224) [y, z]) (hleast : 2048 ≤ c.val.toNat) : ofChar c = [x, y, z] := by
  simp only [assemble, List.foldl_cons, List.foldl_nil] at hn
  rw [ofChar, String.utf8EncodeChar]
  simp only [show ¬ c.val.toNat ≤ 127 by omega, show ¬ c.val.toNat ≤ 2047 by omega, show c.val.toNat ≤ 65535 by omega,
    if_true, if_false]
  rw [ofNat_eq_byte (b := x) (by omega), ofNat_eq_byte (b := y) (by omega), ofNat_eq_byte (b := z) (by omega)]

theorem ofChar_four {w z : UInt8} (hw : 240 ≤ w.toNat ∧ w.toNat < 248)
    (hx : 128 ≤ x.toNat ∧ x.toNat < 192) (hy : 128 ≤ y.toNat ∧ y.toNat < 192) (hz : 128 ≤ z.toNat ∧ z.toNat < 192)
    (hn : c.val.toNat = assemble (w.toNat - 240) [x, y, z]) (hleast : 65536 ≤ c.val.toNat) :
    ofChar c = [w, x, y, z] := by
  simp only [assemble, List.foldl_cons, List.foldl_nil] at hn
  rw [ofChar, String.utf8EncodeChar]
  simp only [show ¬ c.val.toNat ≤ 127 by omega, show ¬ c.val.toNat ≤ 2047 by omega, show ¬ c.val.toNat ≤ 65535 by omega,
    if_false]
  rw [ofNat_eq_byte (b := w) (by omega), ofNat_eq_byte (b := x) (by omega), ofNat_eq_byte (b := y) (by omega),
    ofNat_eq_byte (b := z) (by omega)]

theorem encodes_of_eq {code : Text} (hcode : ofChar c = code) : Encodes (code ++ r) c code.length :=
  ⟨r, by rw [hcode], by rw [hcode]⟩

theorem front?_encodes {t : Text} {width : Nat} (h : front? t = some (c, width)) : Encodes t c width := by
  cases t with
  | nil => cases h
  | cons b r =>
    rw [front?] at h
    split at h
    · rename_i hnarrow
      cases h
      exact encodes_narrow hnarrow
    split at h
    · rename_i hlead
      simp only [Bool.and_eq_true, decide_eq_true_eq] at hlead
      obtain ⟨tail, s, rfl, hlen, rfl, hcont, hn, hleast⟩ := wide_some h
      obtain ⟨x, rfl⟩ := List.length_eq_one_iff.mp hlen
      exact encodes_of_eq (ofChar_two hlead (hcont x (by simp)) hn hleast)
    split at h
    · rename_i hlead
      simp only [Bool.and_eq_true, decide_eq_true_eq] at hlead
      obtain ⟨tail, s, rfl, hlen, rfl, hcont, hn, hleast⟩ := wide_some h
      obtain ⟨x, y, rfl⟩ := List.length_eq_two.mp hlen
      exact encodes_of_eq (ofChar_three hlead (hcont x (by simp)) (hcont y (by simp)) hn hleast)
    split at h
    · rename_i hlead
      simp only [Bool.and_eq_true, decide_eq_true_eq] at hlead
      obtain ⟨tail, s, rfl, hlen, rfl, hcont, hn, hleast⟩ := wide_some h
      obtain ⟨x, y, z, rfl⟩ := List.length_eq_three.mp hlen
      exact encodes_of_eq (ofChar_four hlead (hcont x (by simp)) (hcont y (by simp)) (hcont z (by simp)) hn hleast)
    · cases h

/-- The bytes behind those that belong to the piece before are made up of their pieces. -/
theorem flatMap_piecesFrom (skip : Nat) (t : Text) : (piecesFrom skip t).flatMap Piece.bytes = t.drop skip := by
  induction t generalizing skip with
  | nil => simp [piecesFrom]
  | cons b r ih =>
    cases skip with
    | succ k => exact ih k
    | zero =>
      rw [piecesFrom]
      cases hf : front? (b :: r) with
      | none => simp only [List.flatMap_cons, ih]; rfl
      | some x =>
        obtain ⟨c, width⟩ := x
        obtain ⟨s, ht, hwidth⟩ := front?_encodes hf
        simp only [List.flatMap_cons, ih, Piece.bytes, List.drop_zero]
        cases hcode : ofChar c with
        | nil => exact absurd hcode String.utf8EncodeChar_ne_nil
        | cons x code =>
          rw [hcode, List.cons_append] at ht
          obtain ⟨rfl, rfl⟩ := List.cons.inj ht
          rw [← hwidth, hcode, List.length_cons, Nat.add_sub_cancel, List.drop_left]
          rfl

/-- The pieces of a text make it up. -/
theorem flatMap_pieces (t : Text) : (pieces t).flatMap Piece.bytes = t := flatMap_piecesFrom 0 t

def isVerbatim (t : Text) : Bool := (pieces t).all fun p => escapePiece '"' p = p.bytes

theorem quoted_verbatim {t : Text} (h : t.isVerbatim = true) : quoted t = '"'.toUInt8 :: (t ++ ['"'.toUInt8]) := by
  have hescape : (pieces t).flatMap (escapePiece '"') = (pieces t).flatMap Piece.bytes := by
    refine List.flatMap_congr fun p hp => ?_
    exact of_decide_eq_true (List.all_eq_true.mp h p hp)
  rw [quoted, quoteWith, hescape, flatMap_pieces]
  rfl

end Text

end Scriptlet

/-
  Scriptlet.Proofs.Narrowing — numbers written in a narrower format are read back exactly.

  Rounding leaves a ratio that is a number already as it is (`Binary64.ofRatio_parts`). A format holds a
  number as a multiple of a power of two, and widening a word gives the number that denotes the same
  multiple. So what `narrow?` gives, `widen` takes back (`FloatFormat.widen_narrow?`).
-/

import Mathlib.Tactic.Ring
import Scriptlet.Number.Format

namespace Scriptlet

/-- Both products of a factor and a power of two are the same: `m * 2 ^ e = s * 2 ^ k`. -/
def SameProduct (m : Nat) (e : Int) (s : Nat) (k : Int) : Prop :=
  m * 2 ^ e.toNat * 2 ^ (-k).toNat = s * (2 ^ (-e).toNat * 2 ^ k.toNat)

/-- Two products of the same factor, with powers of two moved between factor and exponent. -/
theorem sameProduct_of_shifts (m : Nat) (e : Int) (i d : Nat) :
    SameProduct (m * 2 ^ i) (e - i) (m * 2 ^ d) (e - d) := by
  have he : i + (e - i).toNat + (-(e - d)).toNat = d + ((-(e - i)).toNat + (e - d).toNat) := by omega
  unfold SameProduct
  rw [Nat.mul_assoc m, Nat.mul_assoc m, Nat.mul_assoc m, ← Nat.pow_add, ← Nat.pow_add, ← Nat.pow_add, ← Nat.pow_add, he]

theorem log2_mul_two_pow {n : Nat} (hn : n ≠ 0) (i : Nat) : (n * 2 ^ i).log2 = n.log2 + i := by
  have hpos : 0 < 2 ^ i := Nat.two_pow_pos i
  refine (Nat.log2_eq_iff (Nat.mul_ne_zero hn hpos.ne')).mpr ⟨?_, ?_⟩
  · rw [Nat.pow_add]
    exact Nat.mul_le_mul_right _ (Nat.log2_self_le hn)
  · rw [show n.log2 + i + 1 = n.log2 + 1 + i by omega, Nat.pow_add]
    exact Nat.mul_lt_mul_of_pos_right Nat.lt_log2_self hpos

variable {x : Binary64}

namespace Binary64

/-! ## Signs and magnitudes -/

theorem withSign_magnitude (x : Binary64) : withSign x.isNegative x.magnitude = x := by
  obtain ⟨b⟩ := x
  have hb : b.toNat < 2 ^ 64 := b.toNat_lt
  unfold withSign isNegative magnitude
  congr 1
  apply UInt64.toNat_inj.mp
  rw [UInt64.toNat_ofNat']
  by_cases h : 2 ^ 63 ≤ b.toNat
  · simp only [h, decide_true, if_true]
    omega
  · simp only [h, decide_false, Bool.false_eq_true, if_false]
    omega

structure Fits (s : Nat) (k : Int) : Prop where
  least : -1074 ≤ k
  normal : 2 ^ 52 ≤ s ∨ k = -1074
  short : s < 2 ^ 53

theorem parts_fit (x : Binary64) : Fits x.parts.1 x.parts.2 := by
  unfold parts
  have := Nat.mod_lt x.magnitude (Nat.two_pow_pos 52)
  dsimp only
  split
  · exact ⟨by simp, .inr rfl, by omega⟩
  · exact ⟨by simp; omega, .inl (by simp), by simp; omega⟩

/-- The parts of a number make up its magnitude. -/
theorem magnitude_eq (x : Binary64) : x.magnitude = (x.parts.2 + 1074).toNat * 2 ^ 52 + x.parts.1 := by
  unfold parts
  have := Nat.div_add_mod x.magnitude (2 ^ 52)
  dsimp only
  split
  · rename_i h
    rw [h] at this
    simp
    omega
  · simp only
    omega

theorem parts_ne_zero (h : x.isZero = false) : x.parts.1 ≠ 0 := by
  intro hs
  have hm := magnitude_eq x
  have hfit := parts_fit x
  rcases hfit.normal with hn | hk
  · omega
  · rw [hs, hk] at hm
    simp [isZero] at h
    exact h hm

/-! ## Exact ratios -/

theorem roundDiv_mul (s : Nat) {d : Nat} (hd : 0 < d) : roundDiv (s * d) d = s := by
  unfold roundDiv
  simp [Nat.mul_div_cancel s hd, Nat.mul_mod_left, hd.ne]

section

variable {num b s : Nat} {k : Int}

/-- The logarithms of a ratio give that of the significand. -/
theorem log2_ratio (hs : s ≠ 0) (h : num * 2 ^ (-k).toNat = s * (2 ^ b * 2 ^ k.toNat)) :
    num ≠ 0 ∧ (num.log2 : Int) - (2 ^ b).log2 = s.log2 + k := by
  have hn : num ≠ 0 := by
    rintro rfl
    have : 0 < s * (2 ^ b * 2 ^ k.toNat) :=
      Nat.mul_pos (Nat.pos_of_ne_zero hs) (Nat.mul_pos (Nat.two_pow_pos _) (Nat.two_pow_pos _))
    omega
  have hlog := congrArg Nat.log2 h
  rw [← Nat.pow_add, log2_mul_two_pow hn, log2_mul_two_pow hs] at hlog
  refine ⟨hn, ?_⟩
  rw [Nat.log2_two_pow]
  omega

/-- The exponent that leaves 53 bits, or the least one, is that of the parts. -/
theorem exponent_ratio (hfit : Fits s k) (hs : s ≠ 0) (h : num * 2 ^ (-k).toNat = s * (2 ^ b * 2 ^ k.toNat)) :
    max (if 2 ^ 53 * 2 ^ b * 2 ^ ((num.log2 : Int) - (2 ^ b).log2 - 53).toNat
          ≤ num * 2 ^ (-((num.log2 : Int) - (2 ^ b).log2 - 53)).toNat
        then (num.log2 : Int) - (2 ^ b).log2 - 53 + 1 else (num.log2 : Int) - (2 ^ b).log2 - 53) (-1074) = k := by
  rw [(log2_ratio hs h).2]
  have hleast := hfit.least
  rcases hfit.normal with hn | hk
  · have hlog : s.log2 = 52 := (Nat.log2_eq_iff hs).mpr ⟨hn, hfit.short⟩
    rw [hlog]
    have hle : 2 ^ 53 * 2 ^ b * 2 ^ (((52 : Nat) : Int) + k - 53).toNat
        ≤ num * 2 ^ (-(((52 : Nat) : Int) + k - 53)).toNat := by
      by_cases hk : 1 ≤ k
      · have e : (((52 : Nat) : Int) + k - 53).toNat + 1 = k.toNat := by omega
        have e' : (-(((52 : Nat) : Int) + k - 53)).toNat = (-k).toNat := by omega
        rw [e', h, ← e]
        calc 2 ^ 53 * 2 ^ b * 2 ^ (((52 : Nat) : Int) + k - 53).toNat
            = 2 ^ 52 * (2 ^ b * 2 ^ ((((52 : Nat) : Int) + k - 53).toNat + 1)) := by
              rw [Nat.pow_succ 2 (((52 : Nat) : Int) + k - 53).toNat]
              ring
          _ ≤ s * (2 ^ b * 2 ^ ((((52 : Nat) : Int) + k - 53).toNat + 1)) := Nat.mul_le_mul_right _ hn
      · have e : (((52 : Nat) : Int) + k - 53).toNat = k.toNat := by omega
        have e' : (-(((52 : Nat) : Int) + k - 53)).toNat = (-k).toNat + 1 := by omega
        rw [e, e', Nat.pow_succ 2 (-k).toNat, ← Nat.mul_assoc, h]
        calc 2 ^ 53 * 2 ^ b * 2 ^ k.toNat = 2 ^ 52 * (2 ^ b * 2 ^ k.toNat) * 2 := by ring
          _ ≤ s * (2 ^ b * 2 ^ k.toNat) * 2 := Nat.mul_le_mul_right _ (Nat.mul_le_mul_right _ hn)
    rw [if_pos hle]
    omega
  · have hlog : s.log2 < 53 := (Nat.log2_lt hs).mpr hfit.short
    split <;> omega

end

theorem ofRatio_parts (hz : x.isZero = false) (hi : x.magnitude < infinityMagnitude) {num b : Nat}
    (h : num * 2 ^ (-x.parts.2).toNat = x.parts.1 * (2 ^ b * 2 ^ x.parts.2.toNat)) :
    ofRatio x.isNegative num (2 ^ b) = x := by
  have hs := parts_ne_zero hz
  have hd : 0 < 2 ^ b * 2 ^ x.parts.2.toNat := Nat.mul_pos (Nat.two_pow_pos _) (Nat.two_pow_pos _)
  unfold ofRatio
  rw [if_neg (log2_ratio hs h).1]
  dsimp only
  rw [exponent_ratio (parts_fit x) hs h, h, roundDiv_mul _ hd, ← magnitude_eq, Nat.min_eq_left hi.le]
  exact withSign_magnitude x

end Binary64

namespace FloatFormat

/-- Splitting off twos changes no product. -/
theorem stripTwos_spec (fuel : Nat) (s : Nat) (k : Int) :
    ∃ d : Nat, s = (stripTwos fuel (s, k)).1 * 2 ^ d ∧ k = (stripTwos fuel (s, k)).2 - d := by
  induction fuel generalizing s k with
  | zero => exact ⟨0, by simp [stripTwos], by simp [stripTwos]⟩
  | succ fuel ih =>
    rw [stripTwos]
    split
    · obtain ⟨d, hs, hk⟩ := ih (s / 2) (k + 1)
      refine ⟨d + 1, ?_, by omega⟩
      rw [Nat.pow_succ, ← Nat.mul_assoc, ← hs]
      omega
    · exact ⟨0, by simp, by simp⟩

variable {f : FloatFormat} {w : Nat}

/-- The factor and the exponent that a magnitude of the format stands for. -/
def significand (f : FloatFormat) (w : Nat) : Nat :=
  if w / 2 ^ f.fractionBits = 0 then w % 2 ^ f.fractionBits else w % 2 ^ f.fractionBits + 2 ^ f.fractionBits

def exponent (f : FloatFormat) (w : Nat) : Int := f.least + (w / 2 ^ f.fractionBits - 1 : Nat)

/-- What a word with a sign denotes. -/
theorem widen_eq (hw : w < f.signBit) (negative : Bool) :
    f.widen ((if negative then f.signBit else 0) + w) =
      if w / 2 ^ f.fractionBits = f.top then
        (if w % 2 ^ f.fractionBits = 0 then .infinity negative else .nan)
      else .ofRatio negative (f.significand w * 2 ^ (f.exponent w).toNat) (2 ^ (-(f.exponent w)).toNat) := by
  have hneg : decide (f.signBit ≤ (if negative then f.signBit else 0) + w) = negative := by
    cases negative with
    | false => simpa using hw
    | true => simp
  have hmod : ((if negative then f.signBit else 0) + w) % f.signBit = w := by
    cases negative with
    | false => simpa using Nat.mod_eq_of_lt hw
    | true => simpa using Nat.mod_eq_of_lt hw
  have hfrac : ((if negative then f.signBit else 0) + w) % 2 ^ f.fractionBits = w % 2 ^ f.fractionBits := by
    cases negative with
    | false => simp
    | true => simp [signBit, Nat.pow_add]
  unfold widen
  rw [hneg, hmod, hfrac]
  rfl

/-- The word with a field above zero and the rest of a factor that has one bit more than the fraction. -/
theorem field_split {m n b : Nat} (hn : 1 ≤ n) (hm : m ≠ 0) (hw : m.log2 ≤ b) :
    ((n - 1) * 2 ^ b + m * 2 ^ (b - m.log2)) / 2 ^ b = n ∧
      ((n - 1) * 2 ^ b + m * 2 ^ (b - m.log2)) % 2 ^ b + 2 ^ b = m * 2 ^ (b - m.log2) := by
  have hpow : 2 ^ m.log2 * 2 ^ (b - m.log2) = 2 ^ b := by rw [← Nat.pow_add, Nat.add_sub_cancel' hw]
  have hlo : 2 ^ b ≤ m * 2 ^ (b - m.log2) := by
    rw [← hpow]
    exact Nat.mul_le_mul_right _ (Nat.log2_self_le hm)
  have hhi : m * 2 ^ (b - m.log2) < 2 * 2 ^ b := by
    rw [← hpow, ← Nat.mul_assoc, Nat.mul_comm 2, ← Nat.pow_succ]
    exact Nat.mul_lt_mul_of_pos_right Nat.lt_log2_self (Nat.two_pow_pos _)
  generalize m * 2 ^ (b - m.log2) = M at hlo hhi
  have hsum : (n - 1) * 2 ^ b + M = (M - 2 ^ b) + 2 ^ b * n := by
    obtain ⟨j, rfl⟩ : ∃ j, n = j + 1 := ⟨n - 1, by omega⟩
    rw [Nat.add_sub_cancel, Nat.mul_succ, Nat.mul_comm j]
    omega
  have hlt : M - 2 ^ b < 2 ^ b := by omega
  rw [hsum, Nat.add_mul_div_left _ _ (Nat.two_pow_pos b), Nat.add_mul_mod_self_left, Nat.div_eq_of_lt hlt,
    Nat.mod_eq_of_lt hlt]
  omega

/-- The magnitude in the format stands for the same product as the parts of the number. -/
theorem magnitude?_spec (hf : 1 ≤ f.exponentBits) (hz : x.isZero = false) (h : f.magnitude? x = some w) :
    w < f.signBit ∧ w / 2 ^ f.fractionBits ≠ f.top ∧
      SameProduct (f.significand w) (f.exponent w) x.parts.1 x.parts.2 := by
  obtain ⟨d, hs, hk⟩ := stripTwos_spec 53 x.parts.1 x.parts.2
  have hne := Binary64.parts_ne_zero hz
  have htop : 2 ≤ 2 ^ f.exponentBits := by
    calc 2 = 2 ^ 1 := rfl
      _ ≤ 2 ^ f.exponentBits := Nat.pow_le_pow_right (by decide) hf
  have hsign : f.signBit = 2 ^ f.exponentBits * 2 ^ f.fractionBits := Nat.pow_add ..
  have hpos := Nat.two_pow_pos f.fractionBits
  unfold magnitude? at h
  rw [if_neg (by simp [hz])] at h
  generalize stripTwos 53 x.parts = p at h hs hk
  obtain ⟨m, e⟩ := p
  dsimp only at h hs hk
  have hm : m ≠ 0 := by
    rintro rfl
    rw [Nat.zero_mul] at hs
    exact hne hs
  split at h
  · rename_i hfield
    split at h
    · cases h
    · rename_i hleast
      cases h
      have hsmall : m * 2 ^ (e - f.least).toNat < 2 ^ f.fractionBits := by
        calc m * 2 ^ (e - f.least).toNat
            < 2 ^ (m.log2 + 1) * 2 ^ (e - f.least).toNat :=
              Nat.mul_lt_mul_of_pos_right Nat.lt_log2_self (Nat.two_pow_pos _)
          _ = 2 ^ (m.log2 + 1 + (e - f.least).toNat) := (Nat.pow_add ..).symm
          _ ≤ 2 ^ f.fractionBits := Nat.pow_le_pow_right (by decide) (by unfold least at hleast ⊢; omega)
      have hdiv : m * 2 ^ (e - f.least).toNat / 2 ^ f.fractionBits = 0 := Nat.div_eq_of_lt hsmall
      refine ⟨?_, ?_, ?_⟩
      · rw [hsign]
        exact Nat.lt_of_lt_of_le hsmall (Nat.le_mul_of_pos_left _ (by omega))
      · rw [hdiv]
        unfold top
        omega
      · rw [significand, if_pos hdiv, Nat.mod_eq_of_lt hsmall, exponent, hdiv, hs, hk]
        have hexp : f.least + ((0 - 1 : Nat) : Int) = e - ((e - f.least).toNat : Nat) := by omega
        rw [hexp]
        exact sameProduct_of_shifts m e _ d
  · rename_i hfield
    split at h
    · cases h
    · rename_i hfits
      cases h
      have hwidth : m.log2 ≤ f.fractionBits := by simp at hfits; omega
      have hbelow : e + m.log2 + f.bias < f.top := by simp at hfits; omega
      obtain ⟨hdiv, hmod⟩ := field_split (n := (e + m.log2 + f.bias).toNat) (by omega) hm hwidth
      generalize ((e + m.log2 + f.bias).toNat - 1) * 2 ^ f.fractionBits + m * 2 ^ (f.fractionBits - m.log2) = w
        at hdiv hmod
      refine ⟨?_, ?_, ?_⟩
      · rw [hsign, ← Nat.div_lt_iff_lt_mul hpos, hdiv]
        unfold top at hbelow
        omega
      · rw [hdiv]
        omega
      · rw [significand, if_neg (by omega), hmod, exponent, hdiv, hs, hk]
        have hexp : f.least + (((e + m.log2 + f.bias).toNat - 1 : Nat) : Int) = e - (f.fractionBits - m.log2 : Nat) := by
          unfold least
          omega
        rw [hexp]
        exact sameProduct_of_shifts m e _ d

/-- The magnitude of a number that is not too large, read back with the sign. -/
theorem widen_magnitude? (hf : 1 ≤ f.exponentBits) (hi : x.magnitude < Binary64.infinityMagnitude)
    (h : f.magnitude? x = some w) :
    w < f.signBit ∧ f.widen ((if x.isNegative then f.signBit else 0) + w) = x := by
  cases hz : x.isZero with
  | true =>
    have htop : 0 ≠ f.top := by
      have : 2 ^ 1 ≤ 2 ^ f.exponentBits := Nat.pow_le_pow_right (by decide) hf
      unfold top
      omega
    have hw : w = 0 := by
      unfold magnitude? at h
      simpa [hz, eq_comm] using h
    have hsign : 0 < f.signBit := Nat.two_pow_pos _
    subst hw
    refine ⟨hsign, ?_⟩
    rw [widen_eq hsign, Nat.zero_div, if_neg htop]
    have hm : x.magnitude = 0 := by simpa [Binary64.isZero] using hz
    have hsig : f.significand 0 = 0 := by simp [significand]
    rw [hsig, Nat.zero_mul, Binary64.ofRatio, if_pos rfl]
    conv_rhs => rw [← x.withSign_magnitude, hm]
  | false =>
    obtain ⟨hlt, htop, hsame⟩ := magnitude?_spec hf hz h
    refine ⟨hlt, ?_⟩
    rw [widen_eq hlt, if_neg htop]
    exact Binary64.ofRatio_parts hz hi hsame

/-- What was narrowed is read back. -/
theorem widen_narrow? (hf : 1 ≤ f.exponentBits) (h : f.narrow? x = some w) : w < 2 * f.signBit ∧ f.widen w = x := by
  cases hnan : x.isNaN with
  | true => simp [narrow?, hnan] at h
  | false =>
    cases hinf : x.isInfinite with
    | true =>
      have hm : x.magnitude = Binary64.infinityMagnitude := by simpa [Binary64.isInfinite] using hinf
      have hlt : f.top * 2 ^ f.fractionBits < f.signBit := by
        rw [signBit, Nat.pow_add]
        refine Nat.mul_lt_mul_of_pos_right ?_ (Nat.two_pow_pos _)
        have := Nat.two_pow_pos f.exponentBits
        unfold top
        omega
      simp only [narrow?, hnan, hinf, Bool.false_eq_true, if_false, if_true, Option.some.injEq] at h
      subst h
      refine ⟨by split <;> omega, ?_⟩
      rw [widen_eq hlt, Nat.mul_div_cancel _ (Nat.two_pow_pos _), if_pos rfl, Nat.mul_mod_left, if_pos rfl,
        Binary64.infinity, ← hm]
      exact x.withSign_magnitude
    | false =>
      have hi : x.magnitude < Binary64.infinityMagnitude := by
        simp only [Binary64.isNaN, Binary64.isInfinite, decide_eq_false_iff_not] at hnan hinf
        omega
      simp only [narrow?, hnan, hinf, Bool.false_eq_true, if_false] at h
      obtain ⟨v, hv, rfl⟩ := Option.map_eq_some_iff.mp h
      obtain ⟨hlt, hw⟩ := widen_magnitude? hf hi hv
      exact ⟨by split <;> omega, hw⟩

end FloatFormat

end Scriptlet

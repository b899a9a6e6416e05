/-
  Scriptlet.Proofs.Rounding — which quotients are rounded to infinity.

  (1) The exponent that `ofRatio` picks leaves the quotient with 53 bits (`normal_exponentOf`).
  (2) A quotient is rounded up to a power of two from half way between that power and the number below
      it on, the tie included, because the power is the even one of the two (`le_rounded_iff`).
  (3) So a decimal is rounded to infinity exactly from `overflow` on (`isInfinite_ofDecimal`).
-/

import Scriptlet.Proofs.Lexing

namespace Scriptlet

namespace Binary64

/-! ## (1) The exponent -/

/-- `num / den` lies between `2 ^ 52` and `2 ^ 53` times the power `2 ^ e`. -/
def Normal (num den : Nat) (e : Int) : Prop :=
  2 ^ 52 * (den * 2 ^ e.toNat) ≤ num * 2 ^ (-e).toNat ∧ num * 2 ^ (-e).toNat < 2 ^ 53 * (den * 2 ^ e.toNat)

def exponentOf (num den : Nat) : Int :=
  let rough : Int := (num.log2 : Int) - den.log2 - 53
  if 2 ^ 53 * den * 2 ^ rough.toNat ≤ num * 2 ^ (-rough).toNat then rough + 1 else rough

variable {den num : Nat}

theorem normal_exponentOf (hn : num ≠ 0) (hd : den ≠ 0) : Normal num den (exponentOf num den) := by
  obtain ⟨hn1, hn2⟩ := (Nat.log2_eq_iff hn).mp rfl
  obtain ⟨hd1, hd2⟩ := (Nat.log2_eq_iff hd).mp rfl
  unfold exponentOf
  dsimp only
  generalize num.log2 = a at *
  generalize den.log2 = b at *
  generalize hk : (a : Int) - b - 53 = k
  have lower : 2 ^ 52 * (den * 2 ^ k.toNat) ≤ num * 2 ^ (-k).toNat := by
    calc 2 ^ 52 * (den * 2 ^ k.toNat) ≤ 2 ^ 52 * (2 ^ (b + 1) * 2 ^ k.toNat) :=
          Nat.mul_le_mul_left _ (Nat.mul_le_mul_right _ (Nat.le_of_lt hd2))
      _ = 2 ^ (52 + (b + 1 + k.toNat)) := by rw [Nat.pow_add 2 52, Nat.pow_add 2 (b + 1)]
      _ = 2 ^ (a + (-k).toNat) := by congr 1; omega
      _ = 2 ^ a * 2 ^ (-k).toNat := Nat.pow_add ..
      _ ≤ num * 2 ^ (-k).toNat := Nat.mul_le_mul_right _ hn1
  have upper : num * 2 ^ (-k).toNat < 2 ^ 54 * (den * 2 ^ k.toNat) := by
    calc num * 2 ^ (-k).toNat < 2 ^ (a + 1) * 2 ^ (-k).toNat :=
          Nat.mul_lt_mul_of_pos_right hn2 (Nat.two_pow_pos _)
      _ = 2 ^ (a + 1 + (-k).toNat) := (Nat.pow_add ..).symm
      _ = 2 ^ (54 + (b + k.toNat)) := by congr 1; omega
      _ = 2 ^ 54 * (2 ^ b * 2 ^ k.toNat) := by rw [Nat.pow_add 2 54, Nat.pow_add 2 b]
      _ ≤ 2 ^ 54 * (den * 2 ^ k.toNat) := Nat.mul_le_mul_left _ (Nat.mul_le_mul_right _ hd1)
  by_cases hup : 2 ^ 53 * den * 2 ^ k.toNat ≤ num * 2 ^ (-k).toNat
  · rw [if_pos hup]
    rw [Nat.mul_assoc] at hup
    unfold Normal
    rcases Int.lt_or_le k 0 with hneg | hpos
    · -- below one, a step up halves the numerator
      have e1 : k.toNat = 0 := by omega
      have e2 : (k + 1).toNat = 0 := by omega
      have e3 : (-k).toNat = (-(k + 1)).toNat + 1 := by omega
      have twice : num * 2 ^ (-k).toNat = 2 * (num * 2 ^ (-(k + 1)).toNat) := by rw [e3, Nat.pow_succ]; ac_rfl
      rw [e1, twice] at hup upper
      rw [e2]
      omega
    · -- from one on, it doubles the denominator
      have e1 : (-k).toNat = 0 := by omega
      have e2 : (-(k + 1)).toNat = 0 := by omega
      have e3 : (k + 1).toNat = k.toNat + 1 := by omega
      have twice : den * 2 ^ (k + 1).toNat = 2 * (den * 2 ^ k.toNat) := by rw [e3, Nat.pow_succ]; ac_rfl
      rw [e1] at hup upper
      rw [e2, twice]
      omega
  · rw [if_neg hup]
    rw [Nat.mul_assoc] at hup
    exact ⟨lower, Nat.lt_of_not_le hup⟩

/-! ## (2) Rounding up to a power of two -/

theorem roundDiv_le {q : Nat} (h : num < q * den) : roundDiv num den ≤ q := by
  have hq : num / den < q := Nat.div_lt_of_lt_mul (by rwa [Nat.mul_comm])
  unfold roundDiv
  dsimp only
  split <;> omega

theorem le_roundDiv {q : Nat} (hd : 0 < den) (h : q * den ≤ num) : q ≤ roundDiv num den := by
  have hq : q ≤ num / den := (Nat.le_div_iff_mul_le hd).mpr h
  unfold roundDiv
  dsimp only
  split <;> omega

/-- From half way below an even number on, the quotient is rounded up to it, and before that it is not. -/
theorem even_le_roundDiv {n : Nat} (hd : 0 < den) (hn : 0 < n) (heven : n % 2 = 0) (hlt : num < n * den) :
    n ≤ roundDiv num den ↔ (2 * n - 1) * den ≤ 2 * num := by
  obtain ⟨q, rfl⟩ : ∃ q, n = q + 1 := ⟨n - 1, by omega⟩
  have hodd : 2 * (q + 1) - 1 = 2 * q + 1 := by omega
  rw [hodd]
  have hdiv := Nat.div_add_mod num den
  have hmod := Nat.mod_lt num hd
  have hle : num / den < q + 1 := Nat.div_lt_of_lt_mul (by rwa [Nat.mul_comm])
  unfold roundDiv
  dsimp only
  rcases Nat.lt_or_eq_of_le (Nat.le_of_lt_succ hle) with hsmall | heq
  · have hcap : den * (num / den) + den ≤ q * den := by
      rw [← Nat.mul_succ, Nat.mul_comm q]
      exact Nat.mul_le_mul_left den hsmall
    have e : (2 * q + 1) * den = 2 * (q * den) + den := by rw [Nat.add_mul, Nat.mul_assoc, Nat.one_mul]
    constructor
    · intro h
      split at h <;> omega
    · intro h
      omega
  · have e : (2 * q + 1) * den = 2 * (den * (num / den)) + den := by
      rw [heq, Nat.add_mul, Nat.mul_assoc, Nat.one_mul, Nat.mul_comm q]
    rw [heq]
    constructor
    · intro h
      split at h
      · rename_i hcase
        simp only [Bool.or_eq_true, Bool.and_eq_true, decide_eq_true_eq] at hcase
        omega
      · omega
    · intro h
      have hcase : (den < 2 * (num % den) || (2 * (num % den) = den && q % 2 = 1)) = true := by
        simp only [Bool.or_eq_true, Bool.and_eq_true, decide_eq_true_eq]
        omega
      exact Nat.le_of_eq (if_pos hcase).symm

/-- Half way between the power `2 ^ (k + 54)` and the number below it. -/
def belowPower (k : Nat) : Nat := (2 ^ 54 - 1) * 2 ^ k

theorem belowPower_pos (k : Nat) : 0 < belowPower k := Nat.mul_pos (by decide) (Nat.two_pow_pos k)

/-- The magnitude to which a quotient is rounded, before infinity takes the place of all beyond it. -/
def rounded (num den : Nat) (e : Int) : Nat :=
  (e + 1074).toNat * 2 ^ 52 + roundDiv (num * 2 ^ (-e).toNat) (den * 2 ^ e.toNat)

section

variable {k : Nat} {e : Int}

theorem rounded_natCast (num den n : Nat) :
    rounded num den n = (n + 1074) * 2 ^ 52 + roundDiv num (den * 2 ^ n) := by
  have hbase : ((n : Int) + 1074).toNat = n + 1074 := by omega
  rw [rounded, hbase, Int.toNat_neg_natCast, Int.toNat_natCast, Nat.pow_zero, Nat.mul_one]

theorem rounded_lt (he : e ≤ k) (h : num * 2 ^ (-e).toNat < 2 ^ 53 * (den * 2 ^ e.toNat)) :
    rounded num den e < (k + 1077) * 2 ^ 52 ∧ num < belowPower k * den := by
  refine ⟨?_, ?_⟩
  · have hq := roundDiv_le h
    unfold rounded
    omega
  · have hpow : 2 ^ e.toNat ≤ 2 ^ k := Nat.pow_le_pow_right (by decide) (by omega)
    calc num ≤ num * 2 ^ (-e).toNat := Nat.le_mul_of_pos_right _ (Nat.two_pow_pos _)
      _ < 2 ^ 53 * (den * 2 ^ e.toNat) := h
      _ ≤ (2 ^ 54 - 1) * (den * 2 ^ k) := Nat.mul_le_mul (by decide) (Nat.mul_le_mul_left den hpow)
      _ = belowPower k * den := by rw [belowPower, Nat.mul_comm den, Nat.mul_assoc]

theorem le_rounded_succ_iff (hd : 0 < den) (h : num < 2 ^ 53 * (den * 2 ^ (k + 1))) :
    (k + 1077) * 2 ^ 52 ≤ rounded num den (k + 1 : Nat) ↔ belowPower k * den ≤ num := by
  have hrounds := even_le_roundDiv (Nat.mul_pos hd (Nat.two_pow_pos (k + 1))) (by decide) (by decide) h
  have hdouble (m : Nat) : m * (den * 2 ^ (k + 1)) = 2 * (m * 2 ^ k * den) := by
    rw [Nat.pow_succ]
    ac_rfl
  have hhalf : (2 * 2 ^ 53 - 1) * (den * 2 ^ (k + 1)) = 2 * (belowPower k * den) := hdouble (2 ^ 54 - 1)
  have hrounds' : 2 ^ 53 ≤ roundDiv num (den * 2 ^ (k + 1)) ↔ belowPower k * den ≤ num := by
    rw [hrounds, hhalf]
    exact Nat.mul_le_mul_left_iff Nat.two_pos
  have htop : k + 1077 = k + 1 + 1074 + 2 := rfl
  rw [rounded_natCast, ← hrounds', htop, Nat.add_mul (k + 1 + 1074)]
  exact Nat.add_le_add_iff_left

theorem le_rounded (he : (k : Int) + 2 ≤ e) (hd : 0 < den) (h : 2 ^ 52 * (den * 2 ^ e.toNat) ≤ num * 2 ^ (-e).toNat) :
    (k + 1077) * 2 ^ 52 ≤ rounded num den e ∧ belowPower k * den ≤ num := by
  refine ⟨?_, ?_⟩
  · have hbase : k + 1076 ≤ (e + 1074).toNat := by omega
    have hq := le_roundDiv (Nat.mul_pos hd (Nat.two_pow_pos e.toNat)) h
    calc (k + 1077) * 2 ^ 52 = (k + 1076) * 2 ^ 52 + 2 ^ 52 := Nat.succ_mul (k + 1076) _
      _ ≤ rounded num den e := Nat.add_le_add (Nat.mul_le_mul_right _ hbase) hq
  · have hexp : (-e).toNat = 0 := by omega
    have hpow : 2 ^ (k + 2) ≤ 2 ^ e.toNat := Nat.pow_le_pow_right (by decide) (by omega)
    have hscale (m : Nat) : m * 2 ^ 2 * (den * 2 ^ k) = m * (den * 2 ^ (k + 2)) := by
      rw [Nat.pow_add 2 k 2]
      ac_rfl
    rw [hexp, Nat.pow_zero, Nat.mul_one] at h
    calc belowPower k * den = (2 ^ 54 - 1) * (den * 2 ^ k) := by rw [belowPower, Nat.mul_comm den, Nat.mul_assoc]
      _ ≤ 2 ^ 54 * (den * 2 ^ k) := Nat.mul_le_mul_right _ (by decide)
      _ = 2 ^ 52 * (den * 2 ^ (k + 2)) := hscale (2 ^ 52)
      _ ≤ 2 ^ 52 * (den * 2 ^ e.toNat) := Nat.mul_le_mul_left _ (Nat.mul_le_mul_left _ hpow)
      _ ≤ num := h

/-- Rounding carries to the power of two from half way below it on. -/
theorem le_rounded_iff (hn : num ≠ 0) (hd : 0 < den) :
    (k + 1077) * 2 ^ 52 ≤ rounded num den (max (exponentOf num den) (-1074)) ↔ belowPower k * den ≤ num := by
  obtain ⟨hlow, hhigh⟩ := normal_exponentOf hn (Nat.ne_of_gt hd)
  generalize exponentOf num den = e at *
  have split : e ≤ k ∨ e = (k + 1 : Nat) ∨ (k : Int) + 2 ≤ e := by omega
  rcases split with hle | rfl | hge
  · have hbelow : num * 2 ^ (-(max e (-1074))).toNat < 2 ^ 53 * (den * 2 ^ (max e (-1074)).toNat) := by
      rcases Int.le_total e (-1074) with hsub | hnormal
      · -- with the least exponent the quotient has fewer bits
        have hpow : 2 ^ (-(-1074 : Int)).toNat ≤ 2 ^ (-e).toNat := Nat.pow_le_pow_right (by decide) (by omega)
        have hzero : e.toNat = (-1074 : Int).toNat := by omega
        rw [Int.max_eq_right hsub, ← hzero]
        exact Nat.lt_of_le_of_lt (Nat.mul_le_mul_left num hpow) hhigh
      · rwa [Int.max_eq_left hnormal]
    have hrounded := rounded_lt (k := k) (by omega) hbelow
    omega
  · rw [Int.max_eq_left (by omega)]
    have hexp : (-((k + 1 : Nat) : Int)).toNat = 0 := by omega
    rw [hexp, Nat.pow_zero, Nat.mul_one, Int.toNat_natCast] at hhigh
    exact le_rounded_succ_iff hd hhigh
  · rw [Int.max_eq_left (by omega)]
    have hrounded := le_rounded hge hd hlow
    exact iff_of_true hrounded.1 hrounded.2

end

/-! ## (3) Infinity -/

theorem isInfinite_withSign (negative : Bool) (n : Nat) :
    (withSign negative (min n infinityMagnitude)).isInfinite = true ↔ infinityMagnitude ≤ n := by
  rw [isInfinite, magnitude_withSign negative (Nat.min_le_right _ _), decide_eq_true_iff]
  omega

/-- Where rounding starts to give infinity: half way between the largest number and the power of two above it. -/
def overflow : Nat := belowPower 970

theorem isInfinite_ofRatio (negative : Bool) (hn : num ≠ 0) (hd : 0 < den) :
    (ofRatio negative num den).isInfinite = true ↔ overflow * den ≤ num := by
  have hof : ofRatio negative num den =
      withSign negative (min (rounded num den (max (exponentOf num den) (-1074))) infinityMagnitude) := by
    rw [ofRatio, if_neg hn]
    rfl
  have hinf : infinityMagnitude = (970 + 1077) * 2 ^ 52 := by decide
  rw [hof, isInfinite_withSign, hinf, overflow]
  exact le_rounded_iff hn hd

theorem isInfinite_zero (negative : Bool) : (withSign negative 0).isInfinite = false := by
  have h := isInfinite_withSign negative 0
  rw [Nat.zero_min] at h
  simpa [infinityMagnitude] using h

/-- A decimal `n * 10 ^ -p` is rounded to infinity from the same bound on. -/
theorem isInfinite_ofDecimal (negative : Bool) (n p : Nat) :
    (ofDecimal negative n (-(p : Int))).isInfinite = true ↔ overflow * 10 ^ p ≤ n := by
  have hbound : 10 ^ p ≤ overflow * 10 ^ p := Nat.le_mul_of_pos_left _ (belowPower_pos 970)
  have hpos : 0 < 10 ^ p := Nat.pow_pos (by decide)
  unfold ofDecimal
  by_cases hn : n = 0
  · rw [if_pos hn, isInfinite_zero]
    exact iff_of_false Bool.false_ne_true (by omega)
  rw [if_neg hn, if_neg (by omega)]
  by_cases htiny : -(p : Int) + n.log2 < -400
  · -- so many digits behind the point make the number less than one
    have hlt : n < 10 ^ p := by
      calc n < 2 ^ (n.log2 + 1) := Nat.lt_log2_self
        _ ≤ 2 ^ p := Nat.pow_le_pow_right (by decide) (by omega)
        _ ≤ 10 ^ p := Nat.pow_le_pow_left (by decide) p
    rw [if_pos htiny, isInfinite_zero]
    exact iff_of_false Bool.false_ne_true (by omega)
  · have hexp : (-(p : Int)).toNat = 0 := Int.toNat_neg_natCast p
    have hplaces : (-(-(p : Int))).toNat = p := by omega
    rw [if_neg htiny, hexp, hplaces, Nat.pow_zero, Nat.mul_one]
    exact isInfinite_ofRatio negative hn hpos

end Binary64

end Scriptlet

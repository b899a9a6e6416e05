/-
  Scriptlet.Proofs.Shortest — a number is told by its shortest digits.

  (1) The grid of `10 ^ -329` is fine enough for every number, so a point that rounds to the number is found
      (`shortest_near`). No decimal rounds to two numbers (`Near.not_lt`).
  (2) The text of a decimal is read as the same decimal (`readUnsigned?_render`).
  (3) So different numbers have different texts (`render_inj`).
-/

import Scriptlet.Proofs.Narrowing
import Scriptlet.Proofs.Spelling

namespace Scriptlet

open Text

namespace Binary64

/-! ## (1) Decimals that round to a number -/

section

variable {m unit scale down c : Nat}

/-- Does the multiple of the unit round to the number that is `4 * m` on the scale? -/
def isInside (m unit scale down c : Nat) : Bool :=
  if m % 2 = 0 then (4 * m - down) * scale ≤ c * unit && c * unit ≤ (4 * m + 2) * scale
  else (4 * m - down) * scale < c * unit && c * unit < (4 * m + 2) * scale

theorem isInside_iff : isInside m unit scale down c = true ↔
    ((4 * m - down) * scale ≤ c * unit ∧ c * unit ≤ (4 * m + 2) * scale) ∧
      (m % 2 = 1 → (4 * m - down) * scale ≠ c * unit ∧ c * unit ≠ (4 * m + 2) * scale) := by
  unfold isInside
  split <;> simp only [Bool.and_eq_true, decide_eq_true_eq] <;> omega

theorem isInside_mul {k : Nat} (hk : 0 < k) : isInside m (unit * k) (scale * k) down c = isInside m unit scale down c := by
  simp only [isInside, ← Nat.mul_assoc, Nat.mul_le_mul_right_iff hk, Nat.mul_lt_mul_right hk]

/-- With a unit that is small enough both neighbours round to it. -/
theorem isInside_neighbour (hm : m ≠ 0) (hdown : 1 ≤ down) (hu : 0 < unit) (h : unit ≤ scale)
    (hc : c = 4 * m * scale / unit ∨ c = 4 * m * scale / unit + 1) : isInside m unit scale down c = true := by
  have hdiv := Nat.div_add_mod (4 * m * scale) unit
  have hmod := Nat.mod_lt (4 * m * scale) hu
  have hlow : (4 * m - down) * scale + scale ≤ 4 * m * scale := by
    rw [← Nat.succ_mul]
    exact Nat.mul_le_mul_right _ (by omega)
  have hpoint : 4 * m * scale < c * unit + unit ∧ c * unit ≤ 4 * m * scale + unit := by
    rw [Nat.mul_comm unit] at hdiv
    generalize 4 * m * scale / unit = q at *
    rcases hc with rfl | rfl
    · omega
    · rw [Nat.add_mul, Nat.one_mul]
      omega
  rw [isInside_iff, Nat.add_mul]
  omega

end

variable {m m' c c' : Nat} {e e' p p' : Int}

/-- How far the interval of a number reaches down, in quarters of its last place. -/
def reach (m : Nat) (e : Int) : Nat := if m = hiddenBit && -1074 < e then 1 else 2

theorem gridPoint?_eq (m : Nat) (e p : Int) :
    let unit := 10 ^ p.toNat * 2 ^ (2 - e).toNat
    let scale := 10 ^ (-p).toNat * 2 ^ (e - 2).toNat
    let inside := isInside m unit scale (reach m e)
    let q := 4 * m * scale / unit
    ∃ a b, (a = q ∨ a = q + 1) ∧ gridPoint? m e p = if inside a then some a else if inside b then some b else none := by
  intro unit scale inside q
  have hpoint : ∃ lower : Bool, gridPoint? m e p =
      let r := if lower then (q, q + 1) else (q + 1, q)
      if inside r.1 then some r.1 else if inside r.2 then some r.2 else none :=
    ⟨2 * (4 * m * scale % unit) < unit || (2 * (4 * m * scale % unit) = unit && q % 2 = 0), rfl⟩
  obtain ⟨lower, hpoint⟩ := hpoint
  cases lower with
  | true => exact ⟨q, q + 1, .inl rfl, hpoint⟩
  | false => exact ⟨q + 1, q, .inr rfl, hpoint⟩

/-- The decimal `c * 10 ^ p` rounds to `m * 2 ^ e`. The scale is the same for all numbers: both are counted in units of
    `10 ^ -330 * 2 ^ -1076`. -/
def Near (m : Nat) (e : Int) (c : Nat) (p : Int) : Prop :=
  isInside m (10 ^ (p + 330).toNat * 2 ^ 1076) (2 ^ (e + 1074).toNat * 10 ^ 330) (reach m e) c = true

theorem near_of_gridPoint (he : -1074 ≤ e) (hp : -330 ≤ p) (h : gridPoint? m e p = some c) : Near m e c p := by
  have hunit : 10 ^ p.toNat * 2 ^ (2 - e).toNat * (10 ^ (330 - (-p).toNat) * 2 ^ (1076 - (2 - e).toNat)) =
      10 ^ (p + 330).toNat * 2 ^ 1076 := by
    rw [show (p + 330).toNat = p.toNat + (330 - (-p).toNat) by omega,
      show (1076 : Nat) = (2 - e).toNat + (1076 - (2 - e).toNat) by omega, Nat.pow_add, Nat.pow_add,
      Nat.add_sub_cancel_left]
    ac_rfl
  have hscale : 10 ^ (-p).toNat * 2 ^ (e - 2).toNat * (10 ^ (330 - (-p).toNat) * 2 ^ (1076 - (2 - e).toNat)) =
      2 ^ (e + 1074).toNat * 10 ^ 330 := by
    rw [show (e + 1074).toNat = (e - 2).toNat + (1076 - (2 - e).toNat) by omega,
      show (330 : Nat) = (-p).toNat + (330 - (-p).toNat) by omega, Nat.pow_add, Nat.pow_add, Nat.add_sub_cancel_left]
    ac_rfl
  have hpos : 0 < 10 ^ (330 - (-p).toNat) * 2 ^ (1076 - (2 - e).toNat) :=
    Nat.mul_pos (Nat.pow_pos (by decide)) (Nat.two_pow_pos _)
  rw [Near, ← hunit, ← hscale, isInside_mul hpos]
  obtain ⟨a, b, -, hpoint⟩ := gridPoint?_eq m e p
  rw [hpoint] at h
  split at h
  · rename_i ha
    cases h
    exact ha
  split at h
  · rename_i hb
    cases h
    exact hb
  · cases h

theorem gridPoint?_fine (hm : m ≠ 0) (he : -1074 ≤ e) : (gridPoint? m e (-329)).isSome = true := by
  obtain ⟨a, b, ha, hpoint⟩ := gridPoint?_eq m e (-329)
  have hfine : 10 ^ (-329 : Int).toNat * 2 ^ (2 - e).toNat ≤ 10 ^ (-(-329) : Int).toNat * 2 ^ (e - 2).toNat := by
    rw [show (-329 : Int).toNat = 0 from rfl, show (-(-329) : Int).toNat = 329 from rfl, Nat.pow_zero, Nat.one_mul]
    calc 2 ^ (2 - e).toNat ≤ 2 ^ 1076 := Nat.pow_le_pow_right (by decide) (by omega)
      _ ≤ 10 ^ 329 := by decide +kernel
      _ ≤ 10 ^ 329 * 2 ^ (e - 2).toNat := Nat.le_mul_of_pos_right _ (Nat.two_pow_pos _)
  have hreach : 1 ≤ reach m e := by unfold reach; split <;> decide
  rw [hpoint, isInside_neighbour hm hreach (Nat.mul_pos (by decide) (Nat.two_pow_pos _)) hfine ha]
  rfl

theorem coarsest_spec {n j : Nat} (hj : j < n) (h : (gridPoint? m e (p - j)).isSome = true) :
    gridPoint? m e (coarsest m e n p).2 = some (coarsest m e n p).1 ∧ p - n < (coarsest m e n p).2 := by
  induction n generalizing p j with
  | zero => omega
  | succ n ih =>
    rw [coarsest]
    cases hc : gridPoint? m e p with
    | some c => exact ⟨hc, by dsimp only; omega⟩
    | none =>
      cases j with
      | zero => simp [hc] at h
      | succ j =>
        obtain ⟨hpoint, hlow⟩ := ih (p := p - 1) (Nat.lt_of_succ_lt_succ hj) (by
          rwa [show p - 1 - (j : Int) = p - ((j + 1 : Nat) : Int) by omega])
        exact ⟨hpoint, by dsimp only; omega⟩

/-- The shortest decimal of a number rounds to it. -/
theorem shortest_near {x : Binary64} (h : x.isZero = false) :
    -330 ≤ x.shortest.2 ∧ Near x.parts.1 x.parts.2 x.shortest.1 x.shortest.2 := by
  have hfit := parts_fit x
  unfold shortest
  dsimp only
  generalize (Nat.toDigits 10 (x.parts.1 * 2 ^ x.parts.2.toNat / 2 ^ (-x.parts.2).toNat)).length = start
  obtain ⟨hpoint, hlow⟩ := coarsest_spec (m := x.parts.1) (e := x.parts.2) (n := start + 330) (j := start + 329)
    (p := start) (by omega) (by
      rw [show (start : Int) - ((start + 329 : Nat) : Int) = -329 by omega]
      exact gridPoint?_fine (parts_ne_zero h) hfit.least)
  have hleast : -330 ≤ (coarsest x.parts.1 x.parts.2 (start + 330) start).2 := by omega
  exact ⟨hleast, near_of_gridPoint hfit.least hleast hpoint⟩

/-- The interval of a number ends where that of the next one starts, if not before. -/
theorem gap {k k' : Nat} (h : Fits m (k - 1074)) (h' : Fits m' (k' - 1074)) (hlt : k * 2 ^ 52 + m < k' * 2 ^ 52 + m') :
    (4 * m + 2) * 2 ^ k ≤ (4 * m' - reach m' (k' - 1074)) * 2 ^ k' ∧
      ((4 * m + 2) * 2 ^ k = (4 * m' - reach m' (k' - 1074)) * 2 ^ k' → m % 2 = 1 ∨ m' % 2 = 1) := by
  have hshort := h.short
  have hshort' := h'.short
  have hnormal := h.normal
  have hnormal' := h'.normal
  have hreach : reach m' (k' - 1074) = if m' = 2 ^ 52 ∧ 0 < k' then 1 else 2 := by
    unfold reach
    refine if_congr ?_ rfl rfl
    rw [Bool.and_eq_true, decide_eq_true_eq, decide_eq_true_eq, hiddenBit]
    omega
  obtain ⟨j, rfl⟩ : ∃ j, k' = k + j := ⟨k' - k, by omega⟩
  have hquarters : 4 * m + 2 ≤ (4 * m' - reach m' ((k + j : Nat) - 1074)) * 2 ^ j ∧
      (4 * m + 2 = (4 * m' - reach m' ((k + j : Nat) - 1074)) * 2 ^ j → m % 2 = 1 ∨ m' % 2 = 1) := by
    rw [hreach]
    cases j with
    | zero => split <;> omega
    | succ j =>
      have hpow := Nat.two_pow_pos j
      have hdouble : (4 * m' - if m' = 2 ^ 52 ∧ 0 < k + (j + 1) then 1 else 2) * 2 ≤
          (4 * m' - if m' = 2 ^ 52 ∧ 0 < k + (j + 1) then 1 else 2) * 2 ^ (j + 1) :=
        Nat.mul_le_mul_left _ (by rw [Nat.pow_succ]; omega)
      split at hdouble <;> split <;> omega
  rw [Nat.pow_add, ← Nat.mul_assoc, Nat.mul_right_comm]
  exact ⟨Nat.mul_le_mul_right _ hquarters.1, fun he => hquarters.2 (Nat.eq_of_mul_eq_mul_right (Nat.two_pow_pos k) he)⟩

/-- A decimal rounds to no larger number than another that it rounds to. -/
theorem Near.not_lt (h : Near m e c p) (h' : Near m' e' c' p') (hm : Fits m e) (hm' : Fits m' e')
    (hsame : c * 10 ^ (p + 330).toNat = c' * 10 ^ (p' + 330).toNat) :
    ¬ (e + 1074).toNat * 2 ^ 52 + m < (e' + 1074).toNat * 2 ^ 52 + m' := by
  have hk (k : Nat) : ((k : Int) - 1074 + 1074).toNat = k := by omega
  have hplace {s : Nat} {e : Int} (hs : Fits s e) : ∃ k : Nat, e = k - 1074 := ⟨(e + 1074).toNat, by have := hs.least; omega⟩
  obtain ⟨k, rfl⟩ := hplace hm
  obtain ⟨k', rfl⟩ := hplace hm'
  rw [hk, hk]
  intro hlt
  obtain ⟨hgap, hodd⟩ := gap hm hm' hlt
  have hpos : 0 < 10 ^ 330 := by positivity
  unfold Near at h h'
  generalize 10 ^ 330 = t at *
  rw [isInside_iff, hk] at h h'
  simp only [← Nat.mul_assoc] at h h'
  rw [hsame] at h
  obtain ⟨⟨-, hhigh⟩, hopen⟩ := h
  obtain ⟨⟨hlow, -⟩, hopen'⟩ := h'
  have hscaled := Nat.mul_le_mul_right t hgap
  have hequal := Nat.eq_of_mul_eq_mul_right hpos (Nat.le_antisymm hscaled (hlow.trans hhigh))
  rcases hodd hequal with hodd | hodd
  · exact (hopen hodd).2 (Nat.le_antisymm hhigh (hscaled.trans hlow))
  · exact (hopen' hodd).1 (Nat.le_antisymm hlow (hhigh.trans hscaled))

end Binary64

/-! ## (2) The text of a decimal -/

namespace Text

theorem placeValue_append (ds fs : Text) : placeValue (ds ++ fs) = placeValue ds * 10 ^ fs.length + placeValue fs := by
  rw [placeValue, List.reverse_append, List.map_append, Nat.ofDigits_append, List.length_map, List.length_reverse,
    Nat.mul_comm, Nat.add_comm]
  rfl

theorem placeValue_zeros (k : Nat) : placeValue (List.replicate k '0'.toUInt8) = 0 := by
  induction k with
  | zero => rfl
  | succ k ih =>
    rw [List.replicate_succ', placeValue_append, ih, Nat.zero_mul]
    rfl

theorem placeValue_padded (k : Nat) (ds : Text) : placeValue (List.replicate k '0'.toUInt8 ++ ds) = placeValue ds := by
  rw [placeValue_append, placeValue_zeros, Nat.zero_mul, Nat.zero_add]

end Text

namespace Decimal

open Pattern (Digits)

theorem readInt?_sign {ds : Text} {e : Int} (hne : ds ≠ []) (hds : Digits ds) (h : placeValue ds = e.natAbs) :
    readInt? ((if e < 0 then '-'.toUInt8 else '+'.toUInt8) :: ds) = some e := by
  have hsign : sign ((if e < 0 then '-'.toUInt8 else '+'.toUInt8) :: ds) = (decide (e < 0), ds) := by
    by_cases he : e < 0 <;> simp only [he] <;> rfl
  rw [readInt?, hsign]
  simp only [passes_digits hne hds, digitsValue_eq_placeValue, h, Bool.false_eq_true, if_false, decide_eq_true_eq,
    Option.some.injEq]
  split <;> omega

theorem digits_zeros (k : Nat) : Digits (List.replicate k '0'.toUInt8) := by
  intro b hb
  rw [List.eq_of_mem_replicate hb]
  rfl

theorem sign_of_readUnsigned? {t : Text} {r : Nat × Int} (h : readUnsigned? t = some r) : sign t = (false, t) := by
  cases t with
  | nil => rfl
  | cons b t =>
    have hminus : readUnsigned? ('-'.toUInt8 :: t) = none := rfl
    have hplus : readUnsigned? ('+'.toUInt8 :: t) = none := rfl
    have hb : b ≠ '-'.toUInt8 ∧ b ≠ '+'.toUInt8 := by
      constructor <;> (rintro rfl; simp_all)
    simp only [sign, hb, if_false]

end Decimal

namespace NumberLayout

open Decimal (Figures readUnsigned? readUnsigned?_of_figures digits_zeros)

variable (c : Nat) (p : Int)

/-- The digits of the coefficient with a point among them. -/
theorem figures_split (n : Nat) :
    Figures ((ofNat c).take n ++ "." ++ (ofNat c).drop n) c ((ofNat c).length - n) := by
  have h := @Figures.point ((ofNat c).take n) ((ofNat c).drop n)
  rw [List.take_append_drop, placeValue_ofNat, List.length_drop] at h
  rw [List.append_assoc]
  exact h (ofNat_ne_nil c) isDigit_of_mem_ofNat

theorem readUnsigned?_positional :
    ∃ k : Nat, readUnsigned? (positional (ofNat c) (p + (ofNat c).length)) = some (c * 10 ^ k, p - k) := by
  have hdigits := isDigit_of_mem_ofNat (n := c)
  unfold positional
  split
  · -- Zeros stand between the point and the digits.
    rename_i hn
    generalize hz : (-(p + ((ofNat c).length : Int))).toNat = z
    have hfigures := @Figures.point (List.replicate 1 '0'.toUInt8) (List.replicate z '0'.toUInt8 ++ ofNat c)
      (List.cons_ne_nil _ _) (List.forall_mem_append.mpr ⟨digits_zeros 1, List.forall_mem_append.mpr ⟨digits_zeros z, hdigits⟩⟩)
    rw [placeValue_padded, placeValue_padded, placeValue_ofNat, List.length_append,
      List.length_replicate] at hfigures
    refine ⟨0, ?_⟩
    rw [List.append_assoc, show ("0." : Text) = List.replicate 1 '0'.toUInt8 ++ ['.'.toUInt8] from rfl, List.append_assoc,
      List.singleton_append, (readUnsigned?_of_figures hfigures).1]
    simp only [Nat.pow_zero, Nat.mul_one, Option.some.injEq, Prod.mk.injEq, true_and]
    omega
  split
  · -- Zeros stand behind the digits.
    rename_i hn hlong
    generalize hz : (p + ((ofNat c).length : Int)).toNat - (ofNat c).length = z
    have hfigures := @Figures.whole (ofNat c ++ List.replicate z '0'.toUInt8)
      (by simp [ofNat_ne_nil]) (List.forall_mem_append.mpr ⟨hdigits, digits_zeros z⟩)
    rw [placeValue_append, placeValue_ofNat, placeValue_zeros, List.length_replicate] at hfigures
    refine ⟨z, ?_⟩
    rw [(readUnsigned?_of_figures hfigures).1]
    simp only [Nat.add_zero, Option.some.injEq, Prod.mk.injEq, true_and]
    omega
  · rename_i hn hlong
    refine ⟨0, ?_⟩
    rw [(readUnsigned?_of_figures (figures_split c _)).1]
    simp only [Nat.pow_zero, Nat.mul_one, Option.some.injEq, Prod.mk.injEq, true_and]
    omega

theorem readUnsigned?_scientific (width : Nat) :
    readUnsigned? (scientific width (ofNat c) (p + (ofNat c).length - 1)) = some (c, p) := by
  generalize he : p + ((ofNat c).length : Int) - 1 = e
  have hexponent := Decimal.readInt?_sign (e := e) (by simp [ofNat_ne_nil])
    (List.forall_mem_append.mpr ⟨digits_zeros (width - (ofNat e.natAbs).length), isDigit_of_mem_ofNat⟩)
    (by rw [placeValue_padded, placeValue_ofNat])
  have hmark : (if e < 0 then "e-" else "e+" : Text) = ['e'.toUInt8, if e < 0 then '-'.toUInt8 else '+'.toUInt8] := by
    split <;> rfl
  have hbody : Figures ((ofNat c).take 1 ++ (if (ofNat c).length ≤ 1 then [] else ".") ++ (ofNat c).drop 1) c
      ((ofNat c).length - 1) := by
    split
    · rename_i hlen
      have hfigures : Figures _ _ _ := .whole (ofNat_ne_nil c) isDigit_of_mem_ofNat
      rw [List.append_nil, List.take_append_drop, Nat.sub_eq_zero_of_le hlen]
      rwa [placeValue_ofNat] at hfigures
    · exact figures_split c 1
  have hlen := List.length_pos_iff.mpr (ofNat_ne_nil c)
  unfold scientific
  dsimp only
  rw [hmark, padLeft, List.append_assoc _ ['e'.toUInt8, _], List.cons_append, List.singleton_append,
    (readUnsigned?_of_figures hbody).2 hexponent]
  simp only [Option.some.injEq, Prod.mk.injEq, true_and]
  omega

/-- A decimal in any layout is read as the same decimal, with the zeros that fill it up. -/
theorem readUnsigned?_render (l : NumberLayout) : ∃ k : Nat, readUnsigned? (l.render c p) = some (c * 10 ^ k, p - k) := by
  unfold render
  dsimp only
  split
  · rw [Int.sub_add_cancel]
    exact readUnsigned?_positional c p
  · refine ⟨0, ?_⟩
    rw [readUnsigned?_scientific, Nat.pow_zero, Nat.mul_one, Int.natCast_zero, Int.sub_zero]

theorem newline_not_mem_render (l : NumberLayout) : '\n'.toUInt8 ∉ l.render c p := by
  have digits (n : Nat) : '\n'.toUInt8 ∉ ofNat n := fun hb => absurd (isDigit_of_mem_ofNat _ hb) (by decide)
  have zero : '\n'.toUInt8 ≠ '0'.toUInt8 := by decide
  have taken (n : Nat) : '\n'.toUInt8 ∉ (ofNat c).take n := fun hb => digits c (List.mem_of_mem_take hb)
  have dropped (n : Nat) : '\n'.toUInt8 ∉ (ofNat c).drop n := fun hb => digits c (List.mem_of_mem_drop hb)
  have point : '\n'.toUInt8 ∉ ofString "." ∧ '\n'.toUInt8 ∉ ofString "0." := by decide
  have exponent : '\n'.toUInt8 ∉ ofString "e-" ∧ '\n'.toUInt8 ∉ ofString "e+" := by decide
  unfold render positional scientific padLeft
  dsimp only
  split_ifs <;> simp [-List.drop_one, digits, zero, taken, dropped, point, exponent]

end NumberLayout

/-! ## (3) The text of a number -/

namespace Binary64

open Decimal (sign readUnsigned?)
open NumberLayout (readUnsigned?_render)

variable {x y : Binary64}

def decimal (x : Binary64) : Nat × Int := if x.isZero then (0, 0) else x.shortest

def unsigned (x : Binary64) : Text :=
  if x.isInfinite then "Inf" else if x.isZero then "0" else NumberLayout.general.render x.shortest.1 x.shortest.2

theorem readUnsigned?_unsigned (h : x.isInfinite = false) :
    ∃ k : Nat, readUnsigned? x.unsigned = some (x.decimal.1 * 10 ^ k, x.decimal.2 - k) := by
  unfold unsigned decimal
  rw [h]
  cases x.isZero with
  | true => exact ⟨0, rfl⟩
  | false => exact readUnsigned?_render _ _ .general

theorem sign_render (h : x.isNaN = false) : sign x.render = (x.isNegative, x.unsigned) := by
  cases hinf : x.isInfinite with
  | true =>
    unfold render unsigned
    rw [h, hinf]
    cases x.isNegative <;> rfl
  | false =>
    obtain ⟨k, hk⟩ := readUnsigned?_unsigned hinf
    have hrender : x.render = (if x.isNegative then ['-'.toUInt8] else []) ++ x.unsigned := by
      unfold render unsigned
      rw [h, hinf]
      cases x.isZero <;> rfl
    rw [hrender]
    cases x.isNegative with
    | true => exact Decimal.sign_minus _
    | false => exact Decimal.sign_of_readUnsigned? hk

theorem newline_not_mem_render (x : Binary64) : '\n'.toUInt8 ∉ x.render := by
  have digits := NumberLayout.newline_not_mem_render x.shortest.1 x.shortest.2 .general
  have words : '\n'.toUInt8 ∉ ofString "NaN" ∧ '\n'.toUInt8 ∉ ofString "-Inf" ∧ '\n'.toUInt8 ∉ ofString "+Inf" := by
    decide
  have marks : '\n'.toUInt8 ∉ ofString "-" ∧ '\n'.toUInt8 ∉ ofString "0" := by decide
  unfold render
  dsimp only
  split_ifs <;> simp [digits, words, marks]

theorem Near.pos (h : Near m e c p) (hm : m ≠ 0) : 0 < c := by
  apply Nat.pos_of_ne_zero
  rintro rfl
  have hreach : 0 < 4 * m - reach m e := by
    unfold reach
    split <;> omega
  have hlow : 0 < (4 * m - reach m e) * (2 ^ (e + 1074).toNat * 10 ^ 330) :=
    Nat.mul_pos hreach (Nat.mul_pos (Nat.two_pow_pos _) (by positivity))
  rw [Near, isInside_iff, Nat.zero_mul] at h
  exact absurd h.1.1 (Nat.not_le.mpr hlow)

/-- Zeros that fill up a decimal leave it the same. -/
theorem same_of_filled {k k' a a' : Nat} (h : c * 10 ^ k = c' * 10 ^ k') (ha : a + k' = a' + k) :
    c * 10 ^ a = c' * 10 ^ a' := by
  apply Nat.eq_of_mul_eq_mul_right (Nat.pow_pos (by decide) : 0 < 10 ^ (k + k'))
  calc c * 10 ^ a * 10 ^ (k + k') = c * 10 ^ k * 10 ^ (a + k') := by
        rw [Nat.pow_add, Nat.pow_add]
        ac_rfl
    _ = c' * 10 ^ k' * 10 ^ (a' + k) := by rw [h, ha]
    _ = c' * 10 ^ a' * 10 ^ (k + k') := by
        rw [Nat.pow_add, Nat.pow_add]
        ac_rfl

/-- Of two numbers with one text none is larger. -/
theorem magnitude_le_of_unsigned (hx : x.isNaN = false) (h : x.unsigned = y.unsigned) : x.magnitude ≤ y.magnitude := by
  cases hyinf : y.isInfinite with
  | true =>
    simp only [isNaN, isInfinite, decide_eq_false_iff_not, decide_eq_true_eq] at hx hyinf
    omega
  | false =>
    obtain ⟨k', hk'⟩ := readUnsigned?_unsigned hyinf
    rw [← h] at hk'
    have hxinf : x.isInfinite = false := by
      cases hinf : x.isInfinite with
      | false => rfl
      | true =>
        rw [unsigned, hinf] at hk'
        cases hk'
    obtain ⟨k, hk⟩ := readUnsigned?_unsigned hxinf
    rw [hk, Option.some.injEq, Prod.mk.injEq, decimal, decimal] at hk'
    obtain ⟨hc, hp⟩ := hk'
    cases hxzero : x.isZero with
    | true =>
      rw [of_decide_eq_true hxzero]
      exact Nat.zero_le _
    | false =>
      obtain ⟨hleast, hnear⟩ := shortest_near hxzero
      have hpos := Nat.mul_pos (hnear.pos (parts_ne_zero hxzero)) (Nat.pow_pos (by decide) : 0 < 10 ^ k)
      cases hyzero : y.isZero with
      | true =>
        simp only [hxzero, hyzero, Bool.false_eq_true, if_true, if_false] at hc
        omega
      | false =>
        simp only [hxzero, hyzero, Bool.false_eq_true, if_false] at hc hp
        obtain ⟨hleast', hnear'⟩ := shortest_near hyzero
        have hsame : x.shortest.1 * 10 ^ (x.shortest.2 + 330).toNat = y.shortest.1 * 10 ^ (y.shortest.2 + 330).toNat :=
          same_of_filled hc (by omega)
        rw [magnitude_eq x, magnitude_eq y]
        exact Nat.not_lt.mp (hnear'.not_lt hnear (parts_fit y) (parts_fit x) hsame.symm)

/-- Numbers with the same text are the same. -/
theorem render_inj (hx : x.isNaN = false) (hy : y.isNaN = false) (h : x.render = y.render) : x = y := by
  have hsign := sign_render hx
  rw [h, sign_render hy, Prod.mk.injEq] at hsign
  rw [← withSign_magnitude x, ← withSign_magnitude y, ← hsign.1,
    Nat.le_antisymm (magnitude_le_of_unsigned hx hsign.2.symm) (magnitude_le_of_unsigned hy hsign.2)]

end Binary64

end Scriptlet

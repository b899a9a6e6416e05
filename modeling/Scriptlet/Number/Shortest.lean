/-
  Scriptlet.Number.Shortest — the fewest decimal digits that read back to a number.

  The reals that round to a number form an interval around it, with its ends when the
  significand is even. The coarsest grid of powers of ten with a point in the interval
  gives the fewest digits; of its points the one nearest to the number is taken, and of
  two equally near ones the even.
-/

import Scriptlet.Number.Binary64

namespace Scriptlet

namespace Binary64

/-- The least significand of a full exponent: below it the numbers lie twice as close. -/
def hiddenBit : Nat := 2 ^ 52

/-- The coefficient of the multiple of `10 ^ p` nearest to `m * 2 ^ e` among those that round
    to it. In units of `2 ^ (e - 2)` the number is `4 * m` and its interval reaches up by 2 and
    down by 2, or by 1 at the least significand of an exponent. -/
def gridPoint? (m : Nat) (e p : Int) : Option Nat :=
  let unit := 10 ^ p.toNat * 2 ^ (2 - e).toNat
  let scale := 10 ^ (-p).toNat * 2 ^ (e - 2).toNat
  let down := if m = hiddenBit && -1074 < e then 1 else 2
  let low := (4 * m - down) * scale
  let high := (4 * m + 2) * scale
  let inside (c : Nat) : Bool :=
    if m % 2 = 0 then low ≤ c * unit && c * unit ≤ high else low < c * unit && c * unit < high
  let c := 4 * m * scale / unit
  let twice := 2 * (4 * m * scale % unit)
  let lowerFirst := twice < unit || (twice = unit && c % 2 = 0)
  let (first, second) := if lowerFirst then (c, c + 1) else (c + 1, c)
  if inside first then some first else if inside second then some second else none

/-- The first grid point found when the grids from `10 ^ p` on get finer. -/
def coarsest (m : Nat) (e : Int) : Nat → Int → Nat × Int
  | 0, p => (0, p)
  | n + 1, p =>
    match gridPoint? m e p with
    | some c => (c, p)
    | none => coarsest m e n (p - 1)

/-- Coefficient and power of ten of the shortest decimal for a finite number other than zero.
    No number has a point on a grid coarser than its own digits, and the finest grid that a
    number needs is that of `10 ^ -324`. -/
def shortest (x : Binary64) : Nat × Int :=
  let (m, e) := x.parts
  let whole := (m * 2 ^ e.toNat) / 2 ^ (-e).toNat
  let start := (Nat.toDigits 10 whole).length
  coarsest m e (start + 330) start

end Binary64

end Scriptlet

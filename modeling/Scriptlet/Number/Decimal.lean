/-
  Scriptlet.Number.Decimal — numbers as decimal text, in both directions.

  A number is written with its shortest digits, positionally within the exponents that the
  layout names and with an exponent elsewhere. Reading takes a sign, digits around an
  optional point and an optional exponent, and rounds to the nearest number.
-/

import Scriptlet.Text
import Scriptlet.Number.Shortest

namespace Scriptlet

structure NumberLayout where
  /-- The least exponent written positionally. -/
  least : Int
  /-- The least exponent above it that is not. -/
  limit : Int
  exponentWidth : Nat

namespace NumberLayout

/-- Numbers from `0.0001` up to a million are positional; an exponent has two digits or more. -/
def general : NumberLayout := ⟨-4, 6, 2⟩

/-- Digits with the point behind the first `n` of them, zeros filled in where it lies outside. -/
def positional (digits : Text) (n : Int) : Text :=
  if n ≤ 0 then "0." ++ List.replicate (-n).toNat '0'.toUInt8 ++ digits
  else if digits.length ≤ n.toNat then digits ++ List.replicate (n.toNat - digits.length) '0'.toUInt8
  else digits.take n.toNat ++ "." ++ digits.drop n.toNat

def scientific (width : Nat) (digits : Text) (exponent : Int) : Text :=
  let point : Text := if digits.length ≤ 1 then [] else "."
  let sign : Text := if exponent < 0 then "e-" else "e+"
  digits.take 1 ++ point ++ digits.drop 1 ++ sign ++ Text.padLeft width '0' (Text.ofNat exponent.natAbs)

def render (l : NumberLayout) (coefficient : Nat) (power : Int) : Text :=
  let digits := Text.ofNat coefficient
  let exponent := power + digits.length - 1
  if l.least ≤ exponent && exponent < l.limit then positional digits (exponent + 1)
  else scientific l.exponentWidth digits exponent

end NumberLayout

namespace Binary64

def render (x : Binary64) : Text :=
  if x.isNaN then "NaN"
  else
    let sign : Text := if x.isNegative then "-" else []
    if x.isInfinite then (if x.isNegative then "-Inf" else "+Inf")
    else if x.isZero then sign ++ "0"
    else sign ++ NumberLayout.general.render x.shortest.1 x.shortest.2

end Binary64

namespace Decimal

/-- A sign, `+` or `-`, at the front: whether it is negative, and the rest. -/
def sign : Text → Bool × Text
  | [] => (false, [])
  | b :: r => if b = '-'.toUInt8 then (true, r) else if b = '+'.toUInt8 then (false, r) else (false, b :: r)

/-- An integer of any size: an optional sign and at least one digit. -/
def readInt? (t : Text) : Option Int :=
  let (negative, digits) := sign t
  if digits.isEmpty || !digits.all Text.isDigit then none
  else
    let n : Int := Text.digitsValue digits
    some (if negative then -n else n)

/-- Digits with at most one point among them: the number without the point, and how many
    digits stand behind it. -/
def readDigits? (t : Text) : Option (Nat × Nat) :=
  let (whole, behind) := Text.cut '.'.toUInt8 t
  let fraction := behind.getD []
  let digits := whole ++ fraction
  if digits.isEmpty || !digits.all Text.isDigit then none
  else some (Text.digitsValue digits, fraction.length)

/-- An unsigned decimal with an optional exponent, as coefficient and power of ten. -/
def readUnsigned? (t : Text) : Option (Nat × Int) := do
  let isMark (b : UInt8) : Bool := b = 'e'.toUInt8 || b = 'E'.toUInt8
  let (coefficient, places) ← readDigits? (t.takeWhile (!isMark ·))
  match t.dropWhile (!isMark ·) with
  | [] => some (coefficient, -(places : Int))
  | _ :: exponent => do
    let e ← readInt? exponent
    some (coefficient, e - places)

/-- The number nearest to a decimal, or one of the words `NaN`, `+Inf`, `Inf` and `-Inf`. -/
def read? (t : Text) : Option Binary64 :=
  let (negative, rest) := sign t
  if rest = "NaN" then some Binary64.nan
  else if rest = "Inf" then some (Binary64.infinity negative)
  else (readUnsigned? rest).map fun (coefficient, power) => Binary64.ofDecimal negative coefficient power

end Decimal

end Scriptlet

/-
  Scriptlet.Number.Format — floating-point formats of other widths.

  A format has a sign, some exponent bits and some fraction bits, laid out like those of
  `Binary64`. Every number of a narrower format is a `Binary64`; the other way, only
  numbers that lose nothing are converted.
-/

import Scriptlet.Number.Binary64

namespace Scriptlet

structure FloatFormat where
  exponentBits : Nat
  fractionBits : Nat

namespace FloatFormat

def half : FloatFormat := ⟨5, 10⟩

def single : FloatFormat := ⟨8, 23⟩

def bias (f : FloatFormat) : Nat := 2 ^ (f.exponentBits - 1) - 1

def top (f : FloatFormat) : Nat := 2 ^ f.exponentBits - 1

def least (f : FloatFormat) : Int := 1 - (f.bias : Int) - f.fractionBits

def signBit (f : FloatFormat) : Nat := 2 ^ (f.exponentBits + f.fractionBits)

def widen (f : FloatFormat) (word : Nat) : Binary64 :=
  let negative := decide (f.signBit ≤ word)
  let field : Nat := word % f.signBit / 2 ^ f.fractionBits
  let fraction := word % 2 ^ f.fractionBits
  if field = f.top then (if fraction = 0 then .infinity negative else .nan)
  else
    let m := if field = 0 then fraction else fraction + 2 ^ f.fractionBits
    let e : Int := f.least + (field - 1 : Nat)
    .ofRatio negative (m * 2 ^ e.toNat) (2 ^ (-e).toNat)

/-- The factors of two in a positive number, at most `fuel` of them, split off. -/
def stripTwos : Nat → Nat × Int → Nat × Int
  | 0, p => p
  | fuel + 1, (m, e) => if m % 2 = 0 then stripTwos fuel (m / 2, e + 1) else (m, e)

/-- The magnitude, in the format, of a finite number that the format can hold. -/
def magnitude? (f : FloatFormat) (x : Binary64) : Option Nat :=
  if x.isZero then some 0
  else
    let (m, e) := stripTwos 53 x.parts
    let width := m.log2
    let field : Int := e + width + f.bias
    if field < 1 then
      if e < f.least then none else some (m * 2 ^ (e - f.least).toNat)
    else if f.fractionBits < width || (f.top : Int) ≤ field then none
    else some ((field.toNat - 1) * 2 ^ f.fractionBits + m * 2 ^ (f.fractionBits - width))

def narrow? (f : FloatFormat) (x : Binary64) : Option Nat :=
  let sign := if x.isNegative then f.signBit else 0
  if x.isNaN then none
  else if x.isInfinite then some (sign + f.top * 2 ^ f.fractionBits)
  else (f.magnitude? x).map (sign + ·)

end FloatFormat

end Scriptlet

/-
  Scriptlet.Number.Binary64 — 64-bit floating-point numbers, as their bits.

  A word holds a sign, eleven exponent bits and 52 fraction bits. A finite number is
  `significand * 2 ^ exponent` with `exponent ≥ -1074`; the highest exponent holds the
  infinities and the not-a-numbers. Keeping the bits makes equality, printing and
  reading plain integer arithmetic; only the four operations are left to the hardware.
-/

-- Powers are those of the core library, also where another library brings powers of its own.
attribute [instance (2000), default_instance 20000] instPowNat

namespace Scriptlet

structure Binary64 where
  bits : UInt64
  deriving DecidableEq, Repr, Inhabited

namespace Binary64

def isNegative (x : Binary64) : Bool := 2 ^ 63 ≤ x.bits.toNat

def magnitude (x : Binary64) : Nat := x.bits.toNat % 2 ^ 63

/-- The magnitude of infinity; those above it are not-a-numbers. -/
def infinityMagnitude : Nat := 0x7FF * 2 ^ 52

def isNaN (x : Binary64) : Bool := infinityMagnitude < x.magnitude

def isInfinite (x : Binary64) : Bool := x.magnitude = infinityMagnitude

def isZero (x : Binary64) : Bool := x.magnitude = 0

def withSign (negative : Bool) (magnitude : Nat) : Binary64 :=
  ⟨UInt64.ofNat (magnitude + if negative then 2 ^ 63 else 0)⟩

def zero : Binary64 := ⟨0⟩

def nan : Binary64 := ⟨0x7FF8000000000001⟩

def infinity (negative : Bool) : Binary64 := withSign negative infinityMagnitude

/-- Numeric equality: a not-a-number differs from everything, and the zeros are equal. -/
def equal (x y : Binary64) : Bool :=
  !x.isNaN && !y.isNaN && (x.bits == y.bits || (x.isZero && y.isZero))

def parts (x : Binary64) : Nat × Int :=
  let field : Nat := x.magnitude / 2 ^ 52
  let fraction := x.magnitude % 2 ^ 52
  if field = 0 then (fraction, -1074) else (fraction + 2 ^ 52, (field : Int) - 1075)

/-- `num / den` rounded to an integer, a half going to the even neighbour. -/
def roundDiv (num den : Nat) : Nat :=
  let q := num / den
  let twice := 2 * (num % den)
  if den < twice || (twice = den && q % 2 = 1) then q + 1 else q

/-- The number nearest to `num / den`, a half going to the even significand. The exponent is
    the one that leaves 53 bits, or the least one; a significand rounded up to `2 ^ 53` carries
    into the exponent field by itself. -/
def ofRatio (negative : Bool) (num den : Nat) : Binary64 :=
  if num = 0 then withSign negative 0
  else
    let rough : Int := (num.log2 : Int) - den.log2 - 53
    let exact : Int := if 2 ^ 53 * den * 2 ^ rough.toNat ≤ num * 2 ^ (-rough).toNat then rough + 1 else rough
    let e : Int := max exact (-1074)
    let q := roundDiv (num * 2 ^ (-e).toNat) (den * 2 ^ e.toNat)
    withSign negative (min ((e + 1074).toNat * 2 ^ 52 + q) infinityMagnitude)

def ofDecimal (negative : Bool) (coefficient : Nat) (exponent : Int) : Binary64 :=
  if coefficient = 0 then withSign negative 0
  else if 400 < exponent then infinity negative
  else if exponent + coefficient.log2 < -400 then withSign negative 0
  else ofRatio negative (coefficient * 10 ^ exponent.toNat) (10 ^ (-exponent).toNat)

def ofInt (n : Int) : Binary64 := ofRatio (decide (n < 0)) n.natAbs 1

def truncate? (x : Binary64) : Option Int :=
  if x.isNaN || x.isInfinite then none
  else
    let (m, e) := x.parts
    let n : Int := ((m * 2 ^ e.toNat) / 2 ^ (-e).toNat : Nat)
    some (if x.isNegative then -n else n)

def toFloat (x : Binary64) : Float := Float.ofBits x.bits

def ofFloat (x : Float) : Binary64 := ⟨x.toBits⟩

def add (x y : Binary64) : Binary64 := ofFloat (x.toFloat + y.toFloat)

def sub (x y : Binary64) : Binary64 := ofFloat (x.toFloat - y.toFloat)

def mul (x y : Binary64) : Binary64 := ofFloat (x.toFloat * y.toFloat)

def div (x y : Binary64) : Binary64 := ofFloat (x.toFloat / y.toFloat)

end Binary64

end Scriptlet

/-
  Scriptlet.Machine.Arith — the arithmetic of values.

  Two integers give an integer, computed modulo 2^64; division truncates towards zero. An
  integer next to a float becomes a float. Strings can be added, and nothing else can.
-/

import Scriptlet.Machine.Fault

namespace Scriptlet

inductive Arith where
  | add | sub | mul | div
  deriving DecidableEq, Repr, Inhabited

namespace Arith

def op : Arith → Op
  | .add => .add
  | .sub => .sub
  | .mul => .mul
  | .div => .div

def onInts : Arith → Int64 → Int64 → Except Fault Value
  | .add, x, y => .ok (.int (x + y))
  | .sub, x, y => .ok (.int (x - y))
  | .mul, x, y => .ok (.int (x * y))
  | .div, x, y => if y = 0 then .error .divisionByZero else .ok (.int (x / y))

def onFloats : Arith → Binary64 → Binary64 → Value
  | .add, x, y => .float (x.add y)
  | .sub, x, y => .float (x.sub y)
  | .mul, x, y => .float (x.mul y)
  | .div, x, y => .float (x.div y)

def ofInt (n : Int64) : Binary64 := .ofInt n.toInt

def apply (a : Arith) (u v : Value) : Except Fault Value :=
  match u, v with
  | .str s, .str t => if a = .add then .ok (.str (s ++ t)) else .error (.operands .str a.op .str)
  | .int x, .int y => a.onInts x y
  | .int x, .float y => .ok (a.onFloats (ofInt x) y)
  | .float x, .int y => .ok (a.onFloats x (ofInt y))
  | .float x, .float y => .ok (a.onFloats x y)
  | u, v => .error (.operands u.kind a.op v.kind)

end Arith

end Scriptlet

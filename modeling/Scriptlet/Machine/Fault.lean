/-
  Scriptlet.Machine.Fault — what can go wrong while a machine runs.

  A fault is the failure of one instruction. A halt is why a machine stopped for good: most
  often a fault, with the place of the instruction, else an abort or a block that is missing.
  Every fault belongs to a class, and its message starts with the words of the class.
-/

import Scriptlet.Code.Instr
import Scriptlet.Value

namespace Scriptlet

inductive FaultClass where
  | unknownIdent
  | stackUnderflow
  | typeMismatch
  | notCallable
  | notAssignable
  | arity
  | divisionByZero
  | stackOverflow
  | badOperand
  | aborted
  deriving DecidableEq, Repr, Inhabited

def FaultClass.words : FaultClass → Text
  | .unknownIdent => "unknown identifier"
  | .stackUnderflow => "operand stack underflow"
  | .typeMismatch => "type mismatch"
  | .notCallable => "value is not callable"
  | .notAssignable => "cannot assign to operand"
  | .arity => "wrong number of arguments"
  | .divisionByZero => "integer division by zero"
  | .stackOverflow => "too many call frames"
  | .badOperand => "instruction operand out of range"
  | .aborted => "execution aborted"

inductive Fault where
  | unbound (name : Text)
  | underflow
  | notStructType (name : Text)
  | noSuchField (type field : Text)
  | notProto (kind : ValueKind)
  | paramNotIdent
  | importPathNotStr
  | noFields (field : Text) (kind : ValueKind)
  | operands (left : ValueKind) (op : Op) (right : ValueKind)
  | notCallable (value : Value)
  | unknownBuiltin (name : Text)
  | notAssignable (target : Option Value)
  | protoParams (proto wanted : Int)
  | argumentCount (params args : Nat)
  | importCount (args : Nat)
  | divisionByZero
  | frameLimit (limit : Nat)
  | noConst (id : Int)
  | unknownOp (code : UInt8)
  deriving Repr, Inhabited

namespace Fault

def toClass : Fault → FaultClass
  | .unbound _ => .unknownIdent
  | .underflow => .stackUnderflow
  | .notStructType _ | .noSuchField .. | .notProto _ | .paramNotIdent | .importPathNotStr | .noFields ..
  | .operands .. => .typeMismatch
  | .notCallable _ | .unknownBuiltin _ => .notCallable
  | .notAssignable _ => .notAssignable
  | .protoParams .. | .argumentCount .. | .importCount _ => .arity
  | .divisionByZero => .divisionByZero
  | .frameLimit _ => .stackOverflow
  | .noConst _ | .unknownOp _ => .badOperand

def detail? : Fault → Option Text
  | .underflow | .divisionByZero => none
  | .unbound name => some name
  | .notStructType name => some (name ++ " is not a struct type")
  | .noSuchField type field => some ("type " ++ type ++ " has no field " ++ field)
  | .notProto kind => some ("expected function prototype, have " ++ kind.name)
  | .paramNotIdent => some "parameter is not an identifier"
  | .importPathNotStr => some "import path must be a string"
  | .noFields field kind => some ("cannot access field " ++ field ++ " of " ++ kind.name)
  | .operands l op r => some (l.name ++ " " ++ op.name ++ " " ++ r.name)
  | .notCallable v => some (Value.repr (some v))
  | .unknownBuiltin name => some ("unknown builtin " ++ name)
  | .notAssignable v => some (Value.repr v)
  | .protoParams proto wanted =>
    some ("prototype has " ++ Text.ofInt proto ++ " parameters, instruction " ++ Text.ofInt wanted)
  | .argumentCount params args =>
    some ("function expects " ++ Text.ofNat params ++ ", called with " ++ Text.ofNat args)
  | .importCount args => some ("import expects 1, called with " ++ Text.ofNat args)
  | .frameLimit limit => some ("limit is " ++ Text.ofNat limit)
  | .noConst id => some ("constant #" ++ Text.ofInt id)
  | .unknownOp code => some ("unknown opcode " ++ Text.ofNat code.toNat)

def message (f : Fault) : Text :=
  match f.detail? with
  | some d => f.toClass.words ++ ": " ++ d
  | none => f.toClass.words

end Fault

inductive Halt where
  | fault (block : Int) (pc : Nat) (instr : Instr) (f : Fault)
  | noBlock (id : Int)
  | aborted
  /-- The caller of the machine gave up on the whole run. -/
  | cancelled
  deriving Repr, Inhabited

namespace Halt

def toClass : Halt → FaultClass
  | .fault _ _ _ f => f.toClass
  | .noBlock _ => .badOperand
  | .aborted | .cancelled => .aborted

def message : Halt → Text
  | .fault block pc instr f =>
    "runtime error in block #" ++ Text.ofInt block ++ " at " ++ Text.padLeft 4 '0' (Text.ofNat pc) ++ " "
      ++ instr.render ++ ": " ++ f.message
  | .noBlock id => FaultClass.badOperand.words ++ ": no block #" ++ Text.ofInt id
  | .aborted => FaultClass.aborted.words
  | .cancelled => FaultClass.aborted.words ++ ": context canceled"

end Halt

end Scriptlet

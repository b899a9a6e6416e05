/-
  Scriptlet.Code.Lower — from syntax trees to code.

  Lowering a node gives a fragment of code, and extends the tables of the program. Fragments are
  put together by appending them. A function gets a block of its own; where it stands, its
  parameters and its prototype are loaded and a function is made of them. The fields of a
  struct instance come before the name of its type, which is the instruction that completes
  the instance; an instance inside of another one, or without fields, opens a group first.

  A failure leaves what was added to the tables until then.
-/

import Scriptlet.Code.Program
import Scriptlet.Syntax.Node

namespace Scriptlet

inductive LowerError where
  | hole
  | unknownOperator (op : Operator)
  | noSuchBlock (id : Int)
  deriving DecidableEq, Repr, Inhabited

def LowerError.message : LowerError → Text
  | .hole => "cannot compile node of type <nil>"
  | .unknownOperator op => "unknown operator " ++ Text.quotedChar op.char
  | .noSuchBlock id => "cannot recompile block #" ++ Text.ofInt id ++ ": no such block"

structure Fragment where
  code : Block
  sites : List Nat
  deriving DecidableEq, Repr, Inhabited

namespace Fragment

def empty : Fragment := ⟨[], []⟩

def of (code : Block) : Fragment := ⟨code, []⟩

def append (a b : Fragment) : Fragment := ⟨a.code ++ b.code, a.sites ++ b.sites.map (a.code.length + ·)⟩

instance : Append Fragment := ⟨append⟩

def op (o : Op) (arg : Nat := 0) : Fragment := of [⟨o, arg⟩]

def site (id : Nat) : Fragment := ⟨[⟨.loadIdent, id⟩], [0]⟩

def toSlot (p : Fragment) : Slot := ⟨some p.code, if p.sites.isEmpty then none else some p.sites⟩

end Fragment

abbrev Lower := ExceptT LowerError (StateM Program)

namespace Lower

def intern (name : Text) : Lower Nat := modifyGet (·.intern name)

def constant (v : Value) : Lower Fragment := return .op .loadConst (← modifyGet (·.addConst v))

/-- The value of a variable that was declared with a type and not set yet. -/
def initial (type : Text) : Value :=
  if type = Text.ofString "Int" then .int 0
  else if type = Text.ofString "Float" then .float .zero
  else if type = Text.ofString "String" ∨ type = Text.ofString "Str" then .str []
  else if type = Text.ofString "Bool" then .bool false
  else .none

def operator : Operator → Lower Fragment
  | .add => return .op .add
  | .sub => return .op .sub
  | .mul => return .op .mul
  | .div => return .op .div
  | op => throw (.unknownOperator op)

def loads (o : Op) : List Text → Lower Fragment
  | [] => return .empty
  | name :: names => do
    let p := Fragment.op o (← intern name)
    return p ++ (← loads o names)

mutual

/-- The code of a node at a depth of struct instances around it. -/
def node (depth : Nat) : Node → Lower Fragment
  | .ident name => return .op .loadIdent (← intern name)
  | .assign l r => do
    let a ← node depth l
    let b ← node depth r
    return a ++ b ++ .op .store
  | .construct type fs => do
    let start := if depth = 0 && !fs.isEmpty then Fragment.empty else .op .beginStruct
    let p ← fields (depth + 1) fs
    return start ++ p ++ .site (← intern type)
  | .array items => return (← nodes depth items) ++ .op .makeArray items.length
  | .call callee args => do
    let f ← node depth callee
    return f ++ (← nodes depth args) ++ .op .call args.length
  | .property object name => do
    let p ← node depth object
    return p ++ .op .loadField (← intern name)
  | .binary op l r => do
    let a ← node depth l
    let b ← node depth r
    return a ++ b ++ (← operator op)
  | .function params body => do
    let p ← loads .loadIdent params
    let id : Nat ← modifyGet (·.reserve)
    let k ← constant (.proto ⟨id, params.length⟩)
    let b ← nodes 0 body
    modify (·.fill id b.toSlot)
    return p ++ k ++ .op .makeFn params.length
  | .structDef name fs => do
    let p ← loads .addField (fs.map (·.1))
    return p ++ .op .createStruct (← intern name)
  | .variable type name => do
    let p := Fragment.op .loadIdent (← intern name)
    return p ++ (← constant (initial type)) ++ .op .store
  | .ret none => return (← constant .none) ++ .op .ret
  | .ret (some v) => return (← node depth v) ++ .op .ret
  | .int n => constant (.int n)
  | .float x => constant (.float x)
  | .str s => constant (.str s)
  | .hole => throw .hole
termination_by structural n => n

def nodes (depth : Nat) : List Node → Lower Fragment
  | [] => return .empty
  | n :: ns => do
    let p ← node depth n
    return p ++ (← nodes depth ns)
termination_by structural ns => ns

def fields (depth : Nat) : List (Text × Node) → Lower Fragment
  | [] => return .empty
  | (name, n) :: fs => do
    let p ← node depth n
    let s := Fragment.op .storeField (← intern name)
    return p ++ s ++ (← fields depth fs)
termination_by structural fs => fs

end

def into (id : Nat) (program : List Node) : Lower Unit := do
  let p ← nodes 0 program
  modify (·.fill id p.toSlot)

end Lower

namespace Program

def compile (p : Program) (program : List Node) : Except LowerError Nat × Program :=
  (do let id : Nat ← modifyGet (·.reserve)
      Lower.into id program
      return id : Lower Nat).run.run p

/-- Compiles a program into a block that exists, in place of its code. -/
def recompile (p : Program) (id : Int) (program : List Node) : Except LowerError Unit × Program :=
  match id with
  | .ofNat n =>
    if n < p.slots.length then (Lower.into n program).run.run p else (.error (.noSuchBlock id), p)
  | .negSucc _ => (.error (.noSuchBlock id), p)

end Program

end Scriptlet

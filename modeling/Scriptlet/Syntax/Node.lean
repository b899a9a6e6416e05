/-
  Scriptlet.Syntax.Node — syntax trees.

  A program is a list of nodes. `Node.source` writes a node the way a program would, and
  `Node.outline` as labelled lines with their nesting depth, one for each node and one for
  each field of a struct.
-/

import Scriptlet.Number.Decimal
import Scriptlet.Text.Quoted

namespace Scriptlet

inductive Operator where
  | add | sub | mul | div
  /-- A symbol that is no operator of the language. -/
  | other (symbol : UInt8)
  deriving DecidableEq, Repr, Inhabited

namespace Operator

def ofSymbol (b : UInt8) : Operator :=
  if b = '+'.toUInt8 then .add
  else if b = '-'.toUInt8 then .sub
  else if b = '*'.toUInt8 then .mul
  else if b = '/'.toUInt8 then .div
  else .other b

def symbol : Operator → UInt8
  | .add => '+'.toUInt8
  | .sub => '-'.toUInt8
  | .mul => '*'.toUInt8
  | .div => '/'.toUInt8
  | .other b => b

def char (op : Operator) : Char := Char.ofNat op.symbol.toNat

end Operator

inductive Node where
  | ident (name : Text)
  | assign (left right : Node)
  /-- A struct instance, as in `Ball { x: 1 }`. -/
  | construct (type : Text) (fields : List (Text × Node))
  | array (items : List Node)
  | call (callee : Node) (args : List Node)
  | property (object : Node) (name : Text)
  | binary (op : Operator) (left right : Node)
  | function (params : List Text) (body : List Node)
  /-- A struct type, as in `type Ball { x: Int }`: names and types of its fields. -/
  | structDef (name : Text) (fields : List (Text × Text))
  /-- A variable of a type, as in `Int n`. -/
  | variable (type name : Text)
  | ret (value : Option Node)
  | int (n : Int64)
  | float (x : Binary64)
  | str (s : Text)
  /-- Nothing, where a node should be. Only trees built by hand have holes. -/
  | hole
  deriving Repr, Inhabited

namespace Node

def commas (ts : List Text) : Text := Text.join ", " ts

mutual

def source : Node → Text
  | .ident name => name
  | .assign l r => l.source ++ " = " ++ r.source
  | .construct type fields => type ++ " \x7b " ++ commas (fieldSources fields) ++ " \x7d"
  | .array items => "[" ++ commas (sources items) ++ "]"
  | .call callee args => callee.source ++ "(" ++ commas (sources args) ++ ")"
  | .property object name => object.source ++ "." ++ name
  | .binary op l r => "(" ++ l.source ++ " " ++ Text.ofChar op.char ++ " " ++ r.source ++ ")"
  | .function params body =>
    "(" ++ commas params ++ ") => \x7b " ++ Text.join "; " (sources body) ++ " \x7d"
  | .structDef name fields =>
    "type " ++ name ++ " \x7b " ++ commas (fields.map fun (f, t) => f ++ ": " ++ t) ++ " \x7d"
  | .variable type name => type ++ " " ++ name
  | .ret none => "return"
  | .ret (some v) => "return " ++ v.source
  | .int n => Text.ofInt n.toInt
  | .float x => x.render
  | .str s => Text.quoted s
  | .hole => "%!s(<nil>)"
termination_by structural n => n

def sources : List Node → List Text
  | [] => []
  | n :: ns => n.source :: sources ns
termination_by structural ns => ns

def fieldSources : List (Text × Node) → List Text
  | [] => []
  | (name, n) :: fs => (name ++ ": " ++ n.source) :: fieldSources fs
termination_by structural fs => fs

end

structure Line where
  depth : Nat
  label : Text
  deriving DecidableEq, Repr

mutual

def outline (depth : Nat) : Node → List Line
  | .ident name => [⟨depth, "Ident " ++ name⟩]
  | .assign l r => ⟨depth, "Assign"⟩ :: (l.outline (depth + 1) ++ r.outline (depth + 1))
  | .construct type fields => ⟨depth, "StructInstance " ++ type⟩ :: fieldOutlines (depth + 1) fields
  | .array items => ⟨depth, "Array[" ++ Text.ofNat items.length ++ "]"⟩ :: outlines (depth + 1) items
  | .call callee args =>
    ⟨depth, "Call/" ++ Text.ofNat args.length⟩ :: (callee.outline (depth + 1) ++ outlines (depth + 1) args)
  | .property object name => ⟨depth, "Property ." ++ name⟩ :: object.outline (depth + 1)
  | .binary op l r =>
    ⟨depth, "BinOp " ++ Text.ofChar op.char⟩ :: (l.outline (depth + 1) ++ r.outline (depth + 1))
  | .function params body => ⟨depth, "Fun (" ++ commas params ++ ")"⟩ :: outlines (depth + 1) body
  | .structDef name fields =>
    ⟨depth, "StructDef " ++ name⟩ :: fields.map fun (f, t) => ⟨depth + 1, f ++ ": " ++ t⟩
  | .variable type name => [⟨depth, "Var " ++ type ++ " " ++ name⟩]
  | .ret none => [⟨depth, "Return"⟩]
  | .ret (some v) => ⟨depth, "Return"⟩ :: v.outline (depth + 1)
  | .int n => [⟨depth, "Int " ++ Text.ofInt n.toInt⟩]
  | .float x => [⟨depth, "Float " ++ x.render⟩]
  | .str s => [⟨depth, "Str " ++ Text.quoted s⟩]
  | .hole => [⟨depth, "<nil>"⟩]
termination_by structural n => n

def outlines (depth : Nat) : List Node → List Line
  | [] => []
  | n :: ns => n.outline depth ++ outlines depth ns
termination_by structural ns => ns

def fieldOutlines (depth : Nat) : List (Text × Node) → List Line
  | [] => []
  | (name, n) :: fs => ⟨depth, name ++ ":"⟩ :: (n.outline (depth + 1) ++ fieldOutlines depth fs)
termination_by structural fs => fs

end

end Node

/-- The outline of a program, every line indented by two blanks for each level. -/
def Node.tree (program : List Node) : Text :=
  Text.unlines ((Node.outlines 0 program).map fun l => List.replicate (2 * l.depth) ' '.toUInt8 ++ l.label)

end Scriptlet

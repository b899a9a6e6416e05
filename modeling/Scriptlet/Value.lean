/-
  Scriptlet.Value — the values that programs compute with.

  Functions, struct types and objects have an identity: two of them are the same only if
  they were made together, however much they look alike. All other values are compared by
  what they hold. A place that may hold a value and holds none yet is `none`; such places
  occur in arrays and fields that come from the host, too.
-/

import Scriptlet.Number.Decimal
import Scriptlet.Text.Quoted

namespace Scriptlet

inductive Ref where
  /-- Made by a machine. -/
  | inner (n : Nat)
  /-- Brought along from outside. -/
  | outer (n : Nat)
  deriving DecidableEq, Repr, Inhabited

inductive ValueKind where
  | none | int | float | str | bool | array | proto | closure | structType | object | host | builtin
  deriving DecidableEq, Repr, Inhabited

namespace ValueKind

def all : List ValueKind :=
  [.none, .int, .float, .str, .bool, .array, .proto, .closure, .structType, .object, .host, .builtin]

def number : ValueKind → UInt8
  | .none => 0
  | .int => 1
  | .float => 2
  | .str => 3
  | .bool => 4
  | .array => 5
  | .proto => 6
  | .closure => 7
  | .structType => 8
  | .object => 9
  | .host => 10
  | .builtin => 11

def ofNumber? (n : UInt8) : Option ValueKind := all[n.toNat]?

def name : ValueKind → Text
  | .none => "None"
  | .int => "Int"
  | .float => "Float"
  | .str => "Str"
  | .bool => "Bool"
  | .array => "Array"
  | .proto => "Proto"
  | .closure => "Function"
  | .structType => "StructType"
  | .object => "Object"
  | .host => "HostFunction"
  | .builtin => "Builtin"

def nameOfNumber (n : UInt8) : Text :=
  match ofNumber? n with
  | some k => k.name
  | Option.none => "Kind(" ++ Text.ofNat n.toNat ++ ")"

end ValueKind

structure Proto where
  block : Int
  params : Int
  deriving DecidableEq, Repr, Inhabited

structure Closure where
  ref : Ref
  proto : Proto
  params : List Int
  /-- The scopes around the function, the innermost first. -/
  scopes : List Nat
  deriving DecidableEq, Repr, Inhabited

structure StructType where
  ref : Ref
  /-- The identifier of the type's name. -/
  id : Int
  name : Text
  /-- The identifiers of the fields, as declared. -/
  fields : List Int
  deriving DecidableEq, Repr, Inhabited

def StructType.hasField (t : StructType) (id : Int) : Bool := t.fields.contains id

def StructType.render (t : StructType) : Text := "<type " ++ t.name ++ ">"

structure FieldOf (α : Type) where
  id : Int
  name : Text
  value : Option α
  deriving Repr, Inhabited

structure ObjectOf (α : Type) where
  ref : Ref
  /-- The number by which the host knows the object. -/
  id : Int
  /-- The identifier of the type's name. -/
  type : Int
  typeName : Text
  fields : List (FieldOf α)
  deriving Repr, Inhabited

namespace ObjectOf

variable {α : Type}

/-- The value of a field; a field that is present may still hold none. -/
def field? (o : ObjectOf α) (id : Int) : Option (Option α) :=
  (o.fields.find? (·.id == id)).map (·.value)

def setIn (id : Int) (name : Text) (v : Option α) : List (FieldOf α) → List (FieldOf α)
  | [] => [⟨id, name, v⟩]
  | f :: fs => if f.id = id then { f with value := v } :: fs else f :: setIn id name v fs

/-- Sets a field; a new one is put behind the others, one that exists keeps its place and name. -/
def setField (o : ObjectOf α) (id : Int) (name : Text) (v : Option α) : ObjectOf α :=
  { o with fields := setIn id name v o.fields }

end ObjectOf

inductive Value where
  | none
  | int (n : Int64)
  | float (x : Binary64)
  | str (s : Text)
  | bool (b : Bool)
  | array (items : List (Option Value))
  | proto (p : Proto)
  | closure (c : Closure)
  | structType (t : StructType)
  | object (o : ObjectOf Value)
  /-- A function of the host; `receiver` is the object on which it was looked up. -/
  | host (symbol : Int) (name : Text) (receiver : Option (ObjectOf Value))
  | builtin (name : Text)
  deriving Repr, Inhabited

abbrev Field := FieldOf Value

abbrev Object := ObjectOf Value

namespace Value

def kind : Value → ValueKind
  | .none => .none
  | .int _ => .int
  | .float _ => .float
  | .str _ => .str
  | .bool _ => .bool
  | .array _ => .array
  | .proto _ => .proto
  | .closure _ => .closure
  | .structType _ => .structType
  | .object _ => .object
  | .host .. => .host
  | .builtin _ => .builtin

def isNumeric : Value → Bool
  | .int _ | .float _ => true
  | _ => false

/-! ## Text -/

def unresolved : Text := "<unresolved>"

def blockText (what : Text) (p : Proto) : Text :=
  "<" ++ what ++ " #" ++ Text.ofInt p.block ++ "/" ++ Text.ofInt p.params ++ ">"

mutual

/-- The text of a value; a string that is the value itself is quoted or not, strings inside of
    arrays and objects always are. -/
def render (quote : Bool) : Value → Text
  | .none => "none"
  | .int n => Text.ofInt n.toInt
  | .float x => x.render
  | .str s => if quote then Text.quoted s else s
  | .bool b => if b then "true" else "false"
  | .array items => "[" ++ Text.join ", " (renderAll items) ++ "]"
  | .proto p => blockText "proto" p
  | .closure c => blockText "function" c.proto
  | .structType t => t.render
  | .object o => renderObject o
  | .host _ name (some o) => "<host " ++ o.typeName ++ "." ++ name ++ ">"
  | .host _ name Option.none => "<host " ++ name ++ ">"
  | .builtin name => "<builtin " ++ name ++ ">"
termination_by structural v => v

def renderPlace : Option Value → Text
  | Option.none => unresolved
  | some v => v.render true
termination_by structural v => v

def renderAll : List (Option Value) → List Text
  | [] => []
  | v :: vs => renderPlace v :: renderAll vs
termination_by structural vs => vs

def renderObject : ObjectOf Value → Text
  | ⟨_, id, _, typeName, fields⟩ =>
    typeName ++ "#" ++ Text.ofInt id ++ " \x7b " ++ Text.join ", " (renderFields fields) ++ " \x7d"
termination_by structural o => o

def renderFields : List (FieldOf Value) → List Text
  | [] => []
  | ⟨_, name, v⟩ :: fs => (name ++ ": " ++ renderPlace v) :: renderFields fs
termination_by structural fs => fs

end

def text (v : Value) : Text := v.render false

def repr (v : Option Value) : Text := renderPlace v

/-! ## Equality and copies -/

mutual

/-- Arrays are equal element by element, functions, types and objects only to themselves. -/
def equal : Value → Value → Bool
  | .none, .none => true
  | .int m, .int n => m == n
  | .float x, .float y => x.equal y
  | .str s, .str t => s == t
  | .bool a, .bool b => a == b
  | .array xs, .array ys => equalAll xs ys
  | .proto p, .proto q => p == q
  | .closure c, .closure d => c.ref == d.ref
  | .structType t, .structType u => t.ref == u.ref
  | .object o, .object p => o.ref == p.ref
  | .host s n r, .host t m q => s == t && n == m && r.map (·.ref) == q.map (·.ref)
  | .builtin n, .builtin m => n == m
  | _, _ => false
termination_by structural v => v

def equalAll : List (Option Value) → List (Option Value) → Bool
  | [], [] => true
  | x :: xs, y :: ys => equalPlace x y && equalAll xs ys
  | _, _ => false
termination_by structural xs => xs

def equalPlace : Option Value → Option Value → Bool
  | Option.none, Option.none => true
  | some x, some y => x.equal y
  | _, _ => false
termination_by structural v => v

end

mutual

/-- A copy of a value: arrays are rebuilt, all else is shared. -/
def copy : Value → Value
  | .array items => .array (copyAll items)
  | v => v
termination_by structural v => v

def copyPlace : Option Value → Option Value
  | Option.none => Option.none
  | some v => some v.copy
termination_by structural v => v

def copyAll : List (Option Value) → List (Option Value)
  | [] => []
  | v :: vs => copyPlace v :: copyAll vs
termination_by structural vs => vs

end

end Value

end Scriptlet

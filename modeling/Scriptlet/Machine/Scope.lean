/-
  Scriptlet.Machine.Scope — where identifiers have their values.

  A scope holds a table of tags, at most one for each identifier, and knows the scopes
  around it. An identifier is looked up in a scope and then in those around it, from the
  inside out; it is only ever bound in the scope itself. All scopes live in one store.
-/

import Scriptlet.Value

namespace Scriptlet

structure Tag where
  id : Int
  name : Text
  value : Option Value
  deriving Repr, Inhabited

namespace Tag

def new (id : Int) (name : Text) : Tag := ⟨id, name, some .none⟩

def render (t : Tag) : Text :=
  "<tag '" ++ t.name ++ "'[" ++ Text.ofInt t.id ++ "]=" ++ Value.repr t.value ++ ">"

end Tag

structure Table where
  tags : List Tag := []
  deriving Repr, Inhabited

namespace Table

def resolve? (t : Table) (id : Int) : Option Tag := t.tags.find? (·.id == id)

def putIn (tag : Tag) : List Tag → List Tag
  | [] => [tag]
  | u :: us => if u.id = tag.id then tag :: us else u :: putIn tag us

/-- Puts a tag into the table, in place of one for the same identifier. -/
def insert (t : Table) (tag : Tag) : Table := ⟨putIn tag t.tags⟩

/-- Gives an identifier a value. A tag that exists keeps its name. -/
def bind (t : Table) (id : Int) (name : Text) (v : Option Value) : Table :=
  match t.resolve? id with
  | some tag => t.insert { tag with value := v }
  | none => t.insert ⟨id, name, v⟩

def size (t : Table) : Nat := t.tags.length

def sorted (t : Table) : List Tag := t.tags.mergeSort fun a b => a.id ≤ b.id

end Table

structure Scope where
  name : Text
  /-- The scopes around this one, the innermost first. -/
  outer : List Nat := []
  table : Table := {}
  deriving Repr, Inhabited

namespace Scope

def depth (s : Scope) : Nat := s.outer.length

def render (s : Scope) : Text := "<scope " ++ s.name ++ ">"

end Scope

structure Scopes where
  list : Array Scope := #[]
  deriving Repr, Inhabited

namespace Scopes

def get? (s : Scopes) (i : Nat) : Option Scope := s.list[i]?

/-- A scope and those around it, from the inside out. -/
def chain (s : Scopes) (i : Nat) : List Nat := i :: ((s.get? i).map (·.outer)).getD []

def add (s : Scopes) (name : Text) (outer : List Nat) : Nat × Scopes :=
  (s.list.size, ⟨s.list.push { name := name, outer := outer }⟩)

def table (s : Scopes) (i : Nat) : Table := ((s.get? i).map (·.table)).getD {}

def update (s : Scopes) (i : Nat) (f : Table → Table) : Scopes :=
  ⟨s.list.modify i fun c => { c with table := f c.table }⟩

def bind (s : Scopes) (i : Nat) (id : Int) (name : Text) (v : Option Value) : Scopes :=
  s.update i (·.bind id name v)

/-- The tag of an identifier in the first of the scopes that has one, and that scope. -/
def resolveIn? (s : Scopes) (id : Int) (chain : List Nat) : Option (Tag × Nat) :=
  chain.findSome? fun i => ((s.table i).resolve? id).map (·, i)

def resolve? (s : Scopes) (i : Nat) (id : Int) : Option (Tag × Nat) := s.resolveIn? id (s.chain i)

def value? (s : Scopes) (i : Nat) (id : Int) : Option Value := (s.resolve? i id).bind (·.1.value)

end Scopes

end Scriptlet

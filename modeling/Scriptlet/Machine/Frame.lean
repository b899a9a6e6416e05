/-
  Scriptlet.Machine.Frame — the state of one block that is being run.

  A frame has a stack of operands and a stack of field groups, which collect the fields of
  struct instances that are not complete yet. Both are kept with the top first.
-/

import Scriptlet.Machine.Scope

namespace Scriptlet

/-- An entry of the operand stack. One that was loaded from an identifier remembers it, and
    has no value if the identifier has none. -/
structure Operand where
  value : Option Value
  ident : Option Int := none
  deriving Repr, Inhabited

namespace Operand

def noIdent : Int := -1

def loaded (v : Option Value) (id : Int) : Operand := ⟨v, if id = noIdent then none else some id⟩

def isResolved (o : Operand) : Bool := o.value.isSome

end Operand

structure Frame where
  name : Text
  unit : Text := []
  block : Int
  pc : Nat := 0
  scope : Nat
  operands : List Operand := []
  /-- Does the caller get a result? -/
  returns : Bool := false
  /-- The value of a return that was executed. -/
  result : Option Value := none
  groups : List (List Field) := []
  deriving Repr, Inhabited

namespace Frame

def renderAt (f : Frame) (pc : Int) (scope : Scope) : Text :=
  "<frame " ++ f.name ++ " #" ++ Text.ofInt f.block ++ "@" ++ Text.ofInt pc ++ " -> " ++ scope.render ++ ">"

def render (f : Frame) (scope : Scope) : Text := f.renderAt f.pc scope

def push (f : Frame) (o : Operand) : Frame := { f with operands := o :: f.operands }

def pushValue (f : Frame) (v : Value) : Frame := f.push ⟨some v, none⟩

def pop? (f : Frame) : Option (Operand × Frame) :=
  match f.operands with
  | [] => none
  | o :: os => some (o, { f with operands := os })

/-- The top `n` operands, the lowest one first. -/
def popN? (f : Frame) (n : Int) : Option (List Operand × Frame) :=
  if n < 0 || f.operands.length < n then none
  else some ((f.operands.take n.toNat).reverse, { f with operands := f.operands.drop n.toNat })

def height (f : Frame) : Nat := f.operands.length

def openGroup (f : Frame) : Frame := { f with groups := [] :: f.groups }

/-- Adds a field to the innermost group, or to a new one if there is none. -/
def addField (f : Frame) (fd : Field) : Frame :=
  match f.groups with
  | [] => { f with groups := [[fd]] }
  | g :: gs => { f with groups := (g ++ [fd]) :: gs }

/-- Takes the innermost group away; without any, the fields are none. -/
def closeGroup (f : Frame) : List Field × Frame :=
  match f.groups with
  | [] => ([], f)
  | g :: gs => (g, { f with groups := gs })

end Frame

end Scriptlet

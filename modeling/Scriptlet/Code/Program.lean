/-
  Scriptlet.Code.Program — compiled code: identifiers, constants and blocks.

  The tables only grow. A block is reserved before its code is known, since functions inside
  of it get their blocks in the meantime, and it stays without code if compiling it fails.
  The constructor sites of a block are the instructions that complete a struct instance.
-/

import Scriptlet.Code.Idents
import Scriptlet.Code.Instr
import Scriptlet.Value

namespace Scriptlet

structure Slot where
  code : Option Block := none
  sites : Option (List Nat) := none
  deriving DecidableEq, Repr, Inhabited

structure Program where
  idents : Idents := .empty
  consts : List Value := []
  slots : List Slot := []
  deriving Inhabited

namespace Program

/-- An element by its number; negative numbers have none. -/
def nth? {α : Type} (l : List α) (id : Int) : Option α :=
  match id with
  | .ofNat n => l[n]?
  | .negSucc _ => none

def slot? (p : Program) (id : Int) : Option Slot := nth? p.slots id

/-- The code of a block; one that has none yet is empty. -/
def block? (p : Program) (id : Int) : Option Block := (p.slot? id).map fun s => s.code.getD []

def const? (p : Program) (id : Int) : Option Value := nth? p.consts id

def sites? (p : Program) (id : Int) : Option (List Nat) := (p.slot? id).bind (·.sites)

def isConstructor (p : Program) (id pc : Int) : Bool := ((p.sites? id).getD []).any fun (site : Nat) => site == pc

def name (p : Program) (id : Int) : Text := p.idents.name id

def intern (p : Program) (name : Text) : Nat × Program :=
  let (id, t) := p.idents.intern name
  (id, { p with idents := t })

def addConst (p : Program) (v : Value) : Nat × Program :=
  (p.consts.length, { p with consts := p.consts ++ [v] })

def reserve (p : Program) : Nat × Program :=
  (p.slots.length, { p with slots := p.slots ++ [{}] })

def fill (p : Program) (id : Nat) (s : Slot) : Program := { p with slots := p.slots.set id s }

end Program

end Scriptlet

/-
  Scriptlet.Host.Handler — hosts: what becomes of the actions of a machine.

  A handler is told of one action after the other and keeps what it wants to remember in a
  state of its own. What it replies to calls and imports is handed back to the machine; its
  replies to other actions are not used.
-/

import Scriptlet.Machine.Action

namespace Scriptlet

structure Reply where
  /-- The result of the action, or why the action failed. -/
  result : Except Text (Option Value) := .ok (some .none)
  abort : Bool := false

structure Handler (σ : Type) where
  handle : σ → Action → Reply × σ

namespace Handler

def discard {σ : Type} : Handler σ := ⟨fun s _ => ({}, s)⟩

/-- Records all actions and answers calls by the name of the function; functions without an
    answer return none. -/
def recorder (answer : Text → Option (Option Value)) : Handler (List Action) where
  handle seen a :=
    let result := match a with
      | .call _ name _ => (answer name).getD (some .none)
      | _ => some .none
    ({ result := .ok result }, seen ++ [a])

end Handler

end Scriptlet

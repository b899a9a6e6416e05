/-
  Scriptlet.Machine.Action — what a machine asks of its host.

  Actions are the only way in which a machine acts on the outside. After a call or an import
  the machine waits until the host resumes it with a result.
-/

import Scriptlet.Value

namespace Scriptlet

inductive Action where
  | construct (id : Int) (type : Text)
  | destruct (id : Int)
  | loadField (id : Int) (field : Text)
  | storeField (id : Int) (field : Text) (value : Option Value)
  /-- A call of a host function; the receiver of a method is the first argument. -/
  | call (symbol : Int) (name : Text) (args : List Value)
  | importModule (path : Text)
  /-- There is no code left to run. -/
  | quit
  deriving Repr, Inhabited

namespace Action

def awaitsReply : Action → Bool
  | .call .. | .importModule _ => true
  | _ => false

def isQuit : Action → Bool
  | .quit => true
  | _ => false

def render : Action → Text
  | .construct id type => "Construct\x7b" ++ Text.ofInt id ++ " " ++ type ++ "\x7d"
  | .destruct id => "Destruct\x7b" ++ Text.ofInt id ++ "\x7d"
  | .loadField id field => "LoadField\x7b" ++ Text.ofInt id ++ " " ++ field ++ "\x7d"
  | .storeField id field v =>
    "StoreField\x7b" ++ Text.ofInt id ++ " " ++ field ++ " " ++ Value.repr v ++ "\x7d"
  | .call _ name args =>
    "Call\x7b" ++ name ++ "(" ++ Text.join ", " (args.map fun v => Value.repr (some v)) ++ ")\x7d"
  | .importModule path => "Import\x7b" ++ Text.quoted path ++ "\x7d"
  | .quit => "Quit"

end Action

end Scriptlet

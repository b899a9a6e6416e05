/-
  Scriptlet.Settings — configuration: values by dotted keys.

  A configuration file is a TOML document. Its tables are flattened, so that a key is the
  names on the way to a value, joined by dots; everything that is not a table is a value.
  Keys that a file does not set have their defaults. A value can be asked for as text, as an
  integer or as a truth value, whatever it is.
-/

import Scriptlet.Files
import Scriptlet.Machine.State
import Scriptlet.Toml.Build

namespace Scriptlet

open Toml (Tree Entries)

structure Settings where
  values : Entries := []
  deriving Inhabited

inductive SettingsError where
  | unreadable (path : Text) (why : FileError)
  | malformed (path : Text)
  deriving Repr

def SettingsError.message : SettingsError → Text
  | .unreadable path why => "reading configuration " ++ path ++ ": " ++ why.message
  | .malformed path => "reading configuration " ++ path ++ ": toml: malformed document"

namespace Settings

def get? (s : Settings) (key : Text) : Option Tree := Entries.find? s.values key

def set (s : Settings) (key : Text) (v : Tree) : Settings := ⟨Entries.put key v s.values⟩

def isSet (s : Settings) (key : Text) : Bool := (s.get? key).isSome

def defaults : Entries :=
  [("tracing.adapter", .str "go"), ("tracelevel.root", .str "Error"), ("tracinginterpreter", .str "Error"),
   ("vm.maxframes", .int 256), ("vm.hostfallback", .bool true),
   ("repl.prompt", .str "donitsi> "), ("repl.history", .str "")]

def withDefaults (s : Settings) : Settings :=
  defaults.foldl (fun s (k, v) => if s.isSet k then s else s.set k v) s

/-! ## Reading -/

def dotted (base key : Text) : Text := if base.isEmpty then key else base ++ "." ++ key

mutual

def add (key : Text) : Tree → Settings → Settings
  | .table entries, s => addAll key entries s
  | v, s => s.set key v
termination_by structural t => t

def addAll (base : Text) : List (Text × Tree) → Settings → Settings
  | [], s => s
  | (k, v) :: es, s => addAll base es (add (dotted base k) v s)
termination_by structural es => es

end

def ofText? (t : Text) : Option Settings := do
  let entries ← Toml.read? t
  return addAll [] entries (withDefaults {})

/-- The settings of a file. A file that does not exist sets nothing, as does the empty path. -/
def load (fs : Files) (path : Text) : Except SettingsError Settings :=
  if path.isEmpty then .ok (withDefaults {})
  else match fs.read path with
    | .error (.missing _) => .ok (withDefaults {})
    | .error e => .error (.unreadable path e)
    | .ok t => match ofText? t with
      | some s => .ok s
      | none => .error (.malformed path)

/-! ## Asking -/

/-- A value as text; keys without one have the empty text. -/
def text (s : Settings) (key : Text) : Text := ((s.get? key).map Tree.render).getD []

def nearest (n : Int) : Int64 := Int64.ofInt (max Int64.minValue.toInt (min n Int64.maxValue.toInt))

/-- The integer part of a number; where that is no 64-bit integer, the least one. -/
def truncated (x : Binary64) : Int64 :=
  match x.truncate? with
  | some n => if (nearest n).toInt = n then nearest n else Int64.minValue
  | none => Int64.minValue

/-- The integer that a text denotes, a sign and digits, or the nearest one there is. Anything
    else is zero, unless its digits alone are already beyond 64 bits. -/
def ofDigits (t : Text) : Int64 :=
  let (negative, rest) := Decimal.sign t
  let digits := rest.takeWhile Text.isDigit
  let n : Int := Text.digitsValue digits
  if digits.isEmpty || (digits.length < rest.length && n < 2 ^ 64) then 0
  else nearest (if negative then -n else n)

/-- A value as an integer; what is none counts as zero. -/
def int (s : Settings) (key : Text) : Int64 :=
  match s.get? key with
  | some (.int n) => n
  | some (.float x) => truncated x
  | some (.str t) => ofDigits t
  | _ => 0

/-- A value as a truth value; what is none counts as false. -/
def bool (s : Settings) (key : Text) : Bool :=
  match s.get? key with
  | some (.bool b) => b
  | some (.str t) => Text.trueWords.contains t
  | _ => false

def isInteractive (s : Settings) : Bool := s.bool "interactive"

def machineOptions (s : Settings) : Machine.Options :=
  let o : Machine.Options := {}
  let o := if s.isSet "vm.maxframes" then o.withLimit (s.int "vm.maxframes").toInt else o
  if s.isSet "vm.hostfallback" then { o with fallback := s.bool "vm.hostfallback" } else o

end Settings

end Scriptlet

/-
  Scriptlet.Files — the files that a command sees, and how paths lead to them.

  A place is a list of names, the outermost first. Relative paths start at the empty place;
  `..` above it and the root `/` are names of their own, and count as directories whose
  contents are known only as far as they were added.
-/

import Scriptlet.Text

namespace Scriptlet

inductive FileError where
  | missing (path : Text)
  | notDirectory (path : Text)
  | nameTooLong (path : Text)
  | invalid (path : Text)
  /-- A directory stands where a file was to be read. -/
  | readDirectory (path : Text)
  /-- A directory stands, or would have to stand, where a file was to be written. -/
  | writeDirectory (path : Text)
  deriving DecidableEq, Repr, Inhabited

def FileError.message : FileError → Text
  | .missing p => "open " ++ p ++ ": no such file or directory"
  | .notDirectory p => "open " ++ p ++ ": not a directory"
  | .nameTooLong p => "open " ++ p ++ ": file name too long"
  | .invalid p => "open " ++ p ++ ": invalid argument"
  | .readDirectory p => "read " ++ p ++ ": is a directory"
  | .writeDirectory p => "open " ++ p ++ ": is a directory"

abbrev Place := List Text

inductive FileEntry where
  | file (content : Text)
  | directory
  deriving DecidableEq, Repr, Inhabited

structure Files where
  entries : List (Place × FileEntry) := []
  deriving Repr, Inhabited

namespace Files

def maxName : Nat := 255

def maxPath : Nat := 4095

def root : Text := "/"

def up : Text := ".."

def isStart (p : Place) : Bool := p == [root] || p.all (· == up)

def entry? (fs : Files) (p : Place) : Option FileEntry :=
  if isStart p then some .directory else (fs.entries.find? (·.1 == p)).map (·.2)

def put (fs : Files) (p : Place) (e : FileEntry) : Files :=
  ⟨fs.entries.filter (·.1 != p) ++ [(p, e)]⟩

def parent (p : Place) : Place :=
  if p == [root] then p else if p.all (· == up) then p ++ [up] else p.dropLast

inductive Found where
  | file (place : Place) (content : Text)
  | directory (place : Place)
  /-- There is nothing, in a directory that exists. -/
  | nothing (place : Place)
  deriving Repr

/-- Follows the parts of a path from a directory. Parts without a name stay there, so that
    nothing but a directory can have a `/` behind it. -/
def walk (fs : Files) (path : Text) (here : Place) : List Text → Except FileError Found
  | [] => .ok (.directory here)
  | name :: rest =>
    if name = [] ∨ name = "." then walk fs path here rest
    else if name = up then walk fs path (parent here) rest
    else if maxName < name.length then .error (.nameTooLong path)
    else match fs.entry? (here ++ [name]) with
      | some .directory => walk fs path (here ++ [name]) rest
      | some (.file content) =>
        if rest.isEmpty then .ok (.file (here ++ [name]) content) else .error (.notDirectory path)
      | none =>
        if rest.isEmpty then .ok (.nothing (here ++ [name]))
        else if rest.all (· == []) then .error (.writeDirectory path)
        else .error (.missing path)

def isAbsolute (path : Text) : Bool := path.head? == some '/'.toUInt8

def find (fs : Files) (path : Text) : Except FileError Found :=
  if path.isEmpty then .error (.missing path)
  else if path.contains 0 then .error (.invalid path)
  else if maxPath < path.length then .error (.nameTooLong path)
  else walk fs path (if isAbsolute path then [root] else []) (Text.splitBy (· == '/'.toUInt8) path)

def pathOf (p : Place) : Text :=
  match p with
  | [] => "."
  | name :: rest => if name = root then root ++ Text.join "/" rest else Text.join "/" p

/-- The places that a path can lead through, as far as it can be told without looking. -/
def placesOn (path : Text) : List Place :=
  let start : Place := if isAbsolute path then [root] else []
  let step : List Place × Place → Text → List Place × Place := fun (seen, here) name =>
    if name = [] ∨ name = "." then (seen, here)
    else
      let next := if name = up then parent here else here ++ [name]
      (seen ++ [next], next)
  ((Text.splitBy (· == '/'.toUInt8) path).foldl step ([], start)).1

def read (fs : Files) (path : Text) : Except FileError Text :=
  match fs.find path with
  | .ok (.file _ content) => .ok content
  | .ok (.directory _) => .error (.readDirectory path)
  | .ok (.nothing _) | .error (.writeDirectory _) => .error (.missing path)
  | .error e => .error e

def write (fs : Files) (path content : Text) : Except FileError Files :=
  match fs.find path with
  | .ok (.file p _) | .ok (.nothing p) => .ok (fs.put p (.file content))
  | .ok (.directory _) => .error (.writeDirectory path)
  | .error e => .error e

end Files

structure Source where
  name : Text
  text : Text
  deriving DecidableEq, Repr

def Source.inlineName : Text := "inline"

/-- The program that an argument stands for: the file of that name or else the argument itself. -/
def Files.source (fs : Files) (arg : Text) : Source :=
  match fs.read arg with
  | .ok content => ⟨arg, content⟩
  | .error _ => ⟨Source.inlineName, arg⟩

end Scriptlet

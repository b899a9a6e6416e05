/-
  Scriptlet.Toml.Tree — the data of a TOML document.

  A document is a table. Lists of tables that were built by headers are told apart from
  lists that were written as values, since only the former can grow.
-/

import Scriptlet.Number.Decimal
import Scriptlet.Toml.Moment

namespace Scriptlet.Toml

inductive Tree where
  | str (s : Text)
  | int (n : Int64)
  | float (x : Binary64)
  | bool (b : Bool)
  | moment (m : Moment)
  | list (items : List Tree)
  /-- Tables that were added one by one. -/
  | tables (items : List (List (Text × Tree)))
  | table (entries : List (Text × Tree))
  deriving Repr, Inhabited

abbrev Entries := List (Text × Tree)

namespace Tree

def bracketed (parts : List Text) : Text := "[" ++ Text.join " " parts ++ "]"

def sortedEntries (es : List (Text × Text)) : List (Text × Text) := es.mergeSort fun a b => decide (a.1 ≤ b.1)

def mapText (es : List (Text × Text)) : Text :=
  "map" ++ bracketed ((sortedEntries es).map fun (k, v) => k ++ ":" ++ v)

mutual

def render : Tree → Text
  | .str s => s
  | .int n => Text.ofInt n.toInt
  | .float x => x.render
  | .bool b => if b then "true" else "false"
  | .moment m => m.render
  | .list items => bracketed (renderAll items)
  | .tables items => bracketed (renderTables items)
  | .table entries => mapText (renderEntries entries)
termination_by structural t => t

def renderAll : List Tree → List Text
  | [] => []
  | t :: ts => render t :: renderAll ts
termination_by structural ts => ts

def renderTables : List (List (Text × Tree)) → List Text
  | [] => []
  | t :: ts => mapText (renderEntries t) :: renderTables ts
termination_by structural ts => ts

def renderEntries : List (Text × Tree) → List (Text × Text)
  | [] => []
  | (k, v) :: es => (k, render v) :: renderEntries es
termination_by structural es => es

end

end Tree

end Scriptlet.Toml

/-
  Scriptlet.Toml.Build — from the statements of a document to its data.

  A key can be set only once. A table that exists only because a longer key runs through it
  may still be declared, once, by a header or by being extended: such tables are `implicit`.
  Extending the table of a list of tables means its last one. Lists written as values are the
  exception: they give way to whatever is set in their place, and take the place of what was
  there. What is noted of a key whose last part is empty is noted of the table it is in.
-/

import Scriptlet.Toml.Document

namespace Scriptlet.Toml

structure Builder where
  root : Entries := []
  implicit : List Path := []
  lists : List Path := []

namespace Entries

def find? (es : Entries) (k : Text) : Option Tree := (List.find? (·.1 == k) es).map (·.2)

def put (k : Text) (v : Tree) : Entries → Entries
  | [] => [(k, v)]
  | (k', v') :: es => if k' = k then (k, v) :: es else (k', v') :: put k v es

end Entries

def Tree.entries? : Tree → Option Entries
  | .table es => some es
  | .tables ts => ts.getLast?
  | _ => none

def Tree.withEntries (es : Entries) : Tree → Tree
  | .tables ts => .tables (ts.dropLast ++ [es])
  | _ => .table es

namespace Entries

def at? : Path → Entries → Option Entries
  | [], es => some es
  | k :: p, es => do at? p (← (← Entries.find? es k).entries?)

def update? (f : Entries → Entries) : Path → Entries → Option Entries
  | [], es => some (f es)
  | k :: p, es => do
    let t ← Entries.find? es k
    let inner ← update? f p (← t.entries?)
    return Entries.put k (t.withEntries inner) es

end Entries

abbrev Build := StateT Builder Option

namespace Build

def markImplicit (p : Path) : Build Unit := modify fun b => { b with implicit := p :: b.implicit }

def clearImplicit (p : Path) : Build Unit := modify fun b => { b with implicit := b.implicit.filter (· != p) }

def markList (p : Path) (isList : Bool) : Build Unit :=
  modify fun b => { b with lists := if isList then p :: b.lists else b.lists.filter (· != p) }

def noteAt (full : Path) : Path :=
  if full.getLast? = some [] ∧ full.dropLast ≠ [] then full.dropLast else full

def noteValue (full : Path) (v : Tree) : Build Unit := markList (noteAt full) (v matches .list _)

def entriesAt (p : Path) : Build Entries := do
  match Entries.at? p (← get).root with
  | some es => return es
  | none => failure

def put (p : Path) (k : Text) (v : Tree) : Build Unit := do
  match Entries.update? (Entries.put k v) p (← get).root with
  | some root => modify fun b => { b with root := root }
  | none => failure

def set (p : Path) (k : Text) (v : Tree) : Build Unit := do
  if (Entries.find? (← entriesAt p) k).isNone then put p k v
  else
    let full := p ++ [k]
    let b ← get
    if b.lists.contains full then
      clearImplicit full
      put p k v
    else if b.implicit.contains full then clearImplicit full
    else failure

/-- Makes the tables that a key runs through, as far as they are missing. -/
def through (p : Path) : Path → Build Unit
  | [] => return ()
  | k :: ks => do
    if (Entries.find? (← entriesAt p) k).isNone then
      markImplicit (p ++ [k])
      put p k (.table [])
    let _ ← entriesAt (p ++ [k])
    through (p ++ [k]) ks

def declare (path : Path) : Build Unit := do
  through [] path.dropLast
  set path.dropLast (path.getLast?.getD []) (.table [])

def extend (path : Path) : Build Unit := do
  let (p, k) := (path.dropLast, path.getLast?.getD [])
  through [] p
  match Entries.find? (← entriesAt p) k with
  | none => put p k (.tables [[]])
  | some (.tables ts) => put p k (.tables (ts ++ [[]]))
  | some _ => failure

/-- Makes the tables in front of the last part of a key, under the table at `p`. -/
def enter (p : Path) : Path → Build Path
  | [] => return p
  | k :: ks => do
    markImplicit (p ++ [k])
    declare (p ++ [k])
    enter (p ++ [k]) ks

def nest (v : Tree) : Path → Entries → Option Entries
  | [], _ => none
  | [k], es => some (Entries.put k v es)
  | k :: p, es => do
    match Entries.find? es k with
    | none => return Entries.put k (.table (← nest v p [])) es
    | some (.table inner) => return Entries.put k (.table (← nest v p inner)) es
    | some _ => none

mutual

/-- The value of the key at a path; `inList` tells whether the expression is an element of a list
    there. A table is entered into the data on the way, so that its keys are checked. -/
def value (full : Path) (inList : Bool) : Expr → Build Tree
  | .literal v => return v
  | .list es => do
    markList (noteAt full) true
    return .list (← values full es)
  | .table es => do
    markImplicit full
    if inList then extend full else declare full
    return .table (← entries full es [])
termination_by structural e => e

def values (full : Path) : List Expr → Build (List Tree)
  | [] => return []
  | e :: es => do
    let v ← value full true e
    return v :: (← values full es)
termination_by structural es => es

def entries (full : Path) : List (Path × Expr) → Entries → Build Entries
  | [], built => return built
  | (p, e) :: es, built => do
    let table ← enter full p.dropLast
    let k := p.getLast?.getD []
    let v ← value (table ++ [k]) false e
    set table k v
    noteValue (table ++ [k]) v
    match nest v p built with
    | some built => entries full es built
    | none => failure
termination_by structural es => es

end

/-- Enters a statement that stands below the header `table`, and returns the header below which
    the next one stands. -/
def statement (table : Path) : Statement → Build Path
  | .header p => do
    declare p
    markList p false
    return p
  | .tableOf p => do
    extend p
    markList p false
    return p
  | .assign p e => do
    let inner ← enter table p.dropLast
    let full := inner ++ [p.getLast?.getD []]
    let v ← value full false e
    set inner (p.getLast?.getD []) v
    noteValue full v
    return table

end Build

def read? (t : Text) : Option Entries := do
  let ss ← document? t
  let (_, b) ← (ss.foldlM Build.statement []).run {}
  return b.root

end Scriptlet.Toml

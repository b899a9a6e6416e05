/-
  Scriptlet.Console — what is shown to the user.

  Output is text that grows. Notes and errors stand behind a mark, and their further lines
  are indented so that they stand below the first one. A syntax tree is drawn with lines from
  each node to its children. The console is a host: it prints what programs ask it to print.
  Tags are rendered in all of this, a few times over, and in parts before the whole.
-/

import Scriptlet.Console.Markup
import Scriptlet.Host.Handler
import Scriptlet.Syntax.Node

namespace Scriptlet.Console

def newline : UInt8 := '\n'.toUInt8

def bell : Text := [7]

def home : Text := "\x1b[H"

def line (t : Text) : Text := t ++ [newline]

def renderings : Nat := 5

def printed (t : Text) : Text := styledTimes renderings (line t)

/-- A text behind a mark. The newlines at its end, however many, leave one empty line. -/
def marked (mark t : Text) : Text :=
  let t := styled t
  let body := (t.reverse.dropWhile (· == newline)).reverse
  let indent := List.replicate (mark.length + 1) ' '.toUInt8
  let shown := Text.join (newline :: indent) ((Text.splitBy (· == newline) body).map styled)
  let gap := if body.length < t.length then [newline] else []
  printed (styled (mark ++ " " ++ shown ++ gap))

def note (t : Text) : Text := marked "   >> " t

def error (t : Text) : Text := marked "   Error " t

/-! ## Trees -/

/-- Is a node at depth `d` followed by a sibling, if these are the lines below it? -/
def hasSibling (d : Nat) (below : List Node.Line) : Bool :=
  match below.find? (·.depth ≤ d) with
  | some l => l.depth == d
  | none => false

def hasChild (d : Nat) (below : List Node.Line) : Bool :=
  match below with
  | [] => false
  | l :: _ => d < l.depth

/-- A line of a tree: the lines that pass it on the left, its own branch and its label. -/
def branch (l : Node.Line) (below : List Node.Line) : Text :=
  let passing := (List.range l.depth).flatMap fun d => Text.ofString (if hasSibling d below then "│ " else "  ")
  let fork : Text := if hasSibling l.depth below then "├" else "└"
  let arm : Text := if hasChild l.depth below then "─┬" else "──"
  passing ++ fork ++ arm ++ styled l.label

def branches : List Node.Line → List Text
  | [] => []
  | l :: below => branch l below :: branches below

def tree (program : List Node) : Text :=
  match Node.outlines 0 program with
  | [] => printed "(empty)"
  | ls => printed (Text.unlines (branches ls))

/-! ## The console as a host -/

def functions : List Text := ["print", "info"]

def words (args : List Value) : Text := Text.join " " (args.map Value.text)

/-- What is shown for an action. Calls of other functions are reported, and all other actions
    only if asked for. -/
def shown (verbose : Bool) : Action → Text
  | .call id name args =>
    if name = "print" then printed (words args)
    else if name = "info" then note (words args)
    else note ("host call " ++ (Action.call id name args).render)
  | .importModule path => error ("imports are not supported: " ++ path)
  | a => if verbose then note a.render else []

def handler (verbose : Bool) : Handler Text := ⟨fun out a => ({}, out ++ shown verbose a)⟩

end Scriptlet.Console

/-
  Scriptlet.Editor.History — the lines that were entered before.

  The history is a list of lines with a current one, the last of which is the line that is being
  typed. A line that is shown again can be edited: its draft is kept beside it until a line is
  entered, which makes a new version of the history. Lines may also be kept in a file.
-/

import Scriptlet.Editor.Draft
import Scriptlet.Text.Utf8

namespace Scriptlet

structure HistoryItem where
  line : List Char := []
  draft : Draft := {}
  /-- The version of the history to which the draft belongs. -/
  version : Nat := 0
  deriving Repr, Inhabited

structure History where
  /-- The lines in front of the current one, the nearest one first. -/
  older : List HistoryItem := []
  current : Option HistoryItem := none
  newer : List HistoryItem := []
  version : Nat := 0
  /-- The content of the file with the lines, if they are kept in one. -/
  file : Option Text := none
  deriving Repr, Inhabited

namespace History

def limit : Nat := 500

def shown (h : History) (i : HistoryItem) : List Char :=
  if i.version = h.version then i.draft.chars else i.line

def older? (h : History) : Option (List Char × History) :=
  match h.current, h.older with
  | some now, i :: is => some (h.shown i, { h with older := is, current := some i, newer := now :: h.newer })
  | _, _ => none

def newer? (h : History) : Option (List Char × History) :=
  match h.current, h.newer with
  | some now, i :: is => some (h.shown i, { h with older := now :: h.older, current := some i, newer := is })
  | _, _ => none

def atLast (h : History) : History :=
  match h.newer.reverse with
  | [] => h
  | last :: between =>
    { h with older := between ++ h.current.toList ++ h.older, current := some last, newer := [] }

def push (h : History) (line : List Char) : History :=
  let h := h.atLast
  { h with older := (h.current.toList ++ h.older).take (limit - 1), current := some { line := line } }

def keep (h : History) (d : Draft) : History :=
  match h.current with
  | some i => { h with current := some { i with draft := d, version := h.version } }
  | none => h.push d.chars

def commit (h : History) (line : List Char) : History :=
  let written := Text.ofChars line ++ ['\n'.toUInt8]
  let h := match h.current with
    | some i =>
      { h with
        current := some { i with line := line, version := h.version }
        file := h.file.map (· ++ written) }
    | none => h.push line
  { h with version := h.version + 1 }.push []

/-- A line is entered. If it is the one entered last, or empty, it is not kept. -/
def enter (h : History) (line : List Char) : History :=
  let h := h.atLast
  let isRepeated := h.older.head?.any (·.line == line)
  match h.current with
  | some i =>
    if isRepeated || line.isEmpty then
      { h with current := some { i with line := [], draft := {} }, version := h.version + 1 }
    else h.commit line
  | none => h.commit line

/-- The history that a file holds. Blank lines do not count, nor does a last line without an end.
    A file that has grown too long is shortened to the lines that are remembered. -/
def ofFile (content : Text) : History :=
  let ended := (Text.splitBy (· == '\n'.toUInt8) content).dropLast
  let lines := (ended.map Text.trim).filter (!·.isEmpty)
  let lines := lines.drop (lines.length - limit)
  let content := if limit < ended.length then Text.unlines (lines.map Text.repaired) else content
  let h := lines.foldl (fun (h : History) l => h.push l.chars) {}
  { h with version := 1, file := some content }.push []

end History

end Scriptlet

/-
  Scriptlet.Editor — lines that are typed and edited.

  The editor takes the characters of an input one by one. A key that cannot do its work rings
  the bell. The cursor can get behind the end of a line; there, a key that would change the line
  breaks the editor, and so does a search of the history.
-/

import Scriptlet.Editor.History
import Scriptlet.Editor.Keystroke

namespace Scriptlet

structure Editor where
  reader : KeyReader := .plain
  draft : Draft := {}
  history : History := {}
  killed : List Char := []
  deriving Repr, Inhabited

inductive Typed where
  | nothing
  | bell
  | clearScreen
  | entered (line : List Char)
  | ended
  | broken
  deriving DecidableEq, Repr

namespace Editor

def enter (e : Editor) : Typed × Editor :=
  let line := e.draft.chars
  (.entered line, { e with draft := {}, history := (e.history.enter line).keep {} })

def edit (e : Editor) (d : Draft) (what : Typed) : Typed × Editor :=
  (what, { e with draft := d, history := e.history.keep d })

def change (e : Editor) (f : Draft → Draft) : Typed × Editor :=
  if e.draft.beyond = 0 then e.edit (f e.draft) .nothing else (.broken, e)

/-- Changes the draft and remembers what was killed, unless the cursor is behind its end. -/
def kill (e : Editor) (f : Draft → Draft × Option (List Char)) : Typed × Editor :=
  if e.draft.beyond = 0 then
    let (d, killed) := f e.draft
    { e with killed := killed.getD e.killed }.edit d .nothing
  else (.broken, e)

def bring (e : Editor) (found : Option (List Char × History)) : Typed × Editor :=
  match found with
  | some (line, h) => { e with history := h }.edit (.ofChars line) .nothing
  | none => e.edit e.draft .bell

def press (e : Editor) : Keystroke → Typed × Editor
  | .insert c => e.change (·.insert c)
  | .enter => e.enter
  | .stop => if e.draft.isEmpty then (.ended, e) else e.enter
  | .interrupt => (.ended, e)
  | .delete =>
    if e.draft.isEmpty then (.ended, e)
    else if e.draft.after.isEmpty && e.draft.beyond = 0 then e.edit e.draft .bell
    else e.kill (·.delete)
  | .backspace => if e.draft.isEmpty then e.edit e.draft .bell else e.change (·.backspace)
  | .lineStart => e.edit e.draft.lineStart .nothing
  | .lineEnd => e.edit e.draft.lineEnd .nothing
  | .back => e.edit e.draft.back .nothing
  | .forward => e.edit e.draft.forward .nothing
  | .wordBack => e.change (·.wordBack)
  | .wordForward => e.edit e.draft.wordForward .nothing
  | .killRest => e.kill (·.killRest)
  | .killFront => e.kill (·.killFront)
  | .killWord => e.kill (·.killWord)
  | .deleteWord => e.kill (·.deleteWord)
  | .yank => if e.killed.isEmpty then e.edit e.draft .nothing else e.change (·.insertAll e.killed)
  | .transpose => e.edit e.draft.transpose .nothing
  | .older => e.bring e.history.older?
  | .newer => e.bring e.history.newer?
  | .clearScreen => e.edit e.draft .clearScreen
  | .search => (.broken, e)
  | .ignored => e.edit e.draft .nothing

end Editor

end Scriptlet

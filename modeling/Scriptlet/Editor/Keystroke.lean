/-
  Scriptlet.Editor.Keystroke — what the characters of an input mean to an editor.

  Most characters stand for themselves. Control characters are commands, and so are sequences
  that start with an escape: those of a letter, and those of a bracket, numbers and a final
  character. Sequences that mean nothing are dropped.
-/

import Scriptlet.Text.Numeric

namespace Scriptlet

inductive Keystroke where
  | insert (c : Char)
  | enter
  | stop
  | interrupt
  | delete
  | backspace
  | lineStart
  | lineEnd
  | back
  | forward
  | wordBack
  | wordForward
  | killRest
  | killFront
  | killWord
  | deleteWord
  | yank
  | transpose
  | older
  | newer
  | clearScreen
  | search
  | ignored
  deriving DecidableEq, Repr

namespace Keystroke

def escape : Char := '\x1b'

def ofChar (c : Char) : Keystroke :=
  match c.toNat with
  | 0 => .stop
  | 1 => .lineStart
  | 2 => .back
  | 3 => .interrupt
  | 4 => .delete
  | 5 => .lineEnd
  | 6 => .forward
  | 7 => .ignored
  | 8 => .backspace
  | 10 => .enter
  | 11 => .killRest
  | 12 => .clearScreen
  | 13 => .enter
  | 14 => .newer
  | 16 => .older
  | 18 => .search
  | 19 => .search
  | 20 => .transpose
  | 21 => .killFront
  | 23 => .killWord
  | 25 => .yank
  | 26 => .ignored
  | 127 => .backspace
  | _ => .insert c

/-- The meaning of a bracket sequence with a parameter and a final character, if it has one. -/
def ofSequence? (parameter : List Char) (final : Char) : Option Keystroke :=
  match final with
  | 'A' => some .older
  | 'B' => some .newer
  | 'C' => some .forward
  | 'D' => some .back
  | 'H' => some .lineStart
  | 'F' => some .lineEnd
  | '~' => if parameter = ['3'] then some .delete else none
  | _ => none

/-- The meaning of a character right behind an escape, if it does not go on from there. -/
def ofEscaped (c : Char) : Keystroke :=
  match c with
  | 'b' => .wordBack
  | 'f' => .wordForward
  | 'd' => .deleteWord
  | '\x7f' => .killWord
  | '\x14' => .insert (Char.ofNat 0xFFFD)
  | c => ofChar c

end Keystroke

inductive KeyReader where
  | plain
  | escape
  /-- Behind an escape and the letter `O`. -/
  | letter
  /-- Behind an escape and a bracket, with the parameter so far. -/
  | sequence (parameter : List Char)
  deriving DecidableEq, Repr

namespace KeyReader

def readPlain (c : Char) : KeyReader × List Keystroke :=
  if c = Keystroke.escape then (.escape, []) else (.plain, [.ofChar c])

/-- Reads a character, and gives the keystrokes that are complete with it. -/
def read (c : Char) : KeyReader → KeyReader × List Keystroke
  | .plain => readPlain c
  | .escape =>
    if c = Keystroke.escape then (.escape, [])
    else if c = '[' then (.sequence [], [])
    else if c = 'O' then (.letter, [])
    else (.plain, [.ofEscaped c])
  | .letter =>
    if c = 'H' then (.plain, [.lineStart])
    else if c = 'F' then (.plain, [.lineEnd])
    else
      let (reader, keys) := readPlain c
      (reader, .insert 'O' :: keys)
  | .sequence p =>
    if Text.isNumeric c || c = ';' then (.sequence (p ++ [c]), [])
    else (.plain, (Keystroke.ofSequence? p c).toList)

/-- What the end of the input means. The first stop may still enter a line. -/
def finish : KeyReader → List Keystroke
  | .letter => [.insert 'O', .stop, .stop]
  | _ => [.stop, .stop]

end KeyReader

end Scriptlet

/-
  Scriptlet.Session — interactive sessions.

  Every line is loaded into the same machine as a unit of its own, so that bindings persist
  from line to line; a machine that halts is made ready for the next one. A line that starts
  with a colon is a command of the session itself.
-/

import Scriptlet.Console
import Scriptlet.Editor
import Scriptlet.Host.Run

namespace Scriptlet

structure Session where
  machine : Machine
  editor : Editor := {}
  verbose : Bool := false
  count : Nat := 0
  /-- The name of the unit loaded last. -/
  last : Option Text := none
  output : Text := []

inductive SessionError where
  | unknownCommand (name : Text)
  | parse (e : SyntaxError)
  | run (e : RunError)

def SessionError.message : SessionError → Text
  | .unknownCommand name => "unknown command :" ++ name
  | .parse e => e.message
  | .run e => e.message

inductive SessionResult where
  | done
  | quit
  | failed (e : SessionError)

namespace Session

def print (s : Session) (t : Text) : Session := { s with output := s.output ++ t }

def listing (s : Session) : Text :=
  match s.last.bind s.machine.unitBlock? with
  | some code => Text.unlines (code.getD []).listing
  | none => []

def command (s : Session) (name arg : Text) : SessionResult × Session :=
  if name = "quit" ∨ name = "q" then (.quit, s)
  else if name = "ast" then
    match Parse.source arg with
    | .error e => (.failed (.parse e), s)
    | .ok program => (.done, s.print (Console.tree program))
  else if name = "dump" then (.done, s.print s.listing)
  else (.failed (.unknownCommand name), s)

def program (s : Session) (line : Text) : SessionResult × Session :=
  let name : Text := "line " ++ Text.ofNat (s.count + 1)
  let s := { s with count := s.count + 1 }
  match s.machine.load name line with
  | (.error e, m) => (.failed (.run (.machine e)), { s with machine := m })
  | (.ok _, m) =>
    let (e, m, output) := m.runReset (Console.handler s.verbose) s.output
    let s := { s with machine := m, output := output, last := some name }
    match e with
    | some e => (.failed (.run e), s)
    | none => (.done, s)

def eval (s : Session) (line : Text) : SessionResult × Session :=
  match line with
  | [] => (.done, s)
  | b :: r =>
    if b = ':'.toUInt8 then
      let (name, arg) := Text.cut ' '.toUInt8 r
      s.command name (arg.getD [])
    else s.program line

/-! ## Lines of a file -/

def maxLine : Nat := 65536

/-- Takes the lines of a file, of which the first has the number `n`. A line that is too long
    ends the file. Errors are shown with the number of their line, and nothing quits. -/
def lines (n : Nat) (s : Session) : List Text → Session
  | [] => s
  | l :: ls =>
    if maxLine ≤ l.length then s
    else
      let line := l.trim
      if line.isEmpty then lines (n + 1) s ls
      else match s.eval line with
        | (.failed e, s) =>
          lines (n + 1) (s.print (Console.error ("init file line " ++ Text.ofNat n ++ ": " ++ e.message))) ls
        | (_, s) => lines (n + 1) s ls

def ofFile (s : Session) (content : Text) : Session :=
  s.lines 1 (Text.splitBy (· == Console.newline) content)

/-! ## Lines that are typed -/

inductive Going where
  | goes
  | over
  /-- The editor is broken, and the session with it. -/
  | broken
  deriving DecidableEq, Repr

def enter (s : Session) (typed : Text) : Going × Session :=
  let line := typed.trim
  if line.isEmpty then (.goes, s)
  else match s.eval line with
    | (.done, s) => (.goes, s)
    | (.quit, s) => (.over, s)
    | (.failed e, s) => (.goes, s.print (Console.error e.message))

def press (s : Session) (k : Keystroke) : Going × Session :=
  let (typed, editor) := s.editor.press k
  let s := { s with editor := editor }
  match typed with
  | .nothing => (.goes, s)
  | .bell => (.goes, s.print Console.bell)
  | .clearScreen => (.goes, s.print Console.home)
  | .entered line => s.enter (Text.ofChars line)
  | .ended => (.over, s)
  | .broken => (.broken, s)

def pressAll (s : Session) : List Keystroke → Going × Session
  | [] => (.goes, s)
  | k :: ks =>
    match s.press k with
    | (.goes, s) => pressAll s ks
    | ended => ended

def type (s : Session) : List Char → Going × Session
  | [] => (.goes, s)
  | c :: cs =>
    let (reader, keys) := s.editor.reader.read c
    match { s with editor.reader := reader }.pressAll keys with
    | (.goes, s) => type s cs
    | ended => ended

def stop (s : Session) : Going × Session := s.pressAll s.editor.reader.finish

def welcome (s : Session) : Session := s.print (Console.note "Welcome to donitsi")

def farewell (s : Session) : Session := s.print (Console.printed "Good bye!")

end Session

end Scriptlet

/-
  Scriptlet.Editor.Draft — a line that is being edited.

  A draft is cut in two by the cursor. Words are made of ASCII letters and digits, and begin
  where something else stands in front of them.
-/

namespace Scriptlet

structure Draft where
  /-- The characters in front of the cursor, the nearest one first. -/
  before : List Char := []
  after : List Char := []
  /-- How far the cursor stands behind the end. -/
  beyond : Nat := 0
  deriving DecidableEq, Repr, Inhabited

namespace Draft

def chars (d : Draft) : List Char := d.before.reverse ++ d.after

def isEmpty (d : Draft) : Bool := d.before.isEmpty && d.after.isEmpty

def ofChars (cs : List Char) : Draft := { before := cs.reverse }

def isBreak (c : Char) : Bool := !c.isAlphanum

def insert (d : Draft) (c : Char) : Draft := { d with before := c :: d.before }

def insertAll (d : Draft) (cs : List Char) : Draft := { d with before := cs.reverse ++ d.before }

/-! ## Moving -/

def lineStart (d : Draft) : Draft := { after := d.chars }

def lineEnd (d : Draft) : Draft := ofChars d.chars

def back (d : Draft) : Draft :=
  match d.beyond, d.before with
  | n + 1, _ => { d with beyond := n }
  | 0, c :: cs => { before := cs, after := c :: d.after }
  | 0, [] => d

def forward (d : Draft) : Draft :=
  match d.beyond, d.after with
  | n + 1, _ => { d with beyond := n + 2 }
  | 0, c :: cs => { before := c :: d.before, after := cs }
  | 0, [] => d

/-- How many characters, taken from the front of a reversed line, lead to the beginning of a word;
    that of the whole line does not count. -/
def backToWord : List Char → Option Nat
  | c :: p :: rest => if !isBreak c && isBreak p then some 1 else (backToWord (p :: rest)).map (· + 1)
  | _ => none

def toNextWord : List Char → Option Nat
  | p :: c :: rest => if !isBreak c && isBreak p then some 1 else (toNextWord (c :: rest)).map (· + 1)
  | _ => none

def wordBack (d : Draft) : Draft :=
  match backToWord d.before with
  | some n => { before := d.before.drop n, after := (d.before.take n).reverse ++ d.after }
  | none => d.lineStart

def wordForward (d : Draft) : Draft :=
  match toNextWord d.after with
  | some n => { before := (d.after.take n).reverse ++ d.before, after := d.after.drop n }
  | none => d.lineEnd

/-! ## Deleting

What is killed can be put back; `none` leaves it what it was. -/

def backspace (d : Draft) : Draft := { d with before := d.before.drop 1 }

def delete (d : Draft) : Draft × Option (List Char) :=
  match d.after with
  | [] => (d, none)
  | c :: cs => ({ d with after := cs }, some [c])

def killRest (d : Draft) : Draft × Option (List Char) := ({ d with after := [] }, some d.after)

def killFront (d : Draft) : Draft × Option (List Char) :=
  if d.before.isEmpty then (d, none) else ({ after := d.after }, some d.before.reverse)

/-- Kills back to the beginning of a word. In the first word, the whole line is dropped. -/
def killWord (d : Draft) : Draft × Option (List Char) :=
  if d.before.isEmpty then (d, none)
  else match backToWord d.before with
    | some n => ({ d with before := d.before.drop n }, some (d.before.take n).reverse)
    | none => ({}, none)

/-- Kills up to the character in front of the next word, or the rest of the line. -/
def deleteWord (d : Draft) : Draft × Option (List Char) :=
  if d.after.isEmpty then (d, none)
  else
    let breaks := (d.after.takeWhile isBreak).length
    match toNextWord (d.after.drop breaks) with
    | some n => ({ d with after := d.after.drop (breaks + n - 1) }, some (d.after.take (breaks + n - 1)))
    | none => d.killRest

/-- Exchanges the characters at the cursor, and steps on. On a line of one character there is
    nothing to exchange. -/
def transpose (d : Draft) : Draft :=
  match d.before, d.after with
  | [], [c] => { before := [c] }
  | [_], [] => { d with beyond := d.beyond + 1 }
  | a :: b :: before, [] => { before := b :: a :: before }
  | [], a :: b :: after => { before := [a, b], after := after }
  | a :: before, b :: after => { before := a :: b :: before, after := after }
  | [], [] => d

end Draft

end Scriptlet

/-
  Scriptlet.Token.Regex — patterns written as regular expressions.

  A choice `a|b` is made of series, and a series of at least one item: a byte, a class in
  brackets, a `.` for any byte, or a choice in parentheses, each with any number of the marks
  `*`, `+` and `?` behind it. A backslash takes the meaning from the byte behind it, or gives it
  one: `n`, `r` and `t` are control characters, and `d`, `s` and `w` are classes, with the
  bytes outside of them under the same letters in upper case. A backslash at the very end
  stands for itself.

  An expression is first cut into its signs. The signs are then read from left to right, with
  one level for every parenthesis that is open.
-/

import Scriptlet.Token.Pattern

namespace Scriptlet

namespace Regex

abbrev Class := UInt8 → Bool

inductive Sign where
  | one (c : Class)
  | star
  | plus
  | optional
  | bar
  | opening
  | closing

def isDigit : Class := Text.isDigit

def isSpace (b : UInt8) : Bool := b = 32 || b = 9 || b = 10 || b = 12 || b = 13

def isWord (b : UInt8) : Bool :=
  Text.isDigit b || ('a'.toUInt8 ≤ b && b ≤ 'z'.toUInt8) || ('A'.toUInt8 ≤ b && b ≤ 'Z'.toUInt8) ||
    b = '_'.toUInt8

def classOf? (b : UInt8) : Option Class :=
  if b = 'd'.toUInt8 then some isDigit
  else if b = 'D'.toUInt8 then some (!isDigit ·)
  else if b = 's'.toUInt8 then some isSpace
  else if b = 'S'.toUInt8 then some (!isSpace ·)
  else if b = 'w'.toUInt8 then some isWord
  else if b = 'W'.toUInt8 then some (!isWord ·)
  else none

def escaped (b : UInt8) : UInt8 :=
  if b = 'n'.toUInt8 then '\n'.toUInt8
  else if b = 'r'.toUInt8 then '\r'.toUInt8
  else if b = 't'.toUInt8 then '\t'.toUInt8
  else b

/-! ## Classes in brackets -/

inductive Part where
  | byte (b : UInt8)
  | hyphen
  | set (c : Class)

/-- The parts of a class up to its closing bracket, and the length of the text that they take,
    bracket included. -/
def parts? : Text → Option (List Part × Nat)
  | [] => none
  | b :: r =>
    if b = ']'.toUInt8 then some ([], 1)
    else if b = '\\'.toUInt8 then
      match r with
      | [] => none
      | c :: r =>
        let part := ((classOf? c).map .set).getD (.byte (escaped c))
        (parts? r).map fun (ps, n) => (part :: ps, n + 2)
    else
      let part := if b = '-'.toUInt8 then .hyphen else .byte b
      (parts? r).map fun (ps, n) => (part :: ps, n + 1)

def Part.byte? : Part → Option UInt8
  | .byte b => some b
  | .hyphen => some '-'.toUInt8
  | .set _ => none

/-- The bytes of a class: those of its parts, where a hyphen between two bytes makes a range. -/
def union : List Part → Class
  | [] => fun _ => false
  | .set c :: ps => fun b => c b || union ps b
  | lo :: .hyphen :: hi :: ps =>
    match lo.byte?, hi.byte? with
    | some l, some h => fun b => (min l h ≤ b && b ≤ max l h) || union ps b
    | some l, none => fun b => b = l || b = '-'.toUInt8 || union (hi :: ps) b
    | none, _ => fun _ => false
  | p :: ps => fun b => p.byte? = some b || union ps b

/-- The class in brackets behind an opening bracket, and the length of the text that it takes. -/
def class? (t : Text) : Option (Class × Nat) :=
  let (inverse, body) := if t.head? = some '^'.toUInt8 then (true, t.drop 1) else (false, t)
  match parts? body with
  | some (p :: ps, n) =>
    let c := union (p :: ps)
    if inverse then some ((!c ·), n + 1) else some (c, n)
  | _ => none

/-! ## Signs -/

/-- The meaning of a byte that is no operator of a class or a backslash. -/
def sign? (b : UInt8) : Option Sign :=
  if b = '*'.toUInt8 then some .star
  else if b = '+'.toUInt8 then some .plus
  else if b = '?'.toUInt8 then some .optional
  else if b = '|'.toUInt8 then some .bar
  else if b = '('.toUInt8 then some .opening
  else if b = ')'.toUInt8 then some .closing
  else if b = '.'.toUInt8 then some (.one fun _ => true)
  else if b = ']'.toUInt8 || b = '^'.toUInt8 then none
  else some (.one (· == b))

/-- The signs of an expression, the first `skip` bytes of which belong to the sign before it. -/
def signs? : Nat → Text → Option (List Sign)
  | _, [] => some []
  | skip + 1, _ :: r => signs? skip r
  | 0, b :: r =>
    if b = '\\'.toUInt8 then
      match r with
      | [] => some [.one (· == b)]
      | c :: _ => (signs? 1 r).map (.one ((classOf? c).getD (· == escaped c)) :: ·)
    else if b = '['.toUInt8 then do
      let (c, n) ← class? r
      return .one c :: (← signs? n r)
    else do return (← sign? b) :: (← signs? 0 r)

/-! ## Levels -/

/-- What was read of a choice: the series in front of the last bar, and the items behind it, the
    last one first. -/
structure Level where
  before : Pattern := .none
  items : List Pattern := []

namespace Level

def push (l : Level) (p : Pattern) : Level := { l with items := p :: l.items }

def pattern? (l : Level) : Option Pattern :=
  if l.items.isEmpty then none
  else some (.alt l.before (l.items.foldl (fun q p => .seq p q) .empty))

def mark? (f : Pattern → Pattern) (l : Level) : Option Level :=
  match l.items with
  | [] => none
  | p :: ps => some { l with items := f p :: ps }

end Level

/-- Reads signs into the level `l`, around which the levels `outer` are open. -/
def read? : Level → List Level → List Sign → Option Pattern
  | l, [], [] => l.pattern?
  | _, _ :: _, [] => none
  | l, outer, .one c :: r => read? (l.push (.one c)) outer r
  | l, outer, .star :: r => do read? (← l.mark? .star) outer r
  | l, outer, .plus :: r => do read? (← l.mark? .plus) outer r
  | l, outer, .optional :: r => do read? (← l.mark? .optional) outer r
  | l, outer, .bar :: r => do read? ⟨← l.pattern?, []⟩ outer r
  | l, outer, .opening :: r => read? {} (l :: outer) r
  | l, outer, .closing :: r => do
    let p ← l.pattern?
    match outer with
    | [] => none
    | up :: outer => read? (up.push p) outer r

end Regex

/-- The pattern that a regular expression denotes, unless it is malformed. -/
def Pattern.ofRegex? (t : Text) : Option Pattern := do Regex.read? {} [] (← Regex.signs? 0 t)

end Scriptlet

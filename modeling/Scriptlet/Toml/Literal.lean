/-
  Scriptlet.Toml.Literal — strings, numbers and moments in TOML notation.

  Every reader takes a literal from the front of a text and returns what it denotes, with the
  text behind it. Numbers are first cut out by the characters they may consist of, and only
  then read, so a malformed number is an error and never two items.
-/

import Scriptlet.Text.Utf8
import Scriptlet.Toml.Tree

namespace Scriptlet.Toml

abbrev Reader (α : Type) := Text → Option (α × Text)

def code (c : Char) : UInt8 := c.toUInt8

def isBlank (b : UInt8) : Bool := b == code ' ' || b == code '\t'

def isHex (b : UInt8) : Bool :=
  Text.isDigit b || (code 'a' ≤ b && b ≤ code 'f') || (code 'A' ≤ b && b ≤ code 'F')

def hexValue (b : UInt8) : Nat :=
  if Text.isDigit b then (b - code '0').toNat
  else if code 'a' ≤ b then (b - code 'a').toNat + 10
  else (b - code 'A').toNat + 10

def digitsIn (base : Nat) (t : Text) : Nat := t.foldl (fun n b => base * n + hexValue b) 0

/-! ## Strings -/

def hexChar? (n : Nat) (t : Text) : Option Char :=
  let d := t.take n
  if d.length = n && d.all isHex then
    let v := digitsIn 16 d
    if h : v.isValidChar then some (Char.ofNatAux v h) else none
  else none

/-- The character that a single letter behind a backslash stands for. -/
def simpleEscape? (b : UInt8) : Option Char :=
  if b = code 'b' then some '\x08'
  else if b = code 't' then some '\t'
  else if b = code 'n' then some '\n'
  else if b = code 'f' then some '\x0c'
  else if b = code 'r' then some '\r'
  else if b = code 'e' then some '\x1b'
  else if b = code '"' then some '"'
  else if b = code '\\' then some '\\'
  else none

/-- How many hexadecimal digits follow a letter behind a backslash. -/
def hexEscape? (b : UInt8) : Option Nat :=
  if b = code 'x' then some 2
  else if b = code 'u' then some 4
  else if b = code 'U' then some 8
  else none

/-- Replaces the escapes of a text, the first `skip` bytes of which belong to the escape before
    it. A backslash at the end of a line stands for nothing, together with the blanks and
    newlines behind it. -/
def unescape : Nat → Text → Option Text
  | _, [] => some []
  | skip + 1, _ :: r => unescape skip r
  | 0, b :: r =>
    if b ≠ code '\\' then (unescape 0 r).map (b :: ·)
    else match r with
      | [] => none
      | c :: digits =>
        match simpleEscape? c, hexEscape? c with
        | some e, _ => (unescape 1 r).map (Text.ofChar e ++ ·)
        | none, some n => do
          let e ← hexChar? n digits
          return Text.ofChar e ++ (← unescape (n + 1) r)
        | none, none =>
          let gap := r.takeWhile fun b => isBlank b || b == code '\n' || b == code '\r'
          if gap.contains (code '\n') then unescape gap.length r else none

/-- The text up to the quote that ends a string on one line, escapes left as they are. -/
def lineString : Reader Text
  | [] => none
  | [b] => if b = code '"' then some ([], []) else none
  | b :: c :: r =>
    if b = code '"' then some ([], c :: r)
    else if b = code '\n' then none
    else if b = code '\\' then
      if c = code '\n' || c = code '\r' then none else (lineString r).map fun (s, r) => (b :: c :: s, r)
    else (lineString (c :: r)).map fun (s, r) => (b :: s, r)

/-- The longest run of quotes that can end a string of several lines: its last three end the
    string, and the others belong to it. Behind a backslash one more is taken. -/
def maxRun (escapes : Bool) (seen : Text) : Nat := if escapes && seen.head? = some (code '\\') then 6 else 5

/-- The text up to the three quotes that end a string of several lines, of which `seen` is behind
    us, the last byte first, and `run` quotes behind it. -/
def blockString (quote : UInt8) (escapes : Bool) (run : Nat) (seen : Text) : Reader Text
  | [] =>
    if 3 ≤ run && run ≤ maxRun escapes seen then
      some ((List.replicate (run - 3) quote ++ seen).reverse, [])
    else none
  | b :: r =>
    if b = quote then blockString quote escapes (run + 1) seen r
    else if 3 ≤ run then
      if run ≤ maxRun escapes seen then some ((List.replicate (run - 3) quote ++ seen).reverse, b :: r)
      else none
    else
      let seen := List.replicate run quote ++ seen
      if escapes && b = code '\\' then
        match r with
        | [] => none
        | c :: r => blockString quote escapes 0 (c :: b :: seen) r
      else blockString quote escapes 0 (b :: seen) r

/-- A newline right behind the opening quotes is not part of a string. -/
def dropNewline (t : Text) : Text :=
  match t with
  | [] => []
  | b :: r =>
    if b = code '\n' then r
    else if b = code '\r' && r.head? = some (code '\n') then r.drop 1
    else t

def basicString : Reader Text := fun t => do
  let (s, r) ← lineString t
  return (← unescape 0 s, r)

def literalString : Reader Text := fun t =>
  let s := t.takeWhile (· != code '\'')
  match t.dropWhile (· != code '\'') with
  | [] => none
  | _ :: r => if s.contains (code '\n') then none else some (s, r)

def after? (start t : Text) : Option Text := if start.isPrefixOf t then some (t.drop start.length) else none

def string? : Reader Text := fun t =>
  match after? "\"\"\"" t, after? "\"" t, after? "'''" t, after? "'" t with
  | some r, _, _, _ => do
    let (s, r) ← blockString (code '"') true 0 [] r
    return (← unescape 0 (dropNewline s), r)
  | none, some r, _, _ => basicString r
  | none, none, some r, _ => (blockString (code '\'') false 0 [] r).map fun (s, r) => (dropNewline s, r)
  | none, none, none, some r => literalString r
  | none, none, none, none => none

/-! ## Numbers and moments -/

def span (p : UInt8 → Bool) (t : Text) : Text × Text := (t.takeWhile p, t.dropWhile p)

def isOneOf (s : String) (b : UInt8) : Bool := (Text.ofString s).contains b

/-- Does every underscore stand behind a digit, and does the text end with one? -/
def underscoresFit (t : Text) : Bool := go false t
where
  go (digit : Bool) : Text → Bool
    | [] => digit
    | b :: r => (b != code '_' || digit) && go (isHex b) r

def withoutUnderscores (t : Text) : Text := t.filter (· != code '_')

def hasLeadingZero (t : Text) : Bool :=
  let digits := (Decimal.sign t).2
  1 < digits.length && digits.head? = some (code '0')

def int64? (n : Int) : Option Int64 := if -2 ^ 63 ≤ n && n < 2 ^ 63 then some (Int64.ofInt n) else none

def decimalInt? (t : Text) : Option Tree := do
  if !underscoresFit t || hasLeadingZero t then none
  else return .int (← int64? (← Decimal.readInt? (withoutUnderscores t)))

def float? (t : Text) : Option Tree := do
  let isMark := isOneOf ".eE"
  let parts := (Text.splitBy isMark t).filter (!·.isEmpty)
  let pointsFit := ((Text.splitBy (· == code '.') t).drop 1).all fun p => p.head?.any Text.isDigit
  if !parts.all underscoresFit || parts.head?.any hasLeadingZero || !pointsFit then none
  else
    let x ← Decimal.read? (withoutUnderscores t)
    if x.isInfinite then none else return .float x

/-- A number in decimal notation, or a moment if the digits say so. -/
def decimalOrMoment : Reader Tree := fun t =>
  let (whole, r) := span (fun b => Text.isDigit b || b == code '_') (Decimal.sign t).2
  let lead := t.take (t.length - r.length)
  let next (s : String) : Bool := r.head?.any (isOneOf s)
  if next ".eE" then
    let (more, r) := span (fun b => Text.isDigit b || isOneOf "_.-+eE" b) r
    (float? (lead ++ more)).map (·, r)
  else if next "-:" && lead = whole && whole.all Text.isDigit then
    let (more, r) := span (fun b => Text.isDigit b || isOneOf "-:Tt .Zz+" b) r
    let text := lead ++ (more.reverse.dropWhile (· == code ' ')).reverse
    (Moment.read? text).map fun m => (.moment m, r)
  else (decimalInt? lead).map (·, r)

/-- A whole number in another base, behind the letter for the base. -/
def based (base : Nat) (isDigit : UInt8 → Bool) : Reader Tree := fun t =>
  let (d, r) := span (fun b => isDigit b || b == code '_') t
  if !underscoresFit d || !d.head?.any isDigit then none
  else (int64? (digitsIn base (withoutUnderscores d))).map fun n => (.int n, r)

def words : List (Text × Tree) :=
  [("inf", .float (.infinity false)), ("+inf", .float (.infinity false)), ("-inf", .float (.infinity true)),
    ("nan", .float .nan), ("+nan", .float .nan), ("-nan", .float .nan),
    ("true", .bool true), ("false", .bool false)]

def word? : Reader Tree := fun t => words.findSome? fun (w, v) => (after? w t).map (v, ·)

def number? : Reader Tree := fun t =>
  match after? "0x" t, after? "0o" t, after? "0b" t with
  | some r, _, _ => based 16 isHex r
  | none, some r, _ => based 8 (fun b => code '0' ≤ b && b ≤ code '7') r
  | none, none, some r => based 2 (fun b => b == code '0' || b == code '1') r
  | none, none, none => if (Decimal.sign t).2.head?.any Text.isDigit then decimalOrMoment t else none

def literal : Reader Tree := fun t =>
  (string? t).map (fun (s, r) => (.str s, r)) <|> word? t <|> number? t

end Scriptlet.Toml

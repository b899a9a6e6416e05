/-
  Scriptlet.Toml.Document — the statements of a TOML document.

  A document is a sequence of headers and assignments, each on a line of its own. Lists and
  tables written as values may go over several lines, have comments between their elements,
  and have a comma behind the last one.
-/

import Scriptlet.Toml.Literal

namespace Scriptlet.Toml

abbrev Path := List Text

inductive Expr where
  | literal (v : Tree)
  | list (items : List Expr)
  | table (entries : List (Path × Expr))
  deriving Repr, Inhabited

inductive Statement where
  /-- `[a.b]`. -/
  | header (path : Path)
  /-- `[[a.b]]`. -/
  | tableOf (path : Path)
  | assign (path : Path) (e : Expr)
  deriving Repr, Inhabited

def skipBlanks (t : Text) : Text := t.dropWhile isBlank

def skipVoid (inComment : Bool) : Text → Text
  | [] => []
  | b :: r =>
    if inComment then skipVoid (b != code '\n') r
    else if isBlank b || b == code '\n' || b == code '\r' then skipVoid false r
    else if b = code '#' then skipVoid true r
    else b :: r

def isBare (b : UInt8) : Bool :=
  Text.isDigit b || (code 'a' ≤ b && b ≤ code 'z') || (code 'A' ≤ b && b ≤ code 'Z') || isOneOf "_-" b

def keyPart : Reader Text := fun t => do
  let t := skipBlanks t
  let (s, r) ← match after? "\"" t, after? "'" t with
    | some r, _ => basicString r
    | none, some r => literalString r
    | none, none =>
      let (s, r) := span isBare t
      if s.isEmpty then none else some (s, r)
  return (s, skipBlanks r)

def key : Nat → Reader Path
  | 0, _ => none
  | n + 1, t => do
    let (s, r) ← keyPart t
    match after? "." r with
    | none => return ([s], r)
    | some r => (key n r).map fun (p, r) => (s :: p, r)

mutual

def value : Nat → Reader Expr
  | 0, _ => none
  | fuel + 1, t =>
    let t := skipBlanks t
    match after? "[" t, after? "\x7b" t with
    | some r, _ => (items fuel r).map fun (es, r) => (.list es, r)
    | none, some r => (entries fuel r).map fun (es, r) => (.table es, r)
    | none, none => (literal t).map fun (v, r) => (.literal v, r)

def items : Nat → Reader (List Expr)
  | 0, _ => none
  | fuel + 1, t =>
    let t := skipVoid false t
    match after? "]" t with
    | some r => some ([], r)
    | none => do
      let (e, r) ← value fuel t
      let r := skipVoid false r
      match after? "," r, after? "]" r with
      | some r, _ => (items fuel r).map fun (es, r) => (e :: es, r)
      | none, some r => return ([e], r)
      | none, none => none

def entries : Nat → Reader (List (Path × Expr))
  | 0, _ => none
  | fuel + 1, t =>
    let t := skipVoid false t
    match after? "\x7d" t with
    | some r => some ([], r)
    | none => do
      let (p, r) ← key t.length t
      let (e, r) ← value fuel (← after? "=" r)
      let r := skipVoid false r
      match after? "," r, after? "\x7d" r with
      | some r, _ => (entries fuel r).map fun (es, r) => ((p, e) :: es, r)
      | none, some r => return ([(p, e)], r)
      | none, none => none

end

def statement : Reader Statement := fun t =>
  match after? "[[" t, after? "[" t with
  | some r, _ => do
    let (p, r) ← key r.length r
    return (.tableOf p, ← after? "]]" r)
  | none, some r => do
    let (p, r) ← key r.length r
    return (.header p, ← after? "]" r)
  | none, none => do
    let (p, r) ← key t.length t
    let (e, r) ← value (2 * r.length + 2) (← after? "=" r)
    return (.assign p e, r)

def lineEnd? (t : Text) : Option Text :=
  match skipBlanks t with
  | [] => some []
  | b :: r => if isOneOf "\r\n#" b then some (b :: r) else none

def statements : Nat → Text → Option (List Statement)
  | fuel, t =>
    match skipVoid false t, fuel with
    | [], _ => some []
    | _, 0 => none
    | t, fuel + 1 => do
      let (s, r) ← statement t
      return s :: (← statements fuel (← lineEnd? r))

/-- Is every byte part of a character that may stand in a document? Of the control characters
    only tabs and newlines may, and carriage returns in front of newlines. -/
def isClean : Text → Bool
  | [] => true
  | b :: r =>
    (b ≥ 0x20 || b == code '\t' || b == code '\n' || (b == code '\r' && r.head? == some (code '\n'))) && b != 0x7F
      && isClean r

def withoutMark (t : Text) : Text :=
  ((after? [0xFF, 0xFE] t <|> after? [0xFE, 0xFF] t) <|> after? [0xEF, 0xBB, 0xBF] t).getD t

def document? (t : Text) : Option (List Statement) :=
  let t := withoutMark t
  if Text.isValid t && isClean t then statements t.length t else none

end Scriptlet.Toml

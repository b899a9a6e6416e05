/-
  Scriptlet.Console.Markup — colour tags in shown text.

  A text between `<tag>` and the next `</>` is shown in the style that the tag names, if it
  names one; otherwise the tags are shown as they are. A tag is the name of a style, or a list
  of attributes such as `fg=red;op=bold`. One rendering leaves the tags within tags alone, so
  that they take further ones.
-/

import Scriptlet.Text

namespace Scriptlet.Console

/-- The styles by name, with the codes that select them on a terminal. -/
def styles : List (String × String) :=
  [("red", "0;31"), ("blue", "0;34"), ("cyan", "0;36"), ("black", "0;30"), ("green", "0;32"),
    ("white", "1;37"), ("default", "0;39"), ("normal", "0;39"), ("brown", "0;33"), ("yellow", "1;33"),
    ("mga", "0;35"), ("magenta", "0;35"), ("mgb", "1;35"), ("magentaB", "1;35"),
    ("suc", "1;32"), ("success", "1;32"), ("info", "0;32"), ("comment", "0;33"), ("note", "36;1"),
    ("notice", "36;4"), ("warn", "0;1;33"), ("warning", "0;30;43"), ("primary", "0;34"), ("danger", "1;31"),
    ("err", "97;41"), ("error", "97;41"),
    ("lightRed", "1;31"), ("light_red", "1;31"), ("lightGreen", "1;32"), ("light_green", "1;32"),
    ("lightBlue", "1;34"), ("light_blue", "1;34"), ("lightCyan", "1;36"), ("light_cyan", "1;36"),
    ("lightDray", "37"), ("light_gray", "37"), ("gray", "90"), ("darkGray", "90"), ("dark_gray", "90"),
    ("lightYellow", "93"), ("light_yellow", "93"), ("lightMagenta", "95"), ("light_magenta", "95"),
    ("lightRedEx", "91"), ("light_red_ex", "91"), ("lightGreenEx", "92"), ("light_green_ex", "92"),
    ("lightBlueEx", "94"), ("light_blue_ex", "94"), ("lightCyanEx", "96"), ("light_cyan_ex", "96"),
    ("whiteEx", "97"), ("white_ex", "97"), ("bold", "1"), ("underscore", "4"), ("reverse", "7")]

/-- The colours, with the numbers that select them for the text itself; for the ground behind it
    they are ten higher. -/
def colours : List (String × Nat) :=
  [("black", 30), ("red", 31), ("green", 32), ("yellow", 33), ("blue", 34), ("magenta", 35), ("cyan", 36),
    ("white", 37), ("default", 39), ("darkGray", 90), ("lightRed", 91), ("lightGreen", 92),
    ("lightYellow", 93), ("lightBlue", 94), ("lightMagenta", 95), ("lightCyan", 96), ("lightWhite", 97)]

def manners : List (String × Nat) :=
  [("reset", 0), ("bold", 1), ("fuzzy", 2), ("italic", 3), ("underscore", 4), ("blink", 5), ("reverse", 7),
    ("concealed", 8)]

def named? {α : Type} (table : List (String × α)) (name : Text) : Option α :=
  (table.find? fun (n, _) => Text.ofString n == name).map (·.2)

def isOf (s : String) (b : UInt8) : Bool := (Text.ofString s).contains b

def isLetter (b : UInt8) : Bool :=
  ('a'.toUInt8 ≤ b && b ≤ 'z'.toUInt8) || ('A'.toUInt8 ≤ b && b ≤ 'Z'.toUInt8)

def selected (name value : Text) : List Nat :=
  if name = "fg" then (named? colours value).toList
  else if name = "bg" then ((named? colours value).map (· + 10)).toList
  else (Text.splitBy (· == ','.toUInt8) value).filterMap (named? manners)

/-- The attribute at the front of a text, and the length that it takes. -/
def attribute? (t : Text) : Option (List Nat × Nat) :=
  let name := t.take 2
  let value := (t.drop 3).takeWhile fun b => isLetter b || b == ','.toUInt8
  if (name = "fg" || name = "bg" || name = "op") && t[2]? == some '='.toUInt8 && !value.isEmpty then
    some (selected name value, 3 + value.length)
  else none

/-- The numbers that the attributes in a text select, the first `skip` bytes of which belong to
    the attribute before it. -/
def attributes : Nat → Text → List Nat
  | _, [] => []
  | skip + 1, _ :: r => attributes skip r
  | 0, b :: r =>
    match attribute? (b :: r) with
    | some (codes, n) => codes ++ attributes (n - 1) r
    | none => attributes 0 r

def strip (p : UInt8 → Bool) (t : Text) : Text := ((t.dropWhile p).reverse.dropWhile p).reverse

def code? (tag : Text) : Option Text :=
  match if tag.contains '='.toUInt8 then attributes 0 (strip (isOf ";=,") tag) else [] with
  | [] => (named? styles tag).map Text.ofString
  | codes => some (Text.join ";" (codes.map Text.ofNat))

structure Tagged where
  tag : Text
  content : Text
  deriving DecidableEq, Repr

namespace Tagged

def closing : Text := "</>"

def source (t : Tagged) : Text := "<" ++ t.tag ++ ">" ++ t.content ++ closing

def shown? (t : Tagged) : Option Text :=
  (code? t.tag).map fun code => if t.content.isEmpty then [] else "\x1b[" ++ code ++ "m" ++ t.content ++ "\x1b[0m"

end Tagged

def upTo? (mark : Text) : Text → Option Text
  | [] => if mark.isEmpty then some [] else none
  | b :: r => if mark.isPrefixOf (b :: r) then some [] else (upTo? mark r).map (b :: ·)

def tagged? (t : Text) : Option Tagged := do
  if t.head? != some '<'.toUInt8 then none
  else
    let tag := (t.drop 1).takeWhile fun b => isLetter b || Text.isDigit b || isOf "_=,;" b
    let rest := t.drop (1 + tag.length)
    if tag.isEmpty || rest.head? != some '>'.toUInt8 then none
    else return ⟨tag, ← upTo? Tagged.closing (rest.drop 1)⟩

/-- What is tagged in a text, one behind the other; its first `skip` bytes are left out. -/
def allTagged : Nat → Text → List Tagged
  | _, [] => []
  | skip + 1, _ :: r => allTagged skip r
  | 0, b :: r =>
    match tagged? (b :: r) with
    | some t => t :: allTagged (t.source.length - 1) r
    | none => allTagged 0 r

def replaceFirst (old new : Text) : Text → Text
  | [] => []
  | b :: r => if old.isPrefixOf (b :: r) then new ++ (b :: r).drop old.length else b :: replaceFirst old new r

def styled (t : Text) : Text :=
  (allTagged 0 t).foldl (fun t x =>
    match x.shown? with
    | some s => replaceFirst x.source s t
    | none => t) t

def styledTimes : Nat → Text → Text
  | 0, t => t
  | n + 1, t => styledTimes n (styled t)

end Scriptlet.Console

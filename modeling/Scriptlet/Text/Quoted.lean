/-
  Scriptlet.Text.Quoted — text between quotes, with everything unprintable escaped.

  Printable characters stand for themselves, but for the quote and the backslash, which a
  backslash marks. Seven control characters have a letter of their own; the rest is written
  by number, and a stray byte as `\xhh`.
-/

import Scriptlet.Text.Utf8
import Scriptlet.Text.Printable

namespace Scriptlet

namespace Text

/-- The letter that follows the backslash for the control characters that have one. -/
def controlLetter? (c : Char) : Option Char :=
  match c.toNat with
  | 7 => some 'a'
  | 8 => some 'b'
  | 9 => some 't'
  | 10 => some 'n'
  | 11 => some 'v'
  | 12 => some 'f'
  | 13 => some 'r'
  | _ => none

def escapeChar (quote c : Char) : Text :=
  if c = quote || c = '\\' then "\\" ++ ofChar c
  else if isPrintable c then ofChar c
  else match controlLetter? c with
    | some l => "\\" ++ ofChar l
    | none =>
      if c.toNat < 0x80 then "\\x" ++ hex 2 c.toNat
      else if c.toNat < 0x10000 then "\\u" ++ hex 4 c.toNat
      else "\\U" ++ hex 8 c.toNat

def escapePiece (quote : Char) : Piece → Text
  | .char c => escapeChar quote c
  | .stray b => "\\x" ++ hex 2 b.toNat

def quoteWith (quote : Char) (t : Text) : Text :=
  ofChar quote ++ (pieces t).flatMap (escapePiece quote) ++ ofChar quote

def quoted (t : Text) : Text := quoteWith '"' t

def quotedChar (c : Char) : Text := "'" ++ escapeChar '\'' c ++ "'"

end Text

end Scriptlet

/-
  Scriptlet.Token — tokens and their kinds.

  A kind has a number, by which rule tables and token lists from outside refer to it, and
  a name, by which messages do. Numbers outside the language's table are kinds too.
-/

import Scriptlet.Span
import Scriptlet.Number.Binary64

namespace Scriptlet

inductive Kind where
  | ident | string | int | decimal
  | «for» | type | struct | «return»
  | arrow | doubleColon
  | lbrace | rbrace | lparen | rparen | lbracket | rbracket
  | colon | comma | dot | assign
  | plus | minus | star | slash
  | eof
  | error
  | other (number : Int)
  deriving DecidableEq, Repr, Inhabited

namespace Kind

def table : List (Kind × Int × String) := [
  (.ident, 1, "ID"), (.string, 2, "STRING"), (.int, 3, "INT"), (.decimal, 4, "DECIMAL"),
  (.for, 5, "for"), (.type, 6, "type"), (.struct, 7, "struct"), (.return, 8, "return"),
  (.arrow, 9, "=>"), (.doubleColon, 10, "::"),
  (.lbrace, 11, "\x7b"), (.rbrace, 12, "\x7d"), (.lparen, 13, "("), (.rparen, 14, ")"),
  (.lbracket, 15, "["), (.rbracket, 16, "]"),
  (.colon, 17, ":"), (.comma, 18, ","), (.dot, 19, "."), (.assign, 20, "="),
  (.plus, 21, "+"), (.minus, 22, "-"), (.star, 23, "*"), (.slash, 24, "/"),
  (.eof, -1, "EOF"), (.error, -2, "ERROR")]

def ofNumber (n : Int) : Kind :=
  match table.find? fun (_, m, _) => m == n with
  | some (k, _, _) => k
  | none => .other n

def number (k : Kind) : Int :=
  match k, table.find? fun (j, _, _) => j == k with
  | _, some (_, n, _) => n
  | .other n, none => n
  | _, none => 0

def name (k : Kind) : Text :=
  match table.find? fun (j, _, _) => j == k with
  | some (_, _, s) => s
  | none => "<token " ++ Text.ofInt k.number ++ ">"

end Kind

inductive Meaning where
  | absent
  | text (t : Text)
  | int (n : Int64)
  | float (x : Binary64)
  | fault (message : Text)
  deriving DecidableEq, Repr, Inhabited

structure Token where
  kind : Kind
  lexeme : Text
  span : Span
  meaning : Meaning := .absent
  deriving DecidableEq, Repr, Inhabited

def Token.endOfInput (n : Nat) : Token := { kind := .eof, lexeme := [], span := ⟨n, n⟩ }

end Scriptlet

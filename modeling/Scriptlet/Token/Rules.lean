/-
  Scriptlet.Token.Rules — the rules that lexical tables are made of.

  The keywords and literals of a table are regular expressions: a keyword is one in lower
  case, and a literal is one in which a backslash stands in front of every character. The
  table of the language itself has no use for that, because all its keywords and literals
  are matched as they are written.
-/

import Scriptlet.Token.Lexicon
import Scriptlet.Token.Regex
import Scriptlet.Text.Lowercase
import Scriptlet.Number.Decimal

namespace Scriptlet

namespace Pattern

def digit : Pattern := .one Text.isDigit

def isLetter (b : UInt8) : Bool :=
  ('a'.toUInt8 ≤ b && b ≤ 'z'.toUInt8) || ('A'.toUInt8 ≤ b && b ≤ 'Z'.toUInt8) || b == '_'.toUInt8

def isBlank (b : UInt8) : Bool :=
  b == ' '.toUInt8 || b == '\t'.toUInt8 || b == '\n'.toUInt8 || b == '\r'.toUInt8

/-- Letters and underscores. -/
def word : Pattern := plus (.one isLetter)

/-- Digits, with a minus sign directly in front or without. -/
def integer : Pattern := seq (optional (byte '-')) (plus digit)

/-- An integer that may lack digits in front of a point, and digits behind the point. -/
def decimal : Pattern := seq (optional (byte '-')) (seq (.star digit) (seq (byte '.') (plus digit)))

/-- Anything but a double quote, between double quotes. -/
def quotation : Pattern := seq (byte '"') (seq (.star (.one (· != '"'.toUInt8))) (byte '"'))

def blanks : Pattern := plus (.one isBlank)

def keyword? (name : Text) : Option Pattern := ofRegex? name.lowercase

/-- The pattern of a literal; an empty one stands for the backslash. -/
def literal? (t : Text) : Option Pattern :=
  let backslash := '\\'.toUInt8
  ofRegex? (backslash :: Text.join [backslash] (t.pieces.map Text.Piece.bytes))

end Pattern

namespace Meaning

def outOfRange (reader lexeme : Text) : Text :=
  "strconv." ++ reader ++ ": parsing " ++ Text.quoted lexeme ++ ": value out of range"

def ofInteger (lexeme : Text) : Meaning :=
  match Decimal.readInt? lexeme with
  | some n =>
    if -(2 ^ 63) ≤ n && n < 2 ^ 63 then .int (Int64.ofInt n) else .fault (outOfRange "ParseInt" lexeme)
  | none => .fault (outOfRange "ParseInt" lexeme)

/-- The number nearest to what a lexeme denotes, unless that is beyond all of them. -/
def ofDecimal (lexeme : Text) : Meaning :=
  match Decimal.read? lexeme with
  | some x => if x.isInfinite then .fault (outOfRange "ParseFloat" lexeme) else .float x
  | none => .fault (outOfRange "ParseFloat" lexeme)

def ofQuotation (lexeme : Text) : Meaning := .text (lexeme.drop 1).dropLast

def about (what lexeme : Text) : Meaning → Meaning
  | .fault m => .fault (what ++ " literal " ++ lexeme ++ ": " ++ m)
  | other => other

end Meaning

namespace Rule

def exactly (t : Text) (kind : Kind) : Rule := { pattern := .exactly t, kind := some kind }

def word (kind : Kind) : Rule := { pattern := .word, kind := some kind }

def blanks : Rule := { pattern := .blanks, kind := none }

def integer (kind : Kind) : Rule := { pattern := .integer, kind := some kind, interpret := .ofInteger }

/-- A quotation that means its whole lexeme. -/
def quotation (kind : Kind) : Rule := { pattern := .quotation, kind := some kind }

end Rule

/-- A table with keywords first, then literals, then further rules. -/
def Lexicon.ofTables? (keywords literals : List Text) (kindOf : Text → Kind) (rules : List Rule) :
    Option Lexicon := do
  let keywords ← keywords.mapM fun k => return { pattern := ← Pattern.keyword? k, kind := some (kindOf k) }
  let literals ← literals.mapM fun l => return { pattern := ← Pattern.literal? l, kind := some (kindOf l) }
  ofRules? (keywords ++ literals ++ rules)

namespace Token

def keywords : List Kind := [.for, .type, .struct, .return]

/-- The kinds written as one fixed lexeme of punctuation, the longer ones first. -/
def literals : List Kind :=
  [.arrow, .doubleColon, .lbrace, .rbrace, .lparen, .rparen, .lbracket, .rbracket,
   .colon, .comma, .dot, .assign, .plus, .minus, .star, .slash]

def lexicon : Lexicon :=
  (keywords ++ literals).map (fun k => .exactly k.name k) ++ [
    { pattern := .quotation, kind := some .string, interpret := .ofQuotation },
    { pattern := .integer, kind := some .int, interpret := fun l => (Meaning.ofInteger l).about "integer" l },
    { pattern := .decimal, kind := some .decimal, interpret := fun l => (Meaning.ofDecimal l).about "decimal" l },
    .word .ident,
    .blanks]

def tokenize (source : Text) : List Token := lexicon.tokens source

end Token

end Scriptlet

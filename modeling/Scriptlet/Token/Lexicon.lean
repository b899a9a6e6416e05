/-
  Scriptlet.Token.Lexicon — reading tokens by a table of rules.

  At every position the longest match wins, and of the rules that match at that length the
  first. Where no rule matches, an error token takes the bytes up to and including the one
  at which the last rule gave up, or all the rest if some rule was still hoping, and the
  continuation bytes behind it, so that no character is torn apart.
-/

import Scriptlet.Token
import Scriptlet.Token.Pattern
import Scriptlet.Text.Quoted

namespace Scriptlet

structure Rule where
  pattern : Pattern
  /-- The kind of the tokens made, or none if matches are dropped. -/
  kind : Option Kind
  /-- The meaning of a lexeme; a fault makes the match an error token. -/
  interpret : Text → Meaning := .text

abbrev Lexicon := List Rule

structure Munch where
  /-- The length of the longest match, with the first rule that matches at that length. -/
  best : Option (Nat × Rule)
  /-- The number of bytes read until no rule could match any more. -/
  reach : Nat

namespace Lexicon

/-- A table of rules; it has at least one, and none of them matches the empty text. -/
def ofRules? (rules : List Rule) : Option Lexicon :=
  if rules.isEmpty || rules.any (·.pattern.isNullable) then none else some rules

/-- The rules that may still match behind `b`, with what they have left to match. -/
def advance (b : UInt8) (live : List (Rule × Pattern)) : List (Rule × Pattern) :=
  (live.map fun (r, p) => (r, p.after b)).filter fun (_, p) => !p.isNone

/-- Reads on behind the first `read` bytes, where `best` is the longest match so far. -/
def munchFrom (live : List (Rule × Pattern)) (best : Option (Nat × Rule)) (read : Nat) : Text → Munch
  | [] => ⟨best, read⟩
  | b :: rest =>
    match advance b live with
    | [] => ⟨best, read + 1⟩
    | live' =>
      let best' := match live'.find? fun (_, p) => p.isNullable with
        | some (r, _) => some (read + 1, r)
        | none => best
      munchFrom live' best' (read + 1) rest

def munch (lex : Lexicon) (t : Text) : Munch :=
  munchFrom (lex.map fun r => (r, r.pattern)) none 0 t

structure Cursor where
  offset : Nat
  rest : Text

def Cursor.start (source : Text) : Cursor := ⟨0, source⟩

def Cursor.skip (c : Cursor) (n : Nat) : Cursor := ⟨c.offset + n, c.rest.drop n⟩

inductive Next where
  | gap
  | token (t : Token)
  | unknown (t : Token)

def unrecognized (lexeme : Text) : Text := "unrecognized input " ++ Text.quoted lexeme

/-- The length of the error token at a position where nothing matches. -/
def errorLength (reach : Nat) (rest : Text) : Nat :=
  reach + ((rest.drop reach).takeWhile Text.isContinuation).length

def tokenOf (r : Rule) (offset : Nat) (lexeme : Text) : Next :=
  match r.kind with
  | none => .gap
  | some kind =>
    let span : Span := ⟨offset, offset + lexeme.length⟩
    match r.interpret lexeme with
    | .fault m => .token ⟨.error, lexeme, span, .fault m⟩
    | meaning => .token ⟨kind, lexeme, span, meaning⟩

def next (lex : Lexicon) (c : Cursor) : Next × Cursor :=
  match munch lex c.rest with
  | ⟨some (n, r), _⟩ => (tokenOf r c.offset (c.rest.take n), c.skip n)
  | ⟨none, reach⟩ =>
    let n := errorLength reach c.rest
    let lexeme := c.rest.take n
    (.unknown ⟨.error, lexeme, ⟨c.offset, c.offset + n⟩, .fault (unrecognized lexeme)⟩, c.skip n)

/-- The next token, whether it is unrecognized input, and the cursor behind it. The budget
    bounds the number of gaps before it; there are at most as many as bytes. -/
def nextToken (lex : Lexicon) : Nat → Cursor → Token × Bool × Cursor
  | 0, c => (.endOfInput c.offset, false, c)
  | n + 1, c =>
    if c.rest.isEmpty then (.endOfInput c.offset, false, c)
    else match lex.next c with
      | (.gap, c') => nextToken lex n c'
      | (.token t, c') => (t, false, c')
      | (.unknown t, c') => (t, true, c')

/-- All tokens from a cursor on, up to one of kind `eof`; with it the number of error tokens
    for unrecognized input, and the cursor reached. The budget bounds the number of tokens. -/
def collect (lex : Lexicon) : Nat → Cursor → List Token × Nat × Cursor
  | 0, c => ([], 0, c)
  | n + 1, c =>
    let (t, unknown, c') := lex.nextToken c.rest.length c
    if t.kind = .eof then ([], 0, c')
    else
      let (ts, count, last) := lex.collect n c'
      (t :: ts, count + (if unknown then 1 else 0), last)

def tokens (lex : Lexicon) (source : Text) : List Token :=
  (lex.collect source.length (.start source)).1

end Lexicon

end Scriptlet

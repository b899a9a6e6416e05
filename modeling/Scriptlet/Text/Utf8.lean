/-
  Scriptlet.Text.Utf8 — text read as characters.

  `Text.pieces` splits a text into encoded characters and stray bytes, one stray byte
  at a time; a text is valid when it has no stray byte. An encoding counts only in its
  shortest form, and surrogates have none.
-/

import Scriptlet.Text

namespace Scriptlet

namespace Text

def isContinuation (b : UInt8) : Bool := b &&& 0xC0 = 0x80

inductive Piece where
  | char (c : Char)
  | stray (b : UInt8)
  deriving DecidableEq, Repr

/-- The character number that the payloads of a leading byte and its continuations form. -/
def assemble (lead : Nat) (tail : List UInt8) : Nat :=
  tail.foldl (fun n b => 64 * n + (b.toNat - 0x80)) lead

/-- The character encoded at the front of a text, with the width of its encoding. -/
def front? : Text → Option (Char × Nat)
  | [] => none
  | b :: r =>
    if b < 0x80 then some (Char.ofNat b.toNat, 1)
    else if 0xC0 ≤ b && b < 0xE0 then wide b.toNat 0xC0 1 0x80 r
    else if 0xE0 ≤ b && b < 0xF0 then wide b.toNat 0xE0 2 0x800 r
    else if 0xF0 ≤ b && b < 0xF8 then wide b.toNat 0xF0 3 0x10000 r
    else none
where
  /-- A character of `more` continuation bytes, whose number is at least `least`. -/
  wide (lead base more least : Nat) (r : Text) : Option (Char × Nat) :=
    let tail := r.take more
    let n := assemble (lead - base) tail
    if tail.length = more && tail.all isContinuation && least ≤ n then
      if h : n.isValidChar then some (Char.ofNatAux n h, more + 1) else none
    else none

/-- The pieces of a text, the first `skip` bytes of which belong to the piece before it. -/
def piecesFrom (skip : Nat) : Text → List Piece
  | [] => []
  | b :: r =>
    match skip with
    | k + 1 => piecesFrom k r
    | 0 =>
      match front? (b :: r) with
      | some (c, width) => .char c :: piecesFrom (width - 1) r
      | none => .stray b :: piecesFrom 0 r

def pieces (t : Text) : List Piece := piecesFrom 0 t

namespace Piece

def isChar : Piece → Bool
  | .char _ => true
  | .stray _ => false

def char? : Piece → Option Char
  | .char c => some c
  | .stray _ => none

def bytes : Piece → Text
  | .char c => ofChar c
  | .stray b => [b]

def isBlank : Piece → Bool
  | .stray _ => false
  | .char c =>
    let n := c.toNat
    (9 ≤ n && n ≤ 13) || n = 0x20 || n = 0x85 || n = 0xA0 || n = 0x1680 ||
      (0x2000 ≤ n && n ≤ 0x200A) || n = 0x2028 || n = 0x2029 || n = 0x202F || n = 0x205F || n = 0x3000

end Piece

def isValid (t : Text) : Bool := (pieces t).all Piece.isChar

def trim (t : Text) : Text :=
  let inner := ((pieces t).dropWhile Piece.isBlank).reverse.dropWhile Piece.isBlank
  inner.reverse.flatMap Piece.bytes

/-- The characters of a text, with U+FFFD for every stray byte. -/
def chars (t : Text) : List Char := (pieces t).map fun p => p.char?.getD (Char.ofNat 0xFFFD)

def ofChars (cs : List Char) : Text := cs.flatMap ofChar

def repaired (t : Text) : Text := ofChars (chars t)

def toString? (t : Text) : Option String := ((pieces t).mapM Piece.char?).map String.ofList

end Text

end Scriptlet

/-
  Scriptlet.Cbor.Fault — why bytes are no data item.

  The kinds of items are the major types 0 to 7 of their first bytes.
-/

import Scriptlet.Text

namespace Scriptlet.Cbor

def majorName : Nat → Text
  | 0 => "positive integer"
  | 1 => "negative integer"
  | 2 => "byte string"
  | 3 => "UTF-8 text string"
  | 4 => "array"
  | 5 => "map"
  | 6 => "tag"
  | _ => "primitives"

def nestingLimit : Nat := 32

def countLimit : Nat := 131072

inductive Fault where
  | empty
  | truncated
  | extra (count index : Nat)
  /-- The first byte of an item has no meaning. -/
  | info (info major : Nat)
  | simple (n : Nat)
  | strayBreak
  | chunkType (found major : Nat)
  | chunkLength (major : Nat)
  | length (major n : Nat)
  | count (major : Nat)
  | nesting
  | tagged
  deriving DecidableEq, Repr, Inhabited

def Fault.message : Fault → Text
  | .empty => "EOF"
  | .truncated => "unexpected EOF"
  | .extra n i => "cbor: " ++ Text.ofNat n ++ " bytes of extraneous data starting at index " ++ Text.ofNat i
  | .info i m => "cbor: invalid additional information " ++ Text.ofNat i ++ " for type " ++ majorName m
  | .simple n => "cbor: invalid simple value " ++ Text.ofNat n ++ " for type " ++ majorName 7
  | .strayBreak => "cbor: unexpected \"break\" code"
  | .chunkType f m => "cbor: wrong element type " ++ majorName f ++ " for indefinite-length " ++ majorName m
  | .chunkLength m => "cbor: indefinite-length " ++ majorName m ++ " chunk is not definite-length"
  | .length m n =>
    "cbor: " ++ majorName m ++ " length " ++ Text.ofNat n ++ " is too large, " ++
      Text.ofString (if m < 4 then "causing integer overflow" else "it would cause integer overflow")
  | .count m =>
    "cbor: exceeded max number of " ++ Text.ofString (if m = 4 then "elements " else "key-value pairs ") ++
      Text.ofNat countLimit ++ " for CBOR " ++ majorName m
  | .nesting => "cbor: exceeded max nested level " ++ Text.ofNat nestingLimit
  | .tagged => "cbor: unsupported tag"

end Scriptlet.Cbor

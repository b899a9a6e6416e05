/-
  Scriptlet.Cbor.Item — data items of the Concise Binary Object Representation.

  `Item.encode` writes an item in its canonical form: the shortest form of every number and
  length, and no indefinite lengths. The entries of a map are written in the order given.
-/

import Scriptlet.Number.Format
import Scriptlet.Text

namespace Scriptlet.Cbor

inductive Item where
  | uint (n : Nat)
  /-- The number `-1 - n`. -/
  | nint (n : Nat)
  | bytes (b : Text)
  /-- A text, in the chunks in which it was written. -/
  | text (chunks : List Text)
  | array (items : List Item)
  | map (entries : List (Item × Item))
  | simple (n : Nat)
  | float (x : Binary64)
  deriving Repr, Inhabited

namespace Item

def major : Item → Nat
  | .uint _ => 0
  | .nint _ => 1
  | .bytes _ => 2
  | .text _ => 3
  | .array _ => 4
  | .map _ => 5
  | .simple _ | .float _ => 7

def null : Item := .simple 22

def ofBool (b : Bool) : Item := .simple (if b then 21 else 20)

def ofInt : Int → Item
  | .ofNat n => .uint n
  | .negSucc n => .nint n

def ofText (t : Text) : Item := .text [t]

def ofList {α : Type} (f : α → Item) : Option (List α) → Item
  | some l => .array (l.map f)
  | none => null

/-- The `width` lowest bytes of `n`, the most significant one first. -/
def bigEndian (width n : Nat) : Text :=
  (List.range width).map fun i => UInt8.ofNat (n / 256 ^ (width - 1 - i))

/-- The head of an item: its major type and a number, in the shortest form. -/
def head (major n : Nat) : Text :=
  let first (info : Nat) : UInt8 := UInt8.ofNat (32 * major + info)
  if n < 24 then [first n]
  else if n < 2 ^ 8 then first 24 :: bigEndian 1 n
  else if n < 2 ^ 16 then first 25 :: bigEndian 2 n
  else if n < 2 ^ 32 then first 26 :: bigEndian 4 n
  else first 27 :: bigEndian 8 n

def encodeFloat (x : Binary64) : Text :=
  if x.isNaN then 0xF9 :: bigEndian 2 0x7E00
  else match FloatFormat.half.narrow? x with
    | some w => 0xF9 :: bigEndian 2 w
    | none => match FloatFormat.single.narrow? x with
      | some w => 0xFA :: bigEndian 4 w
      | none => 0xFB :: bigEndian 8 x.bits.toNat

mutual

def encode : Item → Text
  | .uint n => head 0 n
  | .nint n => head 1 n
  | .bytes b => head 2 b.length ++ b
  | .text chunks => head 3 chunks.flatten.length ++ chunks.flatten
  | .array items => head 4 items.length ++ encodeAll items
  | .map entries => head 5 entries.length ++ encodeEntries entries
  | .simple n => head 7 n
  | .float x => encodeFloat x
termination_by structural i => i

def encodeAll : List Item → Text
  | [] => []
  | i :: is => encode i ++ encodeAll is
termination_by structural is => is

def encodeEntries : List (Item × Item) → Text
  | [] => []
  | (k, v) :: es => encode k ++ encode v ++ encodeEntries es
termination_by structural es => es

end

end Item

end Scriptlet.Cbor

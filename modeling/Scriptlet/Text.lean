/-
  Scriptlet.Text — text as the engine sees it: a list of bytes.

  Program sources, names and string values need not be valid UTF-8, and every
  position in a source is a byte offset, so text is never anything but its bytes.
  A `String` literal stands for its UTF-8 encoding wherever a `Text` is expected.
-/

namespace Scriptlet

abbrev Text := List UInt8

namespace Text

def ofString (s : String) : Text := s.toUTF8.data.toList

instance : Coe String Text := ⟨ofString⟩

def ofChar (c : Char) : Text := String.utf8EncodeChar c

/-- The decimal digits of `n`, without leading zeros. -/
def ofNat (n : Nat) : Text := (Nat.toDigits 10 n).map Char.toUInt8

def ofInt : Int → Text
  | .ofNat n => ofNat n
  | .negSucc n => '-'.toUInt8 :: ofNat (n + 1)

/-- `t`, filled up on the left with `c` to at least `width` bytes. -/
def padLeft (width : Nat) (c : Char) (t : Text) : Text :=
  List.replicate (width - t.length) c.toUInt8 ++ t

/-- The lower-case hexadecimal digits of `n`, at least `width` of them. -/
def hex (width n : Nat) : Text := padLeft width '0' ((Nat.toDigits 16 n).map Char.toUInt8)

def hexOfBytes (t : Text) : Text := t.flatMap fun b => hex 2 b.toNat

def join (sep : Text) : List Text → Text
  | [] => []
  | [t] => t
  | t :: ts => t ++ sep ++ join sep ts

def unlines (ts : List Text) : Text := ts.flatMap (· ++ ['\n'.toUInt8])

/-- The text before the first `sep` and, if there is one, the text behind it. -/
def cut (sep : UInt8) (t : Text) : Text × Option Text :=
  (t.takeWhile (· != sep), match t.dropWhile (· != sep) with
    | [] => none
    | _ :: r => some r)

/-- The pieces of `t` between the bytes that separate them: one more than there are separators. -/
def splitBy (isSep : UInt8 → Bool) : Text → List Text
  | [] => [[]]
  | b :: r =>
    if isSep b then [] :: splitBy isSep r
    else match splitBy isSep r with
      | [] => [[b]]
      | t :: ts => (b :: t) :: ts

def isDigit (b : UInt8) : Bool := '0'.toUInt8 ≤ b && b ≤ '9'.toUInt8

def digitsValue (t : Text) : Nat := t.foldl (fun n b => 10 * n + (b.toNat - '0'.toNat)) 0

def toLower (t : Text) : Text :=
  t.map fun b => if 'A'.toUInt8 ≤ b && b ≤ 'Z'.toUInt8 then b + 32 else b

def trueWords : List Text := ["1", "t", "T", "TRUE", "true", "True"]

def falseWords : List Text := ["0", "f", "F", "FALSE", "false", "False"]

end Text

end Scriptlet

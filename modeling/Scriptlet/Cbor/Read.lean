/-
  Scriptlet.Cbor.Read — reading data items.

  Numbers and lengths may be written longer than necessary, and strings, arrays and maps
  may have an indefinite length, ended by a break. Arrays and maps may be nested at most
  `nestingLimit` levels deep, and there may be a limit on how many items they have; the
  usual one is `countLimit`. Tagged items are not read.
-/

import Scriptlet.Cbor.Fault
import Scriptlet.Cbor.Item
import Scriptlet.Text.Utf8

namespace Scriptlet.Cbor

/-- The first byte of an item, and the number that follows it or is part of it; items of
    indefinite length have none. -/
structure Head where
  major : Nat
  info : Nat
  number : Option Nat

def breakByte : UInt8 := 0xFF

def number (b : Text) : Nat := b.foldl (fun n x => 256 * n + x.toNat) 0

abbrev Reader (α : Type) := Text → Except Fault (α × Text)

def head : Reader Head
  | [] => .error .truncated
  | b :: r =>
    let major := b.toNat / 32
    let info := b.toNat % 32
    let wide (width : Nat) : Except Fault (Head × Text) :=
      let n := number (r.take width)
      if r.length < width then .error .truncated
      else if major = 7 && info = 24 && n < 32 then .error (.simple n)
      else .ok (⟨major, info, some n⟩, r.drop width)
    if info < 24 then .ok (⟨major, info, some info⟩, r)
    else if info = 24 then wide 1
    else if info = 25 then wide 2
    else if info = 26 then wide 4
    else if info = 27 then wide 8
    else if info = 31 && major = 7 then .error .strayBreak
    else if info = 31 && 2 ≤ major && major ≤ 5 then .ok (⟨major, info, none⟩, r)
    else .error (.info info major)

def times {α : Type} (read : Reader α) : Nat → Reader (List α)
  | 0, t => .ok ([], t)
  | n + 1, t => do
    let (a, r) ← read t
    let (as, r) ← times read n r
    return (a :: as, r)

/-- Items until a break; the text has room for at most `fuel` of them. -/
def untilBreak {α : Type} (read : Reader α) : Nat → Reader (List α)
  | 0, _ => .error .truncated
  | fuel + 1, t =>
    if t.head? = some breakByte then .ok ([], t.drop 1)
    else do
      let (a, r) ← read t
      let (as, r) ← untilBreak read fuel r
      return (a :: as, r)

def lengthLimit : Nat := 2 ^ 63

def exceeds (limit : Option Nat) (count : Nat) : Bool := limit.any (· < count)

def many {α : Type} (limit : Option Nat) (read : Reader α) (h : Head) : Reader (List α) := fun t =>
  match h.number with
  | some n =>
    if lengthLimit ≤ n then .error (.length h.major n)
    else if exceeds limit n then .error (.count h.major)
    else times read n t
  | none => do
    let (as, r) ← untilBreak read (t.length + 1) t
    if exceeds limit as.length then .error (.count h.major) else return (as, r)

def take (n : Nat) : Reader Text := fun t =>
  if t.length < n then .error .truncated else .ok (t.take n, t.drop n)

def definite (major n : Nat) : Reader Text := fun t =>
  if lengthLimit ≤ n then .error (.length major n) else take n t

def chunk (major : Nat) : Reader Text
  | [] => .error .truncated
  | b :: t =>
    if b.toNat / 32 ≠ major then .error (.chunkType (b.toNat / 32) major)
    else if b.toNat % 32 = 31 then .error (.chunkLength major)
    else do
      let (h, r) ← head (b :: t)
      definite major (h.number.getD 0) r

def string (h : Head) : Reader (List Text) := fun t =>
  match h.number with
  | some n => (definite h.major n t).map fun (s, r) => ([s], r)
  | none => untilBreak (chunk h.major) (t.length + 1) t

def pair (read : Reader Item) : Reader (Item × Item) := fun t => do
  let (k, r) ← read t
  let (v, r) ← read r
  return ((k, v), r)

def special (info n : Nat) : Item :=
  match info with
  | 25 => .float (FloatFormat.half.widen n)
  | 26 => .float (FloatFormat.single.widen n)
  | 27 => .float ⟨UInt64.ofNat n⟩
  | _ => .simple n

def nested (inner : Option (Reader Item)) : Except Fault (Reader Item) :=
  match inner with
  | some read => .ok read
  | none => .error .nesting

/-- An item, inside of which `inner` reads, unless the nesting ends here. -/
def itemWith (limit : Option Nat) (inner : Option (Reader Item)) : Reader Item := fun t => do
  let (h, r) ← head t
  let n := h.number.getD 0
  match h.major with
  | 0 => return (.uint n, r)
  | 1 => return (.nint n, r)
  | 2 => (string h r).map fun (s, r) => (.bytes s.flatten, r)
  | 3 => (string h r).map fun (s, r) => (.text s, r)
  | 4 => (many limit (← nested inner) h r).map fun (is, r) => (.array is, r)
  | 5 => (many limit (pair (← nested inner)) h r).map fun (es, r) => (.map es, r)
  | 6 => do
    let _ ← (← nested inner) r
    .error .tagged
  | _ => return (special h.info n, r)

def item (limit : Option Nat) : Nat → Reader Item
  | 0 => itemWith limit none
  | depth + 1 => itemWith limit (some (item limit depth))

def decodeWith (limit : Option Nat) (t : Text) : Except Fault Item :=
  if t.isEmpty then .error .empty
  else do
    let (i, r) ← item limit nestingLimit t
    if r.isEmpty then return i else .error (.extra r.length (t.length - r.length))

/-! ## Reading items as data

Null and undefined stand for whatever the reader of a record starts with, so each function
takes the value to give for them. -/

namespace Item

def isNull : Item → Bool
  | .simple n => n = 22 || n = 23
  | _ => false

def orNull {α : Type} (zero : α) (f : Item → Option α) (i : Item) : Option α :=
  if i.isNull then some zero else f i

/-- The number of an item; the simple values that have no meaning of their own count as numbers. -/
def number? : Item → Option Int
  | .uint n => some n
  | .nint n => some (.negSucc n)
  | .simple n => if 20 ≤ n && n < 24 then none else some n
  | _ => none

def toInt? (lo hi : Int) : Item → Option Int :=
  orNull 0 fun i => do
    let n ← i.number?
    if lo ≤ n && n ≤ hi then some n else none

def toInt64? : Item → Option Int := toInt? (-2 ^ 63) (2 ^ 63 - 1)

def toByte? (i : Item) : Option UInt8 := (toInt? 0 255 i).map fun n => UInt8.ofNat n.toNat

def toFloat? : Item → Option Binary64 :=
  orNull .zero fun i =>
    match i with
    | .float x => some x
    | i => do
      let n ← i.number?
      if n < -2 ^ 63 then none else some (.ofInt n)

def toBool? : Item → Option Bool :=
  orNull false fun i =>
    match i with
    | .simple 20 => some false
    | .simple 21 => some true
    | _ => none

def toText? : Item → Option Text :=
  orNull [] fun i =>
    match i with
    | .text chunks => if chunks.all Text.isValid then some chunks.flatten else none
    | _ => none

def toList? {α : Type} (f : Item → Option α) : Item → Option (Option (List α)) :=
  orNull none fun i =>
    match i with
    | .array items => (items.mapM f).map some
    | _ => none

end Item

/-! ## Records

A record is a map in which every field has a key: a number, or a text. -/

inductive Key where
  | number (n : Int64)
  | name (t : Text)
  deriving DecidableEq, Repr

namespace Key

/-- The text that stands for a key; that of a number is in decimal. -/
def text : Key → Text
  | .number n => Text.ofInt n.toInt
  | .name t => t

end Key

namespace Record

abbrev Fields := List (Key × Option Item)

/-- Gives the item to the first field that has none yet and fits, if there is such a field. -/
def give? (fits : Key → Bool) (v : Item) : Fields → Option Fields
  | [] => none
  | (k, found) :: fs =>
    if found.isNone && fits k then some ((k, some v) :: fs)
    else (give? fits v fs).map ((k, found) :: ·)

/-- Enters one entry of the map. Numbers are matched as 64-bit words. Texts are matched
    exactly or else without regard to case. Entries that fit no field are passed over, but
    all keys have to be valid texts, or numbers not below -2^63. -/
def enter (fs : Fields) (key v : Item) : Option Fields :=
  let byNumber (n : Int) : Fields := (give? (· == .number (Int64.ofInt n)) v fs).getD fs
  match key with
  | .uint n => some (byNumber n)
  | .nint n => if n < 2 ^ 63 then some (byNumber (.negSucc n)) else none
  | .text _ => do
    let t ← key.toText?
    let exact := give? (·.text == t) v fs
    return (exact <|> give? (·.text.toLower == t.toLower) v fs).getD fs
  | _ => none

/-- The items of the fields with the given keys; null stands for a record without entries. -/
def read? (keys : List Key) : Item → Option (List Item) := fun i => do
  let start : Fields := keys.map (·, none)
  let fs ← i.orNull start fun i =>
    match i with
    | .map entries => entries.foldlM (fun fs (k, v) => enter fs k v) start
    | _ => none
  return fs.map fun f => f.2.getD .null

end Record

end Scriptlet.Cbor

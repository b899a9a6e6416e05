/-
  Scriptlet.Image.Cbor — images as bytes.

  An image is a map with the keys 1 to 7, and so is a constant, with the keys 1 to 8, of
  which all but the kind are left out when they are zero or empty. An instruction is a map
  with the keys `Op` and `Arg`.
-/

import Scriptlet.Cbor.Read
import Scriptlet.Image

namespace Scriptlet

open Cbor

namespace Instr

def toItem (i : Instr) : Item :=
  .map [(.ofText "Op", .uint i.op.code.toNat), (.ofText "Arg", .ofInt i.arg)]

def ofItem? (i : Item) : Option Instr := do
  match ← Record.read? [.name "Op", .name "Arg"] i with
  | [op, arg] => return ⟨.ofCode (← op.toByte?), ← arg.toInt64?⟩
  | _ => none

end Instr

namespace Const

def entry (key : Nat) (isZero : Bool) (v : Item) : List (Item × Item) :=
  if isZero then [] else [(.uint key, v)]

mutual

def toItem : Const → Item
  | .mk kind int float str bool items block params =>
    .map ((.uint 1, .uint kind.toNat) :: (entry 2 (int = 0) (.ofInt int) ++ entry 3 float.isZero (.float float)
      ++ entry 4 str.isEmpty (.ofText str) ++ entry 5 (!bool) (.ofBool bool)
      ++ entry 6 items.isEmpty (.array (toItems items)) ++ entry 7 (block = 0) (.ofInt block)
      ++ entry 8 (params = 0) (.ofInt params)))
termination_by structural c => c

def toItems : List Const → List Item
  | [] => []
  | c :: cs => toItem c :: toItems cs
termination_by structural cs => cs

end

def ofItem? : Nat → Item → Option Const
  | 0, _ => none
  | depth + 1, i => do
    match ← Record.read? [.number 1, .number 2, .number 3, .number 4, .number 5, .number 6, .number 7, .number 8] i with
    | [kind, int, float, str, bool, items, block, params] =>
      return .mk (← kind.toByte?) (← int.toInt64?) (← float.toFloat?) (← str.toText?) (← bool.toBool?)
        ((← items.toList? (ofItem? depth)).getD []) (← block.toInt64?) (← params.toInt64?)
    | _ => none

end Const

namespace Image

def toItem (i : Image) : Item :=
  .map [(.uint 1, .ofInt i.version), (.uint 2, .ofList .ofText i.idents), (.uint 3, .ofList Const.toItem i.consts),
    (.uint 4, .ofList (.ofList Instr.toItem) i.blocks), (.uint 5, .ofInt i.entry),
    (.uint 6, .ofList .ofText i.fingerprints), (.uint 7, .ofList (.ofList .ofInt) i.sites)]

def ofItem? (i : Item) : Option Image := do
  match ← Record.read? [.number 1, .number 2, .number 3, .number 4, .number 5, .number 6, .number 7] i with
  | [version, idents, consts, blocks, entry, fingerprints, sites] =>
    return {
      version := ← version.toInt64?
      idents := ← idents.toList? (·.toText?)
      consts := ← consts.toList? (Const.ofItem? Cbor.nestingLimit)
      blocks := ← blocks.toList? (·.toList? Instr.ofItem?)
      entry := ← entry.toInt64?
      fingerprints := ← fingerprints.toList? (·.toText?)
      sites := ← sites.toList? (·.toList? (·.toInt64?)) }
  | _ => none

def encode (i : Image) : Text := i.toItem.encode

def decodeWith (limit : Option Nat) (t : Text) : Except ImageError Image := do
  let item ← (Cbor.decodeWith limit t).mapError .unreadable
  match ofItem? item with
  | some i =>
    i.verify
    return i
  | none => throw (if item.major = 5 then .malformed else .notImage item.major)

def decode (t : Text) : Except ImageError Image := decodeWith (some Cbor.countLimit) t

end Image

end Scriptlet

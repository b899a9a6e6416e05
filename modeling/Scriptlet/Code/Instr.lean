/-
  Scriptlet.Code.Instr — instructions and blocks of them.

  An instruction is an operation with one integer argument, which operations that need none
  ignore. A block is a list of instructions. Its fingerprint is a digest of a text that
  spells out every operation and argument, so equal fingerprints stand for equal blocks.
-/

import Scriptlet.Digest

namespace Scriptlet

inductive Op where
  /-- Push the value bound to an identifier; at a constructor site, make the object. -/
  | loadIdent
  /-- Pop a value and a target, and bind the target to the value. -/
  | store
  /-- Push a copy of a constant. -/
  | loadConst
  /-- Declare a struct type with the fields added before. -/
  | createStruct
  /-- Add a field to the struct type that is declared next. -/
  | addField
  /-- Pop a value and add it as a field to the innermost group. -/
  | storeField
  /-- Pop so many values and push the array of them. -/
  | makeArray
  /-- Pop a prototype and so many parameters, and push a function. -/
  | makeFn
  /-- Pop so many arguments and a callee, and call it. -/
  | call
  | add
  | sub
  | mul
  | div
  /-- Open a group of fields for a struct instance. -/
  | beginStruct
  /-- Pop an object and push one of its fields. -/
  | loadField
  /-- Pop a value and leave the function with it. -/
  | ret
  | unknown (code : UInt8) (h : 16 ≤ code)
  deriving DecidableEq, Repr, Inhabited

namespace Op

def code : Op → UInt8
  | .loadIdent => 0
  | .store => 1
  | .loadConst => 2
  | .createStruct => 3
  | .addField => 4
  | .storeField => 5
  | .makeArray => 6
  | .makeFn => 7
  | .call => 8
  | .add => 9
  | .sub => 10
  | .mul => 11
  | .div => 12
  | .beginStruct => 13
  | .loadField => 14
  | .ret => 15
  | .unknown c _ => c

/-- The operations below 16, in the order of their codes. -/
def known : List Op :=
  [.loadIdent, .store, .loadConst, .createStruct, .addField, .storeField, .makeArray, .makeFn, .call, .add,
    .sub, .mul, .div, .beginStruct, .loadField, .ret]

def ofCode (c : UInt8) : Op :=
  if h : 16 ≤ c then .unknown c h else known.getD c.toNat .ret

def name : Op → Text
  | .loadIdent => "LoadIdent"
  | .store => "Store"
  | .loadConst => "LoadConst"
  | .createStruct => "CreateStruct"
  | .addField => "AddField"
  | .storeField => "StoreField"
  | .makeArray => "MakeArray"
  | .makeFn => "MakeFn"
  | .call => "Call"
  | .add => "Add"
  | .sub => "Sub"
  | .mul => "Mul"
  | .div => "Div"
  | .beginStruct => "BeginStruct"
  | .loadField => "LoadField"
  | .ret => "Return"
  | .unknown c _ => "Op(" ++ Text.ofNat c.toNat ++ ")"

def hasArg : Op → Bool
  | .loadIdent | .loadConst | .createStruct | .addField | .storeField | .makeArray | .makeFn | .call
  | .loadField => true
  | _ => false

end Op

structure Instr where
  op : Op
  arg : Int := 0
  deriving DecidableEq, Repr, Inhabited

def Instr.render (i : Instr) : Text :=
  if i.op.hasArg then i.op.name ++ "(" ++ Text.ofInt i.arg ++ ")" else i.op.name

abbrev Block := List Instr

namespace Block

/-- Compares blocks of the same length instruction by instruction. -/
def equal (a b : Block) : Bool := a.length == b.length && (a.zip b).all fun (i, j) => i == j

def listing (b : Block) : List Text :=
  b.zipIdx.map fun (i, pc) => Text.padLeft 4 '0' (Text.ofNat pc) ++ " " ++ i.render

def spelling (b : Block) : Text :=
  let one (i : Instr) : Text :=
    "\x7bArg:" ++ Text.ofInt i.arg ++ ",Op:" ++ Text.ofNat i.op.code.toNat ++ "\x7d"
  "\x7bCode:[" ++ Text.join "," (b.map one) ++ "]\x7d"

def fingerprint (b : Block) : Text := "v1_" ++ Text.hexOfBytes (Digest.md5 b.spelling)

end Block

end Scriptlet

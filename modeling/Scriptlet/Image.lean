/-
  Scriptlet.Image — programs in a form that can be stored.

  An image holds the tables of a program, the block to start with, and a fingerprint of
  every block. It is verified before use: the version, the number and the fingerprints of
  the blocks, the constructor sites and the entry have to be right, in this order.
-/

import Scriptlet.Cbor.Fault
import Scriptlet.Code.Program

namespace Scriptlet

/-- A constant as it is stored: its kind, and a place for what each kind holds. -/
inductive Const where
  | mk (kind : UInt8) (int : Int) (float : Binary64) (str : Text) (bool : Bool) (items : List Const)
      (block params : Int)
  deriving Repr, Inhabited

structure Image where
  version : Int
  idents : Option (List Text)
  consts : Option (List Const)
  blocks : Option (List (Option Block))
  entry : Int
  fingerprints : Option (List Text)
  sites : Option (List (Option (List Int)))
  deriving Inhabited

inductive ImageError where
  /-- The program has no such block to start with. -/
  | noEntry (id : Int)
  | unstorable (kind : ValueKind)
  | version (n : Int)
  | fingerprintCount (fingerprints blocks : Nat)
  | fingerprint (block : Nat)
  | siteCount (sites blocks : Nat)
  | site (pc : Int) (block : Nat)
  | entry (id : Int)
  | constKind (kind : UInt8)
  | unreadable (why : Cbor.Fault)
  /-- The bytes hold an item of another type than that of images. -/
  | notImage (major : Nat)
  | malformed
  deriving DecidableEq, Repr, Inhabited

def Image.currentVersion : Int := 2

namespace ImageError

/-- Is the error about an image that could be read, but is refused? -/
def isCorrupt : ImageError → Bool
  | .noEntry _ | .unstorable _ | .unreadable _ | .notImage _ | .malformed => false
  | _ => true

def detail : ImageError → Text
  | .noEntry id => "image entry block #" ++ Text.ofInt id ++ " does not exist"
  | .unstorable k => "value of kind " ++ k.name ++ " cannot be stored in an image"
  | .version n => "version " ++ Text.ofInt n ++ ", expected " ++ Text.ofInt Image.currentVersion
  | .fingerprintCount f b => Text.ofNat f ++ " fingerprints for " ++ Text.ofNat b ++ " blocks"
  | .fingerprint b => "fingerprint mismatch for block #" ++ Text.ofNat b
  | .siteCount s b =>
    "constructor sites for " ++ Text.ofNat s ++ " blocks, have " ++ Text.ofNat b ++ " blocks"
  | .site pc b => "bad constructor site " ++ Text.ofInt pc ++ " in block #" ++ Text.ofNat b
  | .entry id => "entry block #" ++ Text.ofInt id ++ " out of range"
  | .constKind k => "constant of kind " ++ ValueKind.nameOfNumber k
  | .unreadable why => "compiler: unmarshal image: " ++ why.message
  | .notImage major =>
    "compiler: unmarshal image: cbor: cannot unmarshal " ++ Cbor.majorName major ++
      " into Go value of type compiler.Image" ++
      Text.ofString (if major = 4 then " (cannot decode CBOR array to struct without toarray option)" else "")
  | .malformed => "compiler: unmarshal image: malformed data"

def message (e : ImageError) : Text :=
  if e.isCorrupt then "corrupt bytecode image: " ++ e.detail else e.detail

end ImageError

namespace Const

mutual

/-- A value as a constant; functions, types and objects cannot be stored. -/
def ofValue : Value → Except ImageError Const
  | .none => .ok (.mk ValueKind.none.number 0 .zero [] false [] 0 0)
  | .int n => .ok (.mk ValueKind.int.number n.toInt .zero [] false [] 0 0)
  | .float x => .ok (.mk ValueKind.float.number 0 x [] false [] 0 0)
  | .str s => .ok (.mk ValueKind.str.number 0 .zero s false [] 0 0)
  | .bool b => .ok (.mk ValueKind.bool.number 0 .zero [] b [] 0 0)
  | .array items => (ofPlaces items).map fun cs => .mk ValueKind.array.number 0 .zero [] false cs 0 0
  | .proto p => .ok (.mk ValueKind.proto.number 0 .zero [] false [] p.block p.params)
  | .closure _ => .error (.unstorable .closure)
  | .structType _ => .error (.unstorable .structType)
  | .object _ => .error (.unstorable .object)
  | .host .. => .error (.unstorable .host)
  | .builtin _ => .error (.unstorable .builtin)
termination_by structural v => v

def ofPlace : Option Value → Except ImageError Const
  | some v => ofValue v
  | none => .ok (.mk ValueKind.none.number 0 .zero [] false [] 0 0)
termination_by structural v => v

def ofPlaces : List (Option Value) → Except ImageError (List Const)
  | [] => .ok []
  | v :: vs => do
    let c ← ofPlace v
    return c :: (← ofPlaces vs)
termination_by structural vs => vs

end

mutual

/-- The value of a constant. What its kind does not hold is ignored. -/
def toValue : Const → Except ImageError Value
  | .mk kind int float str bool items block params =>
    match ValueKind.ofNumber? kind with
    | some .none => .ok .none
    | some .int => .ok (.int (Int64.ofInt int))
    | some .float => .ok (.float float)
    | some .str => .ok (.str str)
    | some .bool => .ok (.bool bool)
    | some .array => (toValues items).map fun vs => .array (vs.map some)
    | some .proto => .ok (.proto ⟨block, params⟩)
    | _ => .error (.constKind kind)
termination_by structural c => c

def toValues : List Const → Except ImageError (List Value)
  | [] => .ok []
  | c :: cs => do
    let v ← toValue c
    return v :: (← toValues cs)
termination_by structural cs => cs

end

end Const

namespace Image

def ofProgram (p : Program) (entry : Int) : Except ImageError Image := do
  if (p.slot? entry).isNone then throw (.noEntry entry)
  let consts ← p.consts.mapM Const.ofValue
  return {
    version := currentVersion
    idents := some p.idents.names
    consts := if consts.isEmpty then none else some consts
    blocks := some (p.slots.map (·.code))
    entry := entry
    fingerprints := some (p.slots.map fun s => (s.code.getD []).fingerprint)
    sites := some (p.slots.map fun s => s.sites.map fun l => l.map fun (n : Nat) => (n : Int)) }

/-! ## Verification -/

def blockList (i : Image) : List (Option Block) := i.blocks.getD []

def fingerprintList (i : Image) : List Text := i.fingerprints.getD []

def siteList (i : Image) : List (Option (List Int)) := i.sites.getD []

def verifyFingerprints (n : Nat) : List (Option Block) → List Text → Except ImageError Unit
  | b :: bs, f :: fs =>
    if (b.getD []).fingerprint = f then verifyFingerprints (n + 1) bs fs else throw (.fingerprint n)
  | _, _ => return ()

/-- Is the constructor site one that loads an identifier, behind the site before it? -/
def siteFits (b : Block) (before : Option Int) (pc : Int) : Bool :=
  ((Program.nth? b pc).map (·.op)) == some .loadIdent && before.all (· < pc)

def verifySites (n : Nat) (b : Block) (before : Option Int) : List Int → Except ImageError Unit
  | [] => return ()
  | pc :: pcs => if siteFits b before pc then verifySites n b (some pc) pcs else throw (.site pc n)

def verifyAllSites (n : Nat) : List (Option Block) → List (Option (List Int)) → Except ImageError Unit
  | b :: bs, s :: ss => do
    verifySites n (b.getD []) none (s.getD [])
    verifyAllSites (n + 1) bs ss
  | _, _ => return ()

def verify (i : Image) : Except ImageError Unit := do
  let blocks := i.blockList
  if i.version ≠ currentVersion then throw (.version i.version)
  if i.fingerprintList.length ≠ blocks.length then
    throw (.fingerprintCount i.fingerprintList.length blocks.length)
  verifyFingerprints 0 blocks i.fingerprintList
  if i.siteList.length ≠ blocks.length then throw (.siteCount i.siteList.length blocks.length)
  verifyAllSites 0 blocks i.siteList
  if i.entry < 0 || blocks.length ≤ i.entry then throw (.entry i.entry)

/-- The program of an image that verifies. An identifier that occurs twice keeps its first number. -/
def toProgram (i : Image) : Except ImageError Program := do
  i.verify
  let consts ← (i.consts.getD []).mapM Const.toValue
  return {
    idents := (i.idents.getD []).foldl (fun t name => (t.intern name).2) .empty
    consts := consts
    slots := List.zipWith (fun b s => ⟨b, s.map fun l => l.map Int.toNat⟩) i.blockList i.siteList }

end Image

end Scriptlet

/-
  Scriptlet.Machine.Exec — what single instructions do.

  `Machine.exec` runs an instruction in the frame `f`, which is already set behind it, above
  the frames `rest`. The result is the machine afterwards; it awaits the host if the
  instruction was a call that the host has to answer. An instruction that fails leaves its
  frame without the operands and the group of fields that it has taken by then, and nothing
  else of the machine has changed (`Stuck`).
-/

import Scriptlet.Machine.Arith
import Scriptlet.Machine.State

namespace Scriptlet.Machine

/-- Why an instruction failed, and the frame as it left it. -/
structure Stuck where
  fault : Fault
  frame : Frame

/-- What fails here fails in the frame `f`. -/
def inFrame {α : Type} (f : Frame) (x : Except Fault α) : Except Stuck α := x.mapError (⟨·, f⟩)

def withFrames (m : Machine) (fs : List Frame) : Machine := { m with frames := fs }

/-- The name of the identifier of an operand; one that has none has the empty name. -/
def identName (m : Machine) (id : Option Int) : Text := (id.map m.name).getD []

def resolved (m : Machine) (o : Operand) : Except Fault Value :=
  match o.value with
  | some v => .ok v
  | none => .error (.unbound (m.identName o.ident))

def popOperand (f : Frame) : Except Stuck (Operand × Frame) :=
  match f.pop? with
  | some p => .ok p
  | none => .error ⟨.underflow, f⟩

def popOperands (f : Frame) (n : Int) : Except Stuck (List Operand × Frame) :=
  match f.popN? n with
  | some p => .ok p
  | none => .error ⟨.underflow, f⟩

def popValue (m : Machine) (f : Frame) : Except Stuck (Value × Frame) := do
  let (o, f) ← popOperand f
  return (← inFrame f (m.resolved o), f)

def popValues (m : Machine) (f : Frame) (n : Int) : Except Stuck (List Value × Frame) := do
  let (os, f) ← popOperands f n
  return (← inFrame f (os.mapM m.resolved), f)

/-- The value with which a frame is left; without any operand it is none. -/
def popResult (m : Machine) (f : Frame) : Except Stuck (Value × Frame) :=
  match f.pop? with
  | none => .ok (.none, f)
  | some (o, f) => do return (← inFrame f (m.resolved o), f)

section

variable (m : Machine) (f : Frame) (rest : List Frame)

def loadIdent (id : Int) : Machine :=
  m.withFrames (f.push (.loaded (m.scopes.value? f.scope id) id) :: rest)

def newObject (id : Int) (fields : List Field) : Machine :=
  let (o, registry) := m.registry.newObject (.inner m.fresh) id (m.name id) fields
  let stores := fields.map fun fd => Action.storeField o.id fd.name fd.value
  { m with
    registry := registry
    units := m.units.map fun u => if u.name = f.unit then { u with objects := u.objects ++ [o.id] } else u
    queue := m.queue ++ .construct o.id o.typeName :: stores
    fresh := m.fresh + 1
    frames := f.pushValue (.object o) :: rest }

/-- Completes a struct instance. If the name of its type has a value, that has to be a struct
    type that has all the fields. -/
def construct (id : Int) : Except Stuck Machine :=
  let (fields, g) := f.closeGroup
  match m.scopes.value? f.scope id with
  | some (.structType t) =>
    match fields.find? fun fd => !t.hasField fd.id with
    | some fd => .error ⟨.noSuchField t.name fd.name, g⟩
    | none => .ok (m.newObject g rest id fields)
  | some _ => .error ⟨.notStructType (m.name id), g⟩
  | none => .ok (m.newObject g rest id fields)

def store : Except Stuck Machine := do
  let (v, f) ← m.popValue f
  let (target, f) ← popOperand f
  match target.ident with
  | some id =>
    return { m with scopes := m.scopes.bind f.scope id (m.name id) (some v.copy), frames := f :: rest }
  | none => throw ⟨.notAssignable target.value, f⟩

def loadConst (id : Int) : Except Stuck Machine :=
  match m.program.const? id with
  | some v => .ok (m.withFrames (f.pushValue v.copy :: rest))
  | none => .error ⟨.noConst id, f⟩

def createStruct (id : Int) : Machine :=
  let t : StructType := ⟨.inner m.fresh, id, m.name id, m.declared⟩
  { m with
    declared := []
    registry := m.registry.define t
    scopes := m.scopes.bind f.scope id t.name (some (.structType t))
    fresh := m.fresh + 1
    frames := f :: rest }

def storeField (id : Int) : Except Stuck Machine := do
  let (v, f) ← m.popValue f
  return m.withFrames (f.addField ⟨id, m.name id, some v⟩ :: rest)

def makeArray (n : Int) : Except Stuck Machine := do
  let (vs, f) ← m.popValues f n
  return m.withFrames (f.pushValue (.array (vs.map some)) :: rest)

def param (o : Operand) : Except Fault Int :=
  match o.ident with
  | some id => .ok id
  | none => .error .paramNotIdent

def makeFn (n : Int) : Except Stuck Machine := do
  match ← m.popValue f with
  | (.proto p, f) =>
    if p.params ≠ n then throw ⟨.protoParams p.params n, f⟩
    let (os, f) ← popOperands f n
    let params ← inFrame f (os.mapM param)
    let c : Closure := ⟨.inner m.fresh, p, params, m.scopes.chain f.scope⟩
    return { m with fresh := m.fresh + 1, frames := f.pushValue (.closure c) :: rest }
  | (v, f) => throw ⟨.notProto v.kind, f⟩

def await (a : Action) : Machine := { m with queue := m.queue ++ [a], awaiting := true, frames := f :: rest }

def callScope (name : Text) (c : Closure) (args : List Value) : Nat × Scopes :=
  let (s, scopes) := m.scopes.add name c.scopes
  (s, (c.params.zip args).foldl (fun scopes (id, v) => scopes.bind s id (m.name id) (some v)) scopes)

def callClosure (c : Closure) (ident : Option Int) (args : List Value) : Except Stuck Machine :=
  if args.length ≠ c.params.length then .error ⟨.argumentCount c.params.length args.length, f⟩
  else if m.limit ≤ rest.length + 1 then .error ⟨.frameLimit m.limit, f⟩
  else
    let name := (ident.map m.name).getD "<anonymous>"
    let (s, scopes) := m.callScope name c args
    let callee : Frame := { name := name, unit := f.unit, block := c.proto.block, scope := s, returns := true }
    .ok { m with scopes := scopes, frames := callee :: f :: rest }

def callBuiltin (name : Text) (args : List Value) : Except Stuck Machine :=
  if name ≠ importName then .error ⟨.unknownBuiltin name, f⟩
  else match args with
    | [.str path] => .ok (m.await f rest (.importModule path))
    | [_] => .error ⟨.importPathNotStr, f⟩
    | _ => .error ⟨.importCount args.length, f⟩

def call (n : Int) : Except Stuck Machine := do
  let (args, f) ← m.popValues f n
  let (callee, f) ← popOperand f
  match callee.value, callee.ident with
  | some (.closure c), ident => m.callClosure f rest c ident args
  | some (.host symbol name none), _ => return m.await f rest (.call symbol name args)
  | some (.host symbol name (some o)), _ => return m.await f rest (.call symbol name (.object o :: args))
  | some (.builtin name), _ => m.callBuiltin f rest name args
  | some v, _ => throw ⟨.notCallable v, f⟩
  | none, some id =>
    if m.fallback then return m.await f rest (.call id (m.name id) args) else throw ⟨.unbound (m.name id), f⟩
  | none, none => throw ⟨.unbound [], f⟩

/-- Loads a field of an object. A field that the object does not have is a method of the host. -/
def loadField (id : Int) : Except Stuck Machine := do
  match ← m.popValue f with
  | (.object o, f) =>
    let m := m.put (.loadField o.id (m.name id))
    let o := match o.field? id with
      | some v => Operand.mk (Value.copyPlace v) none
      | none => ⟨some (.host id (m.name id) (some o)), none⟩
    return m.withFrames (f.push o :: rest)
  | (v, f) => throw ⟨.noFields (m.name id) v.kind, f⟩

def arith (a : Arith) : Except Stuck Machine := do
  let (v, f) ← m.popValue f
  let (u, f) ← m.popValue f
  return m.withFrames (f.pushValue (← inFrame f (a.apply u v)) :: rest)

/-- Sets the result of the frame and goes to the end of its code. -/
def ret (stop : Nat) : Except Stuck Machine := do
  let (v, f) ← m.popResult f
  return m.withFrames ({ f with result := some v, pc := stop } :: rest)

/-- Runs the instruction at `pc` of a block that has `stop` instructions. -/
def exec (stop pc : Nat) (i : Instr) : Except Stuck Machine :=
  match i.op with
  | .loadIdent =>
    if m.program.isConstructor f.block pc then m.construct f rest i.arg else .ok (m.loadIdent f rest i.arg)
  | .store => m.store f rest
  | .loadConst => m.loadConst f rest i.arg
  | .createStruct => .ok (m.createStruct f rest i.arg)
  | .addField => .ok { m with declared := m.declared ++ [i.arg], frames := f :: rest }
  | .storeField => m.storeField f rest i.arg
  | .makeArray => m.makeArray f rest i.arg
  | .makeFn => m.makeFn f rest i.arg
  | .call => m.call f rest i.arg
  | .add => m.arith f rest .add
  | .sub => m.arith f rest .sub
  | .mul => m.arith f rest .mul
  | .div => m.arith f rest .div
  | .beginStruct => .ok (m.withFrames (f.openGroup :: rest))
  | .loadField => m.loadField f rest i.arg
  | .ret => m.ret f rest stop
  | .unknown code _ => .error ⟨.unknownOp code, f⟩

end

end Scriptlet.Machine

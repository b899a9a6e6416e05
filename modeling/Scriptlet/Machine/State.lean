/-
  Scriptlet.Machine.State — machines and what the host can do to them between steps.

  A machine runs the code of the units loaded into it. It acts on the outside only by putting
  actions into its queue. While it awaits a reply it does nothing at all, and once it is
  halted it stays halted until it is reset.
-/

import Scriptlet.Code.Lower
import Scriptlet.Image
import Scriptlet.Machine.Action
import Scriptlet.Machine.Fault
import Scriptlet.Machine.Frame
import Scriptlet.Machine.Registry
import Scriptlet.Syntax.Parse

namespace Scriptlet

structure Machine.Options where
  hostNames : List Text := []
  /-- Is a call of a name that has no value a call of the host? -/
  fallback : Bool := false
  limit : Nat := 256
  deriving Repr, Inhabited

/-- A limit that is not positive changes nothing. -/
def Machine.Options.withLimit (o : Machine.Options) (n : Int) : Machine.Options :=
  if 0 < n then { o with limit := n.toNat } else o

structure CodeUnit where
  name : Text
  block : Int
  /-- The objects made on behalf of the unit, in order. -/
  objects : List Int := []
  deriving Repr, Inhabited

structure Machine where
  program : Program := {}
  fallback : Bool := false
  limit : Nat := 256
  scopes : Scopes := ⟨#[{ name := "globals" }]⟩
  registry : Registry := {}
  /-- The frames, the one that runs first. -/
  frames : List Frame := []
  queue : List Action := []
  units : List CodeUnit := []
  /-- The fields for the struct type that is declared next. -/
  declared : List Int := []
  awaiting : Bool := false
  /-- Is there a quit in the queue? -/
  quitting : Bool := false
  halted : Option Halt := none
  aborted : Bool := false
  fresh : Nat := 0
  deriving Inhabited

inductive MachineError where
  /-- The machine was halted before. -/
  | halted (h : Halt)
  /-- The machine halted just now. -/
  | failed (h : Halt)
  | awaitingHost
  | notAwaitingHost
  | parse (e : SyntaxError)
  | lower (e : LowerError)
  deriving Inhabited

namespace MachineError

def message : MachineError → Text
  | .halted h => "virtual machine halted: " ++ h.message
  | .failed h => h.message
  | .awaitingHost => "waiting for host to resume"
  | .notAwaitingHost => "not waiting for host"
  | .parse e => e.message
  | .lower e => e.message

def halt? : MachineError → Option Halt
  | .halted h | .failed h => some h
  | _ => none

end MachineError

namespace Machine

def globals : Nat := 0

def importName : Text := "import"

def name (m : Machine) (id : Int) : Text := m.program.name id

def bindGlobal (m : Machine) (name : Text) (v : Nat → Value) : Machine :=
  let (id, p) := m.program.intern name
  { m with program := p, scopes := m.scopes.bind globals id name (some (v id)) }

def ofProgram (p : Program) (o : Options) : Machine :=
  let m : Machine := { program := p, fallback := o.fallback, limit := o.limit }
  let m := m.bindGlobal importName fun _ => .builtin importName
  o.hostNames.foldl (fun m name => m.bindGlobal name fun id => .host id name none) m

def new (o : Options) : Machine := ofProgram {} o

def enter (m : Machine) (name : Text) (block : Int) : Machine :=
  { m with frames := { name := name, unit := name, block := block, scope := globals } :: m.frames }

def imageUnit : Text := "image"

def ofImage (i : Image) (o : Options) : Except ImageError Machine := do
  let m := ofProgram (← i.toProgram) o
  return { m with units := [⟨imageUnit, i.entry, []⟩] }.enter imageUnit i.entry

def unit? (m : Machine) (name : Text) : Option CodeUnit := m.units.find? (·.name == name)

def unitBlock? (m : Machine) (name : Text) : Option (Option Block) := do
  let u ← m.unit? name
  return (← m.program.slot? u.block).code

def object? (m : Machine) (id : Int) : Option Object := m.registry.object? id

def lookup? (m : Machine) (name : Text) : Option Value := do
  m.scopes.value? globals (← m.program.idents.lookup? name)

def put (m : Machine) (a : Action) : Machine := { m with queue := m.queue ++ [a] }

def drain (m : Machine) : List Action × Machine := (m.queue, { m with queue := [], quitting := false })

/-- Continues a machine that awaits a reply. No value counts as none. -/
def resume (m : Machine) (v : Option Value) : Except MachineError Unit × Machine :=
  if !m.awaiting then (.error .notAwaitingHost, m)
  else
    let frames := match m.frames with
      | [] => []
      | f :: rest => f.pushValue (v.getD .none) :: rest
    (.ok (), { m with awaiting := false, frames := frames })

/-- Stops the machine before its next instruction. -/
def abort (m : Machine) : Machine := { m with aborted := true }

/-- Gives up all code in progress, but keeps what was loaded, bound and made. -/
def reset (m : Machine) : Machine :=
  { m with
    frames := [], queue := [], declared := [], halted := none, awaiting := false, quitting := false,
    aborted := false }

/-! ## Loading -/

def dropObjects (m : Machine) (ids : List Int) : Machine :=
  ids.foldl (fun m id => { m with registry := m.registry.drop id }.put (.destruct id)) m

/-- Loads a program under a name and puts it on top. Code that was loaded under the name before
    is replaced, and the objects made by it are dropped. -/
def loadNodes (m : Machine) (name : Text) (program : List Node) : Except MachineError Unit × Machine :=
  match m.halted with
  | some h => (.error (.halted h), m)
  | none =>
    if m.awaiting then (.error .awaitingHost, m)
    else match m.unit? name with
      | some u =>
        match m.program.recompile u.block program with
        | (.error e, p) => (.error (.lower e), { m with program := p })
        | (.ok _, p) =>
          let m := { m with program := p }.dropObjects u.objects
          let units := m.units.map fun v => if v.name = name then { v with objects := [] } else v
          (.ok (), { m with units := units }.enter name u.block)
      | none =>
        match m.program.compile program with
        | (.error e, p) => (.error (.lower e), { m with program := p })
        | (.ok id, p) =>
          let u : CodeUnit := ⟨name, id, []⟩
          (.ok (), { m with program := p, units := m.units ++ [u] }.enter name u.block)

def load (m : Machine) (name src : Text) : Except MachineError Unit × Machine :=
  match Parse.source src with
  | .error e => (.error (.parse e), m)
  | .ok program => m.loadNodes name program

end Machine

end Scriptlet

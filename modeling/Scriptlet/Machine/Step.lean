/-
  Scriptlet.Machine.Step — running a machine until it pauses.

  A step runs the frame on top, and the functions that it calls, until a frame is left, the
  host has to answer a call, or an instruction fails. Calls go at most as deep as the limit
  on frames allows, and every frame runs at most as many instructions as its block has, so
  `Machine.stepBound` instructions are enough for a step.

  Before every instruction the machine looks whether it was aborted and whether the context of
  the step has expired. Either can come about at any time, also in the middle of a step, so a
  step is given what happens before each of its ticks (`Signals`).
-/

import Scriptlet.Machine.Exec

namespace Scriptlet

namespace Program

def longest (p : Program) : Nat := p.slots.foldl (fun n s => max n (s.code.getD []).length) 0

end Program

/-- What happens to a machine from outside right before a tick. -/
inductive Signal where
  | quiet
  | abort
  | cancel
  deriving DecidableEq, Repr, Inhabited

def Signals := Nat → Signal

namespace Signals

/-- The context has expired when the step starts, or it never does. -/
def ofBool : Bool → Signals
  | false => fun _ => .quiet
  | true => fun _ => .cancel

instance : Coe Bool Signals := ⟨ofBool⟩

def later (c : Signals) : Signals := fun n => c (n + 1)

end Signals

namespace Machine

/-- Asks the host to quit, unless it was asked already. -/
def terminate (m : Machine) : Machine := if m.quitting then m else { m with quitting := true }.put .quit

def halt (m : Machine) (h : Halt) : Machine := { m with halted := some h, awaiting := false }

def frameResult (m : Machine) (f : Frame) : Except Fault Value :=
  match f.result with
  | some v => .ok v
  | none =>
    match m.popResult f with
    | .ok (v, _) => .ok v
    | .error s => .error s.fault

def deliver (v : Value) : List Frame → List Frame
  | [] => []
  | f :: fs => f.pushValue v :: fs

/-- Leaves the frame `f`. Its caller gets the result, if it is to have one. -/
def leave (m : Machine) (f : Frame) (rest : List Frame) : Except Fault Machine := do
  let rest ← if f.returns then (m.frameResult f).map fun v => deliver v rest else pure rest
  let m := m.withFrames rest
  return if rest.isEmpty then m.terminate else m

inductive Tick where
  | go (m : Machine)
  | pause (m : Machine)
  | stop (m : Machine) (h : Halt)

/-- What a machine does next: at most one instruction. -/
def tick (s : Signal) (m : Machine) : Tick :=
  if m.aborted then .stop m .aborted
  else match s with
    | .abort => .stop m.abort .aborted
    | .cancel => .stop m .cancelled
    | .quiet =>
      match m.frames with
      | [] => .pause m.terminate
      | f :: rest =>
        match m.program.block? f.block with
        | none => .stop m (.noBlock f.block)
        | some code =>
          match code[f.pc]? with
          | none =>
            match m.leave f rest with
            | .ok m' => .pause m'
            | .error e => .stop (m.withFrames rest) (.fault f.block code.length ⟨.ret, 0⟩ e)
          | some i =>
            match m.exec { f with pc := f.pc + 1 } rest code.length f.pc i with
            | .ok m' => if m'.awaiting then .pause m' else .go m'
            | .error s => .stop (m.withFrames (s.frame :: rest)) (.fault f.block f.pc i s.fault)

def stepBound (m : Machine) : Nat := (m.limit - m.frames.length + 1) * (m.program.longest + 1)

def ticks (c : Signals) : Nat → Machine → Except MachineError Unit × Machine
  | 0, m => (.ok (), m)
  | n + 1, m =>
    match m.tick (c 0) with
    | .go m' => ticks c.later n m'
    | .pause m' => (.ok (), m')
    | .stop m' h => (.error (.failed h), m'.halt h)

def step (m : Machine) (c : Signals) : Except MachineError Unit × Machine :=
  match m.halted with
  | some h => (.error (.halted h), m)
  | none => if m.awaiting then (.error .awaitingHost, m) else ticks c m.stepBound m

end Machine

end Scriptlet

/-
  Scriptlet.Proofs.CrashFreedom — no image can crash a machine.

  `Bare.step` is a step whose operations crash outside of their domains, and `Bare.run` a sequence of
  requests with such steps.

  (1) Every machine whose constructor sites ascend makes bare steps, and answers bare requests, as it
      makes steps and answers requests (`Bare.step_eq`, `Bare.run_eq`); a machine made of an image is
      such a machine, and stays one.
  (2) A step is fine, or is refused and changes nothing, or halts the machine for a fault of a known
      class at the instruction that failed (`step_outcome`). It can be aborted, and its context can expire,
      wherever it has come to (`Passes.interrupted`).
-/

import Scriptlet.Proofs.Bare
import Scriptlet.Proofs.Driving

namespace Scriptlet

namespace Bare

open Machine

/-! ## (1) Steps and requests -/

def popFrame : List Frame → Bare (Frame × List Frame)
  | [] => .crashed .noFrame
  | f :: rest => .done (f, rest)

/-- The frames after the frame above them was left with a result. -/
def deliver (v : Option Value) : List Frame → List Frame
  | [] => []
  | f :: fs => f.push ⟨v, none⟩ :: fs

def frameResult (m : Machine) (f : Frame) : Bare (Option Value) := do
  if f.result.isNone then
    let (v, _) ← popResult m f
    return v
  else return f.result

def leave (m : Machine) : Bare Machine := do
  let (f, rest) ← popFrame m.frames
  let rest ← if f.returns then (deliver · rest) <$> frameResult m f else pure rest
  let m := m.withFrames rest
  return if rest.isEmpty then m.terminate else m

def tick (s : Signal) (m : Machine) : Bare Tick :=
  if m.aborted then .done (.stop m .aborted)
  else match s with
    | .abort => .done (.stop m.abort .aborted)
    | .cancel => .done (.stop m .cancelled)
    | .quiet =>
      if m.frames.isEmpty then .done (.pause m.terminate)
      else do
        let (f, rest) ← popFrame m.frames
        match ← block? m.program f.block with
        | none => return .stop m (.noBlock f.block)
        | some code =>
          if code.length ≤ f.pc then
            match ← attempt (leave m) with
            | .ok m' => return .pause m'
            | .error e => return .stop (m.withFrames rest) (.fault f.block code.length ⟨.ret, 0⟩ e.fault)
          else
            let i ← nth code f.pc
            match ← attempt (exec m { f with pc := f.pc + 1 } rest code.length f.pc i) with
            | .ok m' => return if m'.awaiting then .pause m' else .go m'
            | .error e => return .stop (m.withFrames (e.frame :: rest)) (.fault f.block f.pc i e.fault)

def ticks (c : Signals) : Nat → Machine → Bare (Except MachineError Unit × Machine)
  | 0, m => .done (.ok (), m)
  | n + 1, m => do
    match ← tick (c 0) m with
    | .go m' => ticks c.later n m'
    | .pause m' => return (.ok (), m')
    | .stop m' h => return (.error (.failed h), m'.halt h)

def step (m : Machine) (c : Signals) : Bare (Except MachineError Unit × Machine) :=
  match m.halted with
  | some h => .done (.error (.halted h), m)
  | none => if m.awaiting then .done (.error .awaitingHost, m) else ticks c m.stepBound m

def request (m : Machine) : Request → Bare Machine
  | .step c => Prod.snd <$> step m c
  | r => .done (r.apply m)

def run (m : Machine) (rs : List Request) : Bare Machine := rs.foldlM request m

/-- The frame from which the result was to be taken is gone, so only the fault is left of a failure. -/
theorem frameResult_eq (m : Machine) (f : Frame) :
    ∃ x : Except Stuck Value, frameResult m f = of (x.map some) ∧ m.frameResult f = x.mapError Stuck.fault := by
  unfold frameResult Machine.frameResult
  cases f.result with
  | some v => exact ⟨.ok v, rfl, rfl⟩
  | none =>
    refine ⟨(m.popResult f).map (·.1), ?_, ?_⟩
    · rw [popResult_eq]
      cases m.popResult f <;> rfl
    · cases m.popResult f <;> rfl

variable {m : Machine}

theorem leave_eq {f : Frame} {rest : List Frame} (hf : m.frames = f :: rest) :
    ∃ x : Except Stuck Machine, leave m = of x ∧ m.leave f rest = x.mapError Stuck.fault := by
  unfold leave Machine.leave
  rw [hf]
  cases hr : f.returns with
  | false => exact ⟨.ok _, by simp only [popFrame, done_bind, hr]; rfl, rfl⟩
  | true =>
    obtain ⟨x, hx, hres⟩ := frameResult_eq m f
    simp only [popFrame, done_bind, hr, if_true, hx, hres]
    cases x with
    | error s => exact ⟨.error s, rfl, rfl⟩
    | ok v => cases rest <;> exact ⟨.ok _, rfl, rfl⟩

section

variable (h : m.program.Ascending)

include h

theorem tick_eq (s : Signal) : tick s m = .done (m.tick s) := by
  unfold tick Machine.tick
  cases m.aborted with
  | true => rfl
  | false =>
  cases s with
  | abort | cancel => rfl
  | quiet =>
  cases hf : m.frames with
  | nil => rfl
  | cons f rest =>
    obtain ⟨x, hx, hleave⟩ := leave_eq hf
    simp only [popFrame, block?_eq, done_bind, hx, hleave, attempt_of, exec_eq _ _ _ h, List.isEmpty_cons]
    cases m.program.block? f.block with
    | none => rfl
    | some code =>
      by_cases hpc : code.length ≤ f.pc
      · simp only [hpc, if_true, List.getElem?_eq_none hpc]
        cases x <;> rfl
      · have hi := List.getElem?_eq_getElem (Nat.lt_of_not_le hpc)
        simp only [hpc, if_false, hi, nth_eq hi, done_bind]
        cases m.exec { f with pc := f.pc + 1 } rest code.length f.pc _ <;> rfl

theorem ticks_eq (c : Signals) (n : Nat) : ticks c n m = .done (Machine.ticks c n m) := by
  induction n generalizing m c with
  | zero => rfl
  | succ n ih =>
    rw [ticks, Machine.ticks, tick_eq h, done_bind]
    cases ht : m.tick (c 0) with
    | go m' =>
      obtain ⟨f, rest, code, i, -, -, -, he, -⟩ := tick_go ht
      exact ih ((exec_ok he).program ▸ h) c.later
    | pause m' => rfl
    | stop m' e => rfl

theorem step_eq (c : Signals) : step m c = .done (m.step c) := by
  unfold step Machine.step
  cases m.halted with
  | some e => rfl
  | none =>
    cases m.awaiting with
    | true => rfl
    | false => exact ticks_eq h c m.stepBound

theorem request_eq (r : Request) : request m r = .done (r.apply m) := by
  cases r with
  | step c =>
    rw [request, step_eq h]
    rfl
  | _ => rfl

theorem run_eq (rs : List Request) : run m rs = .done (History.after m rs).machine := by
  have runs (k : Machine.History) (hk : k.machine.program.Ascending) : run k.machine rs = .done (k.run rs).machine := by
    induction rs generalizing k with
    | nil => rfl
    | cons r rs ih =>
      rw [run, List.foldlM_cons, request_eq hk, done_bind]
      exact ih (k.next r) (r.ascending hk)
  exact runs { machine := m } h

end

end Bare

/-! ## (2) What comes of a step -/

def FaultClass.all : List FaultClass :=
  [.unknownIdent, .stackUnderflow, .typeMismatch, .notCallable, .notAssignable, .arity, .divisionByZero, .stackOverflow,
    .badOperand, .aborted]

structure Halt.Wraps (h : Halt) (k : FaultClass) : Prop where
  known : k ∈ FaultClass.all
  toClass : h.toClass = k
  words : k.words <:+: h.message

theorem Fault.words_message (f : Fault) : f.toClass.words <+: f.message := by
  unfold message
  cases f.detail? with
  | none => exact List.prefix_rfl
  | some d => exact (List.prefix_append _ _).trans (List.prefix_append _ _)

theorem Halt.wraps (h : Halt) : h.Wraps h.toClass where
  known := by cases h.toClass <;> decide
  toClass := rfl
  words := by
    cases h with
    | fault block pc i f => exact f.words_message.isInfix.trans (List.suffix_append _ _).isInfix
    | noBlock id => exact ((List.prefix_append _ _).trans (List.prefix_append _ _)).isInfix
    | aborted => exact List.infix_rfl
    | cancelled => exact (List.prefix_append _ _).isInfix

namespace Machine

/-- Why a machine stops, and what it is then: a fault has the place of the instruction that failed, which has only
    taken from its frame, or the end of the block if what failed is to leave the frame. -/
inductive Stops (s : Signal) (m : Machine) : Halt → Machine → Prop
  | aborted : m.aborted = true ∨ s = .abort → Stops s m .aborted m.abort
  | cancelled : s = .cancel → Stops s m .cancelled m
  | noBlock {f : Frame} {rest : List Frame} : m.frames = f :: rest → m.program.block? f.block = none →
      Stops s m (.noBlock f.block) m
  | instruction {f : Frame} {rest : List Frame} {code : Block} {i : Instr} {e : Stuck} : m.frames = f :: rest →
      m.program.block? f.block = some code → code[f.pc]? = some i →
      m.exec { f with pc := f.pc + 1 } rest code.length f.pc i = .error e → Spent { f with pc := f.pc + 1 } e.frame →
      Stops s m (.fault f.block f.pc i e.fault) (m.withFrames (e.frame :: rest))
  | leaving {f : Frame} {rest : List Frame} {code : Block} {e : Fault} : m.frames = f :: rest →
      m.program.block? f.block = some code → code[f.pc]? = none → m.leave f rest = .error e →
      Stops s m (.fault f.block code.length ⟨.ret, 0⟩ e) (m.withFrames rest)

inductive Outcome (c : Signals) (m : Machine) : Except MachineError Unit → Machine → Prop
  | fine {m' : Machine} : m.halted = none → m.awaiting = false → m'.halted = none → Outcome c m (.ok ()) m'
  | halted {h : Halt} : m.halted = some h → Outcome c m (.error (.halted h)) m
  | awaiting : m.halted = none → m.awaiting = true → Outcome c m (.error .awaitingHost) m
  | failed {n : Nat} {m' k : Machine} {h : Halt} : m.halted = none → m.awaiting = false → Passes c m n k →
      Stops (c n) k h m' → (∃ kind, h.Wraps kind) → Outcome c m (.error (.failed h)) (m'.halt h)

section

variable {m m' k : Machine} {c : Signals} {s : Signal}

theorem halted_terminate (m : Machine) : m.terminate.halted = m.halted := by
  unfold terminate
  split <;> rfl

theorem Turns.goes (h : Turns s m (.go m')) : m'.halted = m.halted := by
  cases h with
  | went _ _ _ _ _ he _ => exact (exec_ok he).halted

theorem Turns.pauses (h : Turns s m (.pause m')) : m'.halted = m.halted := by
  cases h with
  | idle => exact halted_terminate m
  | left _ _ _ _ _ hl =>
    obtain ⟨fs, -, rfl⟩ := leave_ok.mp hl
    split
    · exact halted_terminate _
    · rfl
  | asked _ _ _ _ _ he _ => exact (exec_ok he).halted

theorem Turns.stops {h : Halt} (ht : Turns s m (.stop m' h)) : Stops s m h m' := by
  cases ht with
  | aborted ha =>
    have hsame : m.abort = m := by
      unfold abort
      rw [← ha]
    have stops : Stops s m .aborted m.abort := .aborted (.inl ha)
    rwa [hsame] at stops
  | signalled _ hs => exact .aborted (.inr hs)
  | cancelled _ hs => exact .cancelled hs
  | noBlock _ _ hf hb => exact .noBlock hf hb
  | lost _ _ hf hb hi hl => exact .leaving hf hb hi hl
  | failed _ _ hf hb hi he => exact .instruction hf hb hi he (exec_error he)

/-- The ticks of a step come to an outcome of the machine that the step started with. -/
theorem Steps.outcome {t n : Nat} {r : Except MachineError Unit} (h : Steps (c.after t) k n r m') (hh : m.halted = none)
    (hw : m.awaiting = false) (hp : Passes c m t k) (hk : k.halted = none) : Outcome c m r m' := by
  generalize hd : c.after t = d at h
  induction h generalizing t with
  | @go d k k' _ _ _ ht _ ih =>
    subst hd
    exact ih (.go hh hw hp ht) ((turns_of_tick ht).goes.trans hk) (c.later_after t).symm
  | @pause d k _ ht => exact .fine hh hw ((turns_of_tick ht).pauses.trans hk)
  | @stop d k _ h ht =>
    subst hd
    exact .failed hh hw hp (turns_of_tick ht).stops ⟨_, h.wraps⟩

/-- Wherever a step has come to, a signal stops it there. -/
theorem Passes.interrupted {n : Nat} (hp : Passes c m n k) (hm : m.IsReady) (ha : k.aborted = false) :
    (c n = .abort → m.step c = (.error (.failed .aborted), k.abort.halt .aborted)) ∧
      (c n = .cancel → m.step c = (.error (.failed .cancelled), k.halt .cancelled)) := by
  have stop {k' : Machine} {h : Halt} (ht : k.tick (c n) = .stop k' h) : m.step c = (.error (.failed h), k'.halt h) := by
    obtain ⟨d, hs⟩ := hp.steps (.stop ht)
    exact hm.step_eq hs
  constructor
  · intro hc
    refine stop ?_
    rw [hc]
    unfold tick
    rw [ha]
    rfl
  · intro hc
    refine stop ?_
    rw [hc]
    unfold tick
    rw [ha]
    rfl

theorem step_outcome (m : Machine) (c : Signals) : Outcome c m (m.step c).1 (m.step c).2 := by
  obtain ⟨n, h⟩ := step_ends c m
  generalize (m.step c).1 = r, (m.step c).2 = m' at h
  cases h with
  | halted hh => exact .halted hh
  | awaiting hh hw => exact .awaiting hh hw
  | ticked hh hw hs => exact Steps.outcome (c.after_zero.symm ▸ hs) hh hw .start hh

end

/-- Whatever image a machine is made of, and whatever is asked of it, no request crashes it: the machine
    whose operations do not look before they act does the same. The step that is asked for next does
    not crash either; it is fine, is refused and changes nothing, or halts the machine for a fault of a
    known class at the instruction that failed. -/
theorem image_never_crashes {i : Image} {o : Options} {m : Machine} (h : ofImage i o = .ok m) (rs : List Request)
    (c : Signals) :
    let k := (History.after m rs).machine
    Bare.run m rs = .done k ∧ Bare.step k c = .done (k.step c) ∧ Outcome c k (k.step c).1 (k.step c).2 := by
  have hm := ascending_ofImage h
  exact ⟨Bare.run_eq hm rs, Bare.step_eq (History.ascending hm rs) c, step_outcome _ c⟩

/-- A program that no compiler makes: it names identifiers and a constant that do not exist, and completes
    a struct instance without having begun one. -/
def forged : Program where
  consts := [.proto ⟨-5, 2⟩]
  slots := [⟨some [⟨.loadIdent, -7⟩, ⟨.storeField, 99⟩, ⟨.loadConst, -3⟩], some [0]⟩]

def forgedImage : Image := .holding forged 0 [.mk 6 0 .zero [] false [] (-5) 2]

def forgedMachine : Machine := { ofProgram forged {} with units := [⟨imageUnit, 0, []⟩] }.enter imageUnit 0

theorem ofImage_forged : ofImage forgedImage {} = .ok forgedMachine := by
  have hp : forgedImage.toProgram = .ok forged := by
    refine Image.toProgram_holding (fun s hs => ?_) (by decide) rfl
    rw [List.mem_singleton.mp hs]
    exact ⟨List.pairwise_singleton _ _, by decide⟩
  unfold ofImage
  rw [hp]
  rfl

/-- It runs up to the constant and halts there; after a reset, a step asks the host to quit. -/
theorem image_never_crashes_forged :
    let k := (History.after forgedMachine [.step false, .reset]).machine
    ofImage forgedImage {} = .ok forgedMachine ∧
      (forgedMachine.step false).1 = .error (.failed (.fault 0 2 ⟨.loadConst, -3⟩ (.noConst (-3)))) ∧
      Bare.run forgedMachine [.step false, .reset] = .done k ∧ Bare.step k false = .done (k.step false) ∧
      Outcome false k (k.step false).1 (k.step false).2 :=
  ⟨ofImage_forged, rfl, image_never_crashes ofImage_forged [.step false, .reset] false⟩

end Machine

end Scriptlet

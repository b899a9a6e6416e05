/-
  Scriptlet.Proofs.Replies — calls of the host and its replies.

  However a machine is used, as long as it is not reset:
  (1) There is one reply for every call and import in the log, but for the one that is awaited
      (`count_next`).
  (2) While a reply is awaited, nothing moves: other requests add nothing to the log and change
      neither the frames nor what was loaded, bound or made (`next_unmoved`).
  (3) The frame on top of a machine that awaits a reply is the one that executed the call, set behind it
      (`step_asks`, `waits`), so this is the frame that gets the reply.
-/

import Mathlib.Data.List.Induction
import Scriptlet.Proofs.Requests

namespace Scriptlet

open Machine.History

/-- The host does not answer a quit. -/
theorem Action.not_quit {a : Action} (h : a.awaitsReply = true) : a.isQuit = false := by
  cases a with
  | call | importModule => rfl
  | _ => cases h

namespace Machine

def questions (as : List Action) : Nat := as.countP Action.awaitsReply

/-- The frame behind the call that it executes, with the operands that the call leaves. -/
def behind (g : Frame) (os : List Operand) : Frame := { g with pc := g.pc + 1, operands := os }

structure Calls (k : Machine) (g : Frame) (rest : List Frame) (os : List Operand) (a : Action) : Prop where
  frames : k.frames = g :: rest
  instr : ∃ code n, k.program.block? g.block = some code ∧ code[g.pc]? = some ⟨.call, n⟩
  operands : ∃ as callee vs, g.operands = as.reverse ++ callee :: os ∧ Valued as vs ∧ k.asks callee vs = some a

variable {m : Machine} {ns : List Node} {name : Text} {r : Request}

section

variable {m' : Machine} {f : Frame} {rest : List Frame} {stop pc : Nat} {i : Instr}

/-- An instruction adds at most one action that the host has to answer, and then a reply is awaited. -/
theorem Does.questions (h : Does m f rest stop pc i m') (hw : m.awaiting = false) (taken : List Action) :
    Machine.questions (taken ++ m'.queue) = Machine.questions (taken ++ m.queue) + m'.awaiting.toNat := by
  have same {k : Machine} (hq : k.queue = m.queue) (ha : k.awaiting = m.awaiting) :
      Machine.questions (taken ++ k.queue) = Machine.questions (taken ++ m.queue) + k.awaiting.toNat := by
    rw [hq, ha, hw]
    rfl
  have adds {k : Machine} {as : List Action} (hq : k.queue = m.queue ++ as) (ha : k.awaiting = m.awaiting)
      (has : as.countP Action.awaitsReply = 0) :
      Machine.questions (taken ++ k.queue) = Machine.questions (taken ++ m.queue) + k.awaiting.toNat := by
    rw [hq, ha, hw, ← List.append_assoc, Machine.questions, List.countP_append, has]
    rfl
  cases h with
  | construct id =>
    refine adds rfl rfl (List.countP_eq_zero.mpr ?_)
    intro a ha
    rcases List.mem_cons.mp ha with rfl | ha
    · simp [Action.awaitsReply]
    · obtain ⟨fd, -, rfl⟩ := List.mem_map.mp ha
      simp [Action.awaitsReply]
  | loadField id => exact adds rfl rfl rfl
  | ask hf hv ha =>
    change Machine.questions (taken ++ (m.queue ++ [_])) = _ + 1
    rw [← List.append_assoc, Machine.questions, List.countP_append, List.countP_singleton, if_pos (asks_awaitsReply ha)]
    rfl
  | _ => exact same rfl rfl

/-- The only instruction after which a reply is awaited is a call of the host. -/
theorem Does.calls (h : Does m f rest stop pc i m') (hw : m.awaiting = false) (hw' : m'.awaiting = true) :
    ∃ as callee vs os a, i = ⟨.call, (as.length : Nat)⟩ ∧ f.operands = as.reverse ++ callee :: os ∧ Valued as vs ∧
      m.asks callee vs = some a ∧ m' = m.await (setOperands f os) rest a := by
  cases h with
  | ask hf hv ha => exact ⟨_, _, _, _, _, rfl, hf, hv, ha, rfl⟩
  | _ =>
    have hw' : m.awaiting = true := hw'
    rw [hw] at hw'
    cases hw'

end

variable {c : Signals} {m' : Machine}

/-- A step of a machine that awaits a reply executes nothing. -/
theorem Stepped.of_awaiting {n : Nat} {e : Except MachineError Unit} (h : Stepped c m n e m')
    (hw : m.awaiting = true) : n = 0 ∧ m' = m := by
  cases h with
  | halted => exact ⟨rfl, rfl⟩
  | awaiting => exact ⟨rfl, rfl⟩
  | ticked _ hw' =>
    rw [hw] at hw'
    cases hw'

/-! ## (1) Counting -/

theorem kept_questions (taken : List Action) (n : Nat) :
    Kept fun m => questions (taken ++ m.queue) = n + m.awaiting.toNat where
  exec hm hw hf hb hi hd := by
    rw [hd.questions hw, hm, hw]
    rfl
  spend hm _ _ := hm
  drop hm _ := hm
  deliver hm _ _ := hm
  terminate {m} hm := by
    unfold terminate
    split
    · exact hm
    · change questions (taken ++ (m.queue ++ [.quit])) = _
      rw [← List.append_assoc, questions, List.countP_append]
      exact hm
  abort hm := hm
  halt _ hm hw := by
    rw [hw] at hm
    exact hm

namespace History

/-- One reply for every question, but for the one that is awaited. -/
def Counted (h : History) : Prop := questions h.log = h.replies + h.machine.awaiting.toNat

variable {h : History}

theorem counted_becomes (hc : h.Counted) (hm : Becomes h.machine name ns m) :
    questions (h.taken ++ m.queue) = h.replies + m.awaiting.toNat := by
  cases hm with
  | @again u p _ _ _ _ =>
    change questions (h.taken ++ (h.machine.queue ++ u.objects.map Action.destruct)) = _
    rw [← List.append_assoc, questions, List.countP_append, List.countP_map]
    have : u.objects.countP (Action.awaitsReply ∘ Action.destruct) = 0 := List.countP_eq_zero.mpr fun id _ => by
      simp [Action.awaitsReply]
    rw [this]
    exact hc
  | _ => exact hc

theorem count_next (hc : h.Counted) (hr : r ≠ .reset) : (h.next r).Counted := by
  cases r with
  | load name src =>
    change questions (h.taken ++ (h.machine.load name src).2.queue) = h.replies + (h.machine.load name src).2.awaiting.toNat
    rcases load_becomes h.machine name src with hm | ⟨ns, hm⟩
    · rw [hm]
      exact hc
    · exact counted_becomes hc hm
  | loadNodes name ns => exact counted_becomes (h := h) hc (loadNodes_becomes h.machine name ns)
  | step c => exact (kept_questions h.taken h.replies).step hc
  | drain =>
    change questions (h.log ++ []) = h.replies + _
    rw [List.append_nil]
    exact hc
  | resume v =>
    change questions (h.taken ++ (h.machine.resume v).2.queue) =
      h.replies + (h.machine.resume v).1.isOk.toNat + (h.machine.resume v).2.awaiting.toNat
    cases hw : h.machine.awaiting with
    | true =>
      rw [Counted, hw] at hc
      rw [resume_eq hw]
      exact hc
    | false =>
      rw [resume_refused hw]
      exact hc
  | abort => exact hc
  | reset => exact absurd rfl hr

theorem count_run (hc : h.Counted) {rs : List Request} (hrs : .reset ∉ rs) : (h.run rs).Counted := by
  induction rs generalizing h with
  | nil => exact hc
  | cons r rs ih =>
    rw [List.mem_cons, not_or] at hrs
    exact ih (count_next hc fun e => hrs.1 e.symm) hrs.2

/-! ## (2) Waiting -/

structure Unmoved (h k : History) : Prop where
  log : k.log = h.log
  awaiting : k.machine.awaiting = h.machine.awaiting
  frames : k.machine.frames = h.machine.frames
  scopes : k.machine.scopes = h.machine.scopes
  program : k.machine.program = h.machine.program
  units : k.machine.units = h.machine.units
  registry : k.machine.registry = h.machine.registry

theorem Unmoved.refl (h : History) : h.Unmoved h := ⟨rfl, rfl, rfl, rfl, rfl, rfl, rfl⟩

theorem Unmoved.trans {k l : History} (a : h.Unmoved k) (b : k.Unmoved l) : h.Unmoved l :=
  ⟨b.log.trans a.log, b.awaiting.trans a.awaiting, b.frames.trans a.frames, b.scopes.trans a.scopes,
    b.program.trans a.program, b.units.trans a.units, b.registry.trans a.registry⟩

theorem unmoved_becomes (hw : h.machine.awaiting = true) (hm : Becomes h.machine name ns m) : m = h.machine := by
  cases hm with
  | refused => rfl
  | failedAgain _ hw' | failedNew _ hw' | again _ hw' | new _ hw' =>
    rw [hw] at hw'
    cases hw'

theorem next_unmoved (hw : h.machine.awaiting = true) (hr : r.isIdle = true) : h.Unmoved (h.next r) := by
  have same (hm : r.apply h.machine = h.machine) (he : r.empties = false) : h.Unmoved (h.next r) := by
    unfold next
    rw [hm, he]
    exact ⟨rfl, rfl, rfl, rfl, rfl, rfl, rfl⟩
  cases r with
  | load name src =>
    refine same ?_ rfl
    rcases load_becomes h.machine name src with hm | ⟨ns, hm⟩
    · exact hm
    · exact unmoved_becomes hw hm
  | loadNodes name ns => exact same (unmoved_becomes hw (loadNodes_becomes h.machine name ns)) rfl
  | step c =>
    obtain ⟨n, hs⟩ := step_ends c h.machine
    exact same (hs.of_awaiting hw).2 rfl
  | drain => exact ⟨List.append_nil _, rfl, rfl, rfl, rfl, rfl, rfl⟩
  | abort => exact ⟨rfl, rfl, rfl, rfl, rfl, rfl, rfl⟩
  | resume v => cases hr
  | reset => cases hr

theorem run_unmoved (hw : h.machine.awaiting = true) {qs : List Request} (hq : ∀ r ∈ qs, r.isIdle = true) :
    h.Unmoved (h.run qs) := by
  induction qs generalizing h with
  | nil => exact .refl h
  | cons r qs ih =>
    have hr := next_unmoved hw (hq r List.mem_cons_self)
    exact hr.trans (ih (hr.awaiting.trans hw) fun q hq' => hq q (List.mem_cons_of_mem r hq'))

end History

/-! ## (3) The frame that called -/

theorem terminate_awaiting (m : Machine) : m.terminate.awaiting = m.awaiting := by
  unfold terminate
  split <;> rfl

theorem leave_awaiting {f : Frame} {rest : List Frame} (h : m.leave f rest = .ok m') :
    m'.awaiting = m.awaiting := by
  obtain ⟨fs, -, rfl⟩ := leave_ok.mp h
  split
  · exact terminate_awaiting _
  · rfl

/-- Ticks after which a reply is awaited end with a call of the host. -/
theorem ticks_asks {t : Nat} {k : Machine} (hh : m.halted = none) (hw : m.awaiting = false) (hp : Passes c m t k)
    (hk : k.awaiting = false) (n : Nat) (ha : (ticks (c.after t) n k).2.awaiting = true) :
    ∃ t' j g rest os a, Passes c m t' j ∧ Calls j g rest os a ∧
      (ticks (c.after t) n k).2 = j.await (behind g os) rest a := by
  induction n generalizing k t with
  | zero =>
    rw [ticks, hk] at ha
    cases ha
  | succ n ih =>
    unfold ticks at ha ⊢
    rw [c.later_after] at ha ⊢
    cases ht : k.tick (c.after t 0) with
    | go k' =>
      simp only [ht] at ha ⊢
      cases turns_of_tick ht with
      | went _ _ _ _ _ _ hw' => exact ih (.go hh hw hp ht) hw' ha
    | pause k' =>
      simp only [ht] at ha ⊢
      cases turns_of_tick ht with
      | idle =>
        rw [terminate_awaiting, hk] at ha
        cases ha
      | left _ _ _ _ _ hl =>
        rw [leave_awaiting hl, hk] at ha
        cases ha
      | @asked g rest code i _ _ _ hf hb hi he hw' =>
        obtain ⟨as, callee, vs, os, a, rfl, hops, hv, hask, rfl⟩ := (exec_ok he).calls hk hw'
        exact ⟨t, k, g, rest, os, a, hp, ⟨hf, ⟨code, _, hb, hi⟩, as, callee, vs, hops, hv, hask⟩, rfl⟩
    | stop k' h =>
      simp only [ht] at ha
      cases ha

theorem step_asks (hw : m.awaiting = false) (ha : (m.step c).2.awaiting = true) :
    ∃ t k g rest os a, Passes c m t k ∧ Calls k g rest os a ∧ (m.step c).2 = k.await (behind g os) rest a := by
  unfold step at ha ⊢
  cases hh : m.halted with
  | some h =>
    simp only [hh, hw] at ha
    cases ha
  | none =>
    simp only [hh, hw] at ha ⊢
    have h0 := ticks_asks (c := c) hh hw .start hw m.stepBound
    rw [c.after_zero] at h0
    exact h0 ha

/-- After the requests a reply is awaited for a call that the step `c` executed in the frame `g`; later requests have not moved
    the machine. -/
structure Waits (m : Machine) (rs : List Request) (g : Frame) (rest : List Frame) (os : List Operand) (a : Action) : Prop where
  called : ∃ before c later n k, rs = before ++ .step c :: later ∧ (∀ r ∈ later, r.isIdle = true) ∧
    Passes c (History.after m before).machine n k ∧ Calls k g rest os a ∧ (History.after m rs).machine.program = k.program
  frames : (History.after m rs).machine.frames = behind g os :: rest
  last : (History.after m rs).log.getLast? = some a

theorem becomes_awaiting (h : Becomes m name ns m') : m'.awaiting = m.awaiting := by
  cases h <;> rfl

/-- A machine that awaits nothing comes to await a reply in a step only. -/
theorem awaits_in_step (hw : m.awaiting = false) (ha : (r.apply m).awaiting = true) : ∃ c, r = .step c := by
  have still {b : Bool} (hb : b = m.awaiting) (hb' : b = true) : ∃ c, r = .step c := by
    rw [hb, hw] at hb'
    cases hb'
  generalize hk : r.apply m = k at ha
  cases r.changes hk with
  | read hb | loaded hb => exact still (becomes_awaiting hb) ha
  | stepped c => exact ⟨c, rfl⟩
  | resumed hw' => exact still hw'.symm rfl
  | reset => cases ha
  | _ => exact still rfl ha

theorem waits (hm : m.awaiting = false) {rs : List Request} (hrs : .reset ∉ rs)
    (hw : (after m rs).machine.awaiting = true) : ∃ g rest os a, Waits m rs g rest os a := by
  induction rs using List.reverseRecOn with
  | nil =>
    have hw : m.awaiting = true := hw
    rw [hm] at hw
    cases hw
  | append_singleton rs r ih =>
    rw [List.mem_append, not_or] at hrs
    have hnext := after_snoc m rs r
    rw [hnext] at hw
    cases ha : (after m rs).machine.awaiting with
    | false =>
      obtain ⟨c, rfl⟩ := awaits_in_step ha hw
      obtain ⟨n, k, g, rest, os, a, hp, hcalls, hstep⟩ := step_asks ha hw
      have hmachine : ((after m rs).next (.step c)).machine = k.await (behind g os) rest a := hstep
      refine ⟨g, rest, os, a, ⟨rs, c, [], n, k, rfl, by simp, hp, hcalls, ?_⟩, ?_, ?_⟩
      · rw [hnext, hmachine]
        rfl
      · rw [hnext, hmachine]
        rfl
      · rw [hnext, log, hmachine]
        exact List.getLast?_append_of_ne_nil _ (List.append_ne_nil_of_right_ne_nil _ (List.cons_ne_nil a [])) |>.trans
          (List.getLast?_concat ..)
    | true =>
      obtain ⟨g, rest, os, a, ⟨before, c, later, n, k, rfl, hlater, hp, hcalls, hprogram⟩, hframes, hlast⟩ := ih hrs.1 ha
      have hidle : r.isIdle = true := by
        cases r with
        | resume v =>
          change ((after m _).machine.resume v).2.awaiting = true at hw
          rw [resume_eq ha] at hw
          cases hw
        | reset => exact absurd (List.mem_singleton_self _) hrs.2
        | _ => rfl
      have hun := next_unmoved ha hidle
      refine ⟨g, rest, os, a, ⟨before, c, later ++ [r], n, k, ?_, ?_, hp, hcalls, ?_⟩, ?_, ?_⟩
      · rw [List.append_assoc, List.cons_append]
      · intro q hq
        rcases List.mem_append.mp hq with hq | hq
        · exact hlater q hq
        · rw [List.mem_singleton.mp hq]
          exact hidle
      · rw [hnext, hun.program, hprogram]
      · rw [hnext, hun.frames, hframes]
      · rw [hnext, hun.log, hlast]

/-- However a machine is used without a reset, there is one accepted reply for each call and import, but for the one
    that is awaited. While it is, other requests, whatever they are, change nothing and execute no instruction, and a
    reply changes the machine only by pushing the value, or none, on the frame that executed the call, which stands
    right behind it. -/
theorem calls_match_replies {m : Machine} (hm : Initial m) (rs : List Request) (hrs : .reset ∉ rs) :
    (questions (History.after m rs).log =
      (History.after m rs).replies + if (History.after m rs).machine.awaiting then 1 else 0) ∧
    ((History.after m rs).machine.awaiting = true →
      (∀ qs : List Request, (∀ r ∈ qs, r.isIdle = true) →
        (History.after m rs).Unmoved (History.after m (rs ++ qs)) ∧
        ∀ c n e m', Stepped c (History.after m (rs ++ qs)).machine n e m' →
          n = 0 ∧ m' = (History.after m (rs ++ qs)).machine) ∧
      ∃ g rest os a, Waits m rs g rest os a ∧ ∀ v, (History.after m rs).machine.resume v =
        (.ok (), { (History.after m rs).machine with
          awaiting := false, frames := (behind g os).pushValue (v.getD .none) :: rest })) := by
  obtain ⟨hqueue, hquiet⟩ := hm.quiet
  refine ⟨?_, fun hw => ⟨fun qs hqs => ?_, ?_⟩⟩
  · have hstart : Counted { machine := m } := by
      rw [Counted, log, hqueue, hquiet]
      rfl
    have hcount : (after m rs).Counted := count_run hstart hrs
    rw [hcount]
    cases (after m rs).machine.awaiting <;> rfl
  · rw [after_append]
    have hun := run_unmoved hw hqs
    exact ⟨hun, fun c n e m' hs => hs.of_awaiting (hun.awaiting.trans hw)⟩
  · obtain ⟨g, rest, os, a, h⟩ := waits hquiet hrs hw
    refine ⟨g, rest, os, a, h, fun v => ?_⟩
    rw [resume_eq hw, h.frames]
    rfl

/-- A function that was called by the code of a unit asks the host; then the machine is refused another unit. -/
def pending : List Request :=
  [.load "main" "f = (x) => 1 + g(x) f(2)", .step false, .drain, .load "other" "g(3)", .abort, .step false]

theorem calls_match_replies_pending :
    questions (History.after (new { fallback := true }) pending).log = 1 ∧
      ∃ g rest os a, Waits (new { fallback := true }) pending g rest os a ∧ a.render = "Call\x7bg(2)\x7d" := by
  have hw : (after (new { fallback := true }) pending).machine.awaiting = true := by decide +kernel
  have hr : (after (new { fallback := true }) pending).replies = 0 := by decide +kernel
  have hl : (after (new { fallback := true }) pending).log.getLast?.map Action.render = some "Call\x7bg(2)\x7d" := by
    decide +kernel
  obtain ⟨hcount, hwait⟩ := calls_match_replies (.new { fallback := true }) pending (by simp [pending])
  obtain ⟨-, g, rest, os, a, h, -⟩ := hwait hw
  rw [hw, hr] at hcount
  rw [h.last] at hl
  exact ⟨hcount, g, rest, os, a, h, Option.some.inj hl⟩

end Machine

end Scriptlet

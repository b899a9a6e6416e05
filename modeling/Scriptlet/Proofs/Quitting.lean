/-
  Scriptlet.Proofs.Quitting — when the host is asked to quit.

  A quit is put into the queue in two places: when the last frame is left, and when a machine without
  frames takes a step. Both are guarded by `quitting`, which is cleared when the queue is emptied.

  (1) However a machine is used, the flag says how many quits there are in its queue
      (`announced_after`).
  (2) A step that succeeds leaves a frame, finds none, or asks the host. If no quit was pending before, the
      queue ends with one exactly if no frame is left (`step_closes`).
  (3) So a host that takes the actions out after every step (`Prompt`) is asked to quit at the end and
      only there. It has to: a quit that is left in the queue stays in front of what code that is loaded
      later puts there.
-/

import Scriptlet.Proofs.Replies

namespace Scriptlet

open Machine.History

namespace Machine

section

variable {m m' : Machine} {c : Signals} {f : Frame} {rest : List Frame}

/-! ## (1) The flag -/

/-- There is one quit in the queue if the flag is set, and none otherwise. -/
def Announced (m : Machine) : Prop := m.queue.countP Action.isQuit = m.quitting.toNat

theorem countP_quit_append {as bs : List Action} (hbs : ∀ a ∈ bs, a.isQuit = false) :
    (as ++ bs).countP Action.isQuit = as.countP Action.isQuit := by
  have hnone : bs.countP Action.isQuit = 0 := List.countP_eq_zero.mpr fun a ha => by simp [hbs a ha]
  rw [List.countP_append, hnone, Nat.add_zero]

/-- No instruction asks the host to quit. -/
theorem Does.quits {stop pc : Nat} {i : Instr} (h : Does m f rest stop pc i m') :
    m'.queue.countP Action.isQuit = m.queue.countP Action.isQuit ∧ m'.quitting = m.quitting := by
  cases h with
  | construct id =>
    refine ⟨countP_quit_append fun a ha => ?_, rfl⟩
    rcases List.mem_cons.mp ha with rfl | ha
    · rfl
    · obtain ⟨fd, -, rfl⟩ := List.mem_map.mp ha
      rfl
  | loadField id => exact ⟨countP_quit_append (List.forall_mem_singleton.mpr rfl), rfl⟩
  | @ask as os vs callee a hf hv ha =>
    have hquit : a.isQuit = false := Action.not_quit (asks_awaitsReply ha)
    exact ⟨countP_quit_append (List.forall_mem_singleton.mpr hquit), rfl⟩
  | _ => exact ⟨rfl, rfl⟩

theorem Announced.terminate (h : Announced m) : Announced m.terminate := by
  unfold Machine.terminate
  split
  · exact h
  · rename_i hq
    have hflag : m.quitting = false := by simpa using hq
    change (m.queue ++ [Action.quit]).countP Action.isQuit = 1
    rw [List.countP_append, h, hflag]
    rfl

theorem kept_announced : Kept Announced where
  exec h _ _ _ _ hd := hd.quits.1.trans (h.trans (congrArg Bool.toNat hd.quits.2.symm))
  spend h _ _ := h
  drop h _ := h
  deliver h _ _ := h
  terminate := Announced.terminate
  abort h := h
  halt _ h _ := h

theorem Becomes.announced {name : Text} {ns : List Node} (hb : Becomes m name ns m') (h : Announced m) : Announced m' := by
  cases hb with
  | again =>
    refine (countP_quit_append fun a ha => ?_).trans h
    obtain ⟨id, -, rfl⟩ := List.mem_map.mp ha
    rfl
  | _ => exact h

theorem Announced.next (h : Announced m) (r : Request) : Announced (r.apply m) := by
  generalize hk : r.apply m = k
  cases r.changes hk with
  | read hb | loaded hb => exact hb.announced h
  | stepped c => exact kept_announced.step h
  | drained | reset => exact rfl
  | _ => exact h

theorem Initial.not_quitting (h : Initial m) : m.quitting = false := by
  cases h with
  | new o => rw [Machine.new, ofProgram_eq]
  | ofImage h =>
    obtain ⟨p, -, rfl⟩ := ofImage_ok h
    rw [ofProgram_eq]
    rfl

/-- The flag is right in every state that a machine can come into. -/
theorem announced_after (h : Initial m) (rs : List Request) : Announced (after m rs).machine := by
  induction rs using List.reverseRecOn with
  | nil =>
    change Announced m
    rw [Announced, h.quiet.1, h.not_quitting]
    rfl
  | append_singleton rs r ih =>
    rw [after_snoc]
    exact ih.next r

/-! ## (2) Steps -/

structure Unannounced (m : Machine) : Prop where
  queue : ∀ a ∈ m.queue, a.isQuit = false
  flag : m.quitting = false

theorem Announced.unannounced (h : Announced m) (hq : m.quitting = false) : Unannounced m := by
  refine ⟨fun a ha => ?_, hq⟩
  have hnone : m.queue.countP Action.isQuit = 0 := by
    rw [h, hq]
    rfl
  exact Bool.not_eq_true _ ▸ List.countP_eq_zero.mp hnone a ha

theorem Unannounced.exec (h : Unannounced m) {stop pc : Nat} {i : Instr} (hd : Does m f rest stop pc i m') :
    Unannounced m' := by
  have hcount : Announced m := (List.countP_eq_zero.mpr fun a ha => by simp [h.queue a ha]).trans (h.flag ▸ rfl)
  have hannounced : Announced m' := hd.quits.1.trans (hcount.trans (congrArg Bool.toNat hd.quits.2.symm))
  exact hannounced.unannounced (hd.quits.2.trans h.flag)

/-- The queue ends with its only quit if no frame is left, and has none otherwise. -/
def Closes (m : Machine) : Prop :=
  ∃ as : List Action, (∀ a ∈ as, a.isQuit = false) ∧ m.queue = if m.frames.isEmpty then as ++ [.quit] else as

theorem Unannounced.closes (h : Unannounced m) (hf : m.frames.isEmpty = false) : Closes m :=
  ⟨m.queue, h.queue, by rw [hf]; rfl⟩

theorem Unannounced.closes_terminate (h : Unannounced m) (hf : m.frames = []) : Closes m.terminate := by
  refine ⟨m.queue, h.queue, ?_⟩
  unfold Machine.terminate
  rw [h.flag]
  change m.queue ++ [.quit] = if m.frames.isEmpty then _ else _
  rw [hf]
  rfl

/-- A machine that leaves a frame asks the host to quit if it was the last one. -/
theorem Unannounced.closes_leave (h : Unannounced m) (hl : m.leave f rest = .ok m') : Closes m' := by
  obtain ⟨fs, -, rfl⟩ := leave_ok.mp hl
  have hfs : Unannounced (m.withFrames fs) := ⟨h.queue, h.flag⟩
  split
  · rename_i he
    exact hfs.closes_terminate (List.isEmpty_iff.mp he)
  · rename_i he
    exact hfs.closes (Bool.not_eq_true _ ▸ he)

/-- The run of ticks of a step. While it goes on there is no quit, so only how it ends matters. -/
theorem Steps.closes {n : Nat} {r : Except MachineError Unit} (h : Steps c m n r m') (hr : r = .ok ())
    (hw : m.awaiting = false) (hm : Unannounced m) : Closes m' ∧ (m'.awaiting = true → m'.frames ≠ []) := by
  induction h with
  | @go c m k m' n r ht _ ih =>
    cases turns_of_tick ht with
    | went _ _ _ _ _ he hw' => exact ih hr hw' (hm.exec (exec_ok he))
  | @pause c m k ht =>
    cases turns_of_tick ht with
    | idle _ _ hf =>
      refine ⟨hm.closes_terminate hf, fun hw' => ?_⟩
      rw [terminate_awaiting, hw] at hw'
      cases hw'
    | left _ _ _ _ _ hl =>
      refine ⟨hm.closes_leave hl, fun hw' => ?_⟩
      rw [leave_awaiting hl, hw] at hw'
      cases hw'
    | asked _ _ _ _ _ he hw' =>
      have hd := exec_ok he
      obtain ⟨as, callee, vs, os, a, -, -, -, -, rfl⟩ := hd.calls hw hw'
      exact ⟨(hm.exec hd).closes rfl, fun _ => List.cons_ne_nil _ _⟩
  | stop => cases hr

theorem step_closes {u : Unit} (hs : m.step c = (.ok u, m')) (hm : Unannounced m) :
    Closes m' ∧ (m'.awaiting = true → m'.frames ≠ []) := by
  obtain ⟨n, hn⟩ := step_ends c m
  rw [hs] at hn
  cases hn with
  | ticked _ hw h => exact h.closes rfl hw hm

theorem Closes.quit_mem_iff (h : Closes m) : .quit ∈ m.queue ↔ m.frames = [] := by
  obtain ⟨as, has, hq⟩ := h
  rw [hq, ← List.isEmpty_iff]
  split
  · rename_i he
    exact iff_of_true (List.mem_append_right as List.mem_cons_self) he
  · rename_i he
    refine iff_of_false (fun hmem => ?_) he
    cases has _ hmem

theorem Closes.quit_last (h : Closes m) {as bs : List Action} (hq : m.queue = as ++ .quit :: bs) : bs = [] := by
  obtain ⟨cs, hcs, hqueue⟩ := h
  rw [hq] at hqueue
  split at hqueue
  · -- a quit before the last place would stand among the other actions
    rcases List.eq_nil_or_concat' bs with rfl | ⟨ds, d, rfl⟩
    · rfl
    · rw [← List.cons_append, ← List.append_assoc] at hqueue
      have hinit : as ++ .quit :: ds = cs := List.append_inj_left' hqueue rfl
      cases hcs .quit (hinit ▸ List.mem_append_right as List.mem_cons_self)
  · cases hcs .quit (hqueue ▸ List.mem_append_right as List.mem_cons_self)

end

/-! ## (3) Hosts that drain the queue -/

inductive Prompt : List Request → Prop
  | nil : Prompt []
  | step (c : Signals) {rs : List Request} : Prompt rs → Prompt (.step c :: .drain :: rs)
  | other {r : Request} {rs : List Request} : (∀ c, r ≠ .step c) → Prompt rs → Prompt (r :: rs)

section

variable {m m' : Machine}

theorem Becomes.quitting {name : Text} {ns : List Node} (hb : Becomes m name ns m') : m'.quitting = m.quitting := by
  cases hb <;> rfl

/-- Only a step sets the flag. -/
theorem not_quitting_apply {r : Request} (hr : ∀ c, r ≠ .step c) (hq : m.quitting = false) : (r.apply m).quitting = false := by
  generalize hk : r.apply m = k
  cases r.changes hk with
  | read hb | loaded hb => exact hb.quitting.trans hq
  | stepped c => exact absurd rfl (hr c)
  | drained | reset => rfl
  | _ => exact hq

/-- No quit is pending whenever such a host takes a step. -/
theorem Prompt.not_quitting {rs : List Request} (h : Prompt rs) {k : History} (hk : k.machine.quitting = false) :
    (k.run rs).machine.quitting = false := by
  induction h generalizing k with
  | nil => exact hk
  | step c _ ih => exact ih (k := (k.next (.step c)).next .drain) rfl
  | @other r rs hr _ ih => exact ih (k := k.next r) (not_quitting_apply hr hk)

end

/-- However a machine is used, there is one quit in its queue if the flag is set, and none otherwise. If the host takes
    the actions out directly after each step, what it takes out after a step that succeeds has a quit in it if and
    only if no frame is left. The quit is then the last action, and there is none if a reply is awaited. -/
theorem quit_comes_last {start : Machine} (hstart : Initial start) :
    (∀ rs, (History.after start rs).machine.queue.countP Action.isQuit =
      if (History.after start rs).machine.quitting then 1 else 0) ∧
    ∀ rs c m, Prompt rs → (History.after start rs).machine.step c = (.ok (), m) →
      (.quit ∈ m.drain.1 ↔ m.frames = []) ∧
      (∀ as bs, m.drain.1 = as ++ .quit :: bs → bs = []) ∧
      (m.awaiting = true → .quit ∉ m.drain.1) := by
  refine ⟨fun rs => ?_, fun rs c m hrs hs => ?_⟩
  · rw [announced_after hstart rs]
    cases (after start rs).machine.quitting <;> rfl
  · have hquiet : Unannounced (after start rs).machine :=
      (announced_after hstart rs).unannounced (hrs.not_quitting hstart.not_quitting)
    obtain ⟨hcloses, hframes⟩ := step_closes hs hquiet
    refine ⟨hcloses.quit_mem_iff, fun as bs => hcloses.quit_last, fun hw hmem => ?_⟩
    exact hframes hw (hcloses.quit_mem_iff.mp hmem)

/-- A unit makes an object and asks the host. When it is done it is loaded again, so the object goes. -/
def relay : List Request :=
  [.load "main" "a = Ball \x7b x: 1 \x7d hit(2)", .step false, .drain, .resume none, .step false, .drain,
    .load "main" "a = 2"]

theorem quit_comes_last_relay :
    Initial (new { fallback := true }) ∧ Prompt relay ∧
      ∃ m, (after (new { fallback := true }) relay).machine.step false = (.ok (), m) ∧
        m.drain.1.map Action.render = ["Destruct\x7b1\x7d", "Quit"] ∧ ∃ as, m.drain.1 = as ++ [.quit] := by
  have hrelay : Prompt relay := by
    refine .other (by simp) (.step false (.other (by simp) (.step false (.other (by simp) .nil))))
  have run : ((after (new { fallback := true }) relay).machine.step false).1.isOk = true ∧
      ((after (new { fallback := true }) relay).machine.step false).2.frames.isEmpty = true ∧
      ((after (new { fallback := true }) relay).machine.step false).2.drain.1.map Action.render =
        ["Destruct\x7b1\x7d", "Quit"] := by decide +kernel
  obtain ⟨-, hquit⟩ := quit_comes_last (.new { fallback := true })
  have hbatch := hquit relay false
  generalize (after (new { fallback := true }) relay).machine.step false = x at run hbatch ⊢
  obtain ⟨_ | ⟨⟩, m⟩ := x
  · cases run.1
  · obtain ⟨hmem, hlast, -⟩ := hbatch m hrelay rfl
    obtain ⟨as, bs, hsplit⟩ := List.append_of_mem (hmem.mpr (List.isEmpty_iff.mp run.2.1))
    cases hlast as bs hsplit
    exact ⟨.new _, hrelay, m, rfl, run.2.2, as, hsplit⟩

/-- Without draining, the quit of the first unit stands before the call of the second, which still runs. -/
example : ((after (new { fallback := true })
    [.load "main" "1", .step false, .load "other" "hit(2)", .step false]).machine.queue.map Action.render) =
      ["Quit", "Call\x7bhit(2)\x7d"] := by decide +kernel

end Machine

end Scriptlet

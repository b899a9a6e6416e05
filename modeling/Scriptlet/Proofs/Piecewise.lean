/-
  Scriptlet.Proofs.Piecewise — loading a program in two pieces.

  Two programs are loaded into a machine one after the other, each as a unit of its own, or both at once as a
  single unit. The host records the actions and answers from a list (`Handler.serving`).

  The first program is a graft at the start of the whole code, and the second one a graft behind it. Machines that
  run a graft and the whole code side by side come to the end of the graft together, or fail together
  (`Runs.ends`). Where the first program has ended, the machine that runs the whole code is where the second one
  starts, but for the operands that the first one has left (`goes_on`). So both ways come to the same (`run_pieces`).
-/

import Scriptlet.Proofs.Grafting
import Scriptlet.Proofs.Reloading

namespace Scriptlet

open Machine

/-- Records all actions, and gives the answers of a list, one after the other. -/
def Handler.serving (answers : Nat → Value) : Handler (List Action) :=
  .answering fun seen => answers (seen.countP (·.awaitsReply) - 1)

namespace Action

variable {ρ : Renaming}

@[simp] theorem awaitsReply_rename (a : Action) : (a.rename ρ).awaitsReply = a.awaitsReply := by
  cases a <;> rfl

@[simp] theorem isQuiet_rename (a : Action) : (a.rename ρ).isQuiet = a.isQuiet := by
  cases a <;> rfl

theorem countP_rename (as : List Action) : (as.map (Action.rename ρ)).countP (·.awaitsReply) = as.countP (·.awaitsReply) := by
  rw [List.countP_map]
  exact List.countP_congr fun a _ => by simp

theorem quiet_rename {as : List Action} (h : ∀ a ∈ as, a.isQuiet = true) : ∀ a ∈ as.map (Action.rename ρ), a.isQuiet = true := by
  intro a ha
  obtain ⟨b, hb, rfl⟩ := List.mem_map.mp ha
  rw [isQuiet_rename]
  exact h b hb

/-- The second log is the first one under new numbers, with `skip'` at the start in place of `skip`. -/
def SameLog (ρ : Renaming) (skip skip' : List Action) (as bs : List Action) : Prop :=
  ∃ rest, as = skip ++ rest ∧ bs = (skip' ++ rest).map (Action.rename ρ)

variable {skip skip' as bs : List Action}

theorem SameLog.append (h : SameLog ρ skip skip' as bs) (more : List Action) :
    SameLog ρ skip skip' (as ++ more) (bs ++ more.map (Action.rename ρ)) := by
  obtain ⟨rest, rfl, rfl⟩ := h
  exact ⟨rest ++ more, by simp, by simp⟩

theorem SameLog.countP (h : SameLog ρ skip skip' as bs) (hs : skip.countP (·.awaitsReply) = skip'.countP (·.awaitsReply)) :
    bs.countP (·.awaitsReply) = as.countP (·.awaitsReply) := by
  obtain ⟨rest, rfl, rfl⟩ := h
  rw [countP_rename, List.countP_append, List.countP_append, hs]

end Action

variable {f : Frame} {m : Machine} {answers : Nat → Value}

namespace Machine

/-! ## Machines that can be driven on -/

structure Calm (m : Machine) : Prop where
  halted : m.halted = none
  aborted : m.aborted = false
  quitting : m.quitting = false
  quiet : ∀ a ∈ m.queue, a.isQuiet = true

structure Asks (m : Machine) : Prop where
  halted : m.halted = none
  aborted : m.aborted = false
  quitting : m.quitting = false
  queue : ∃ q a, m.queue = q ++ [a] ∧ (∀ b ∈ q, b.isQuiet = true) ∧ a.awaitsReply = true

section

variable {m' : Machine} {rest : List Frame} {stop pc : Nat} {i : Instr}

theorem quiet_append {as bs : List Action} (ha : ∀ a ∈ as, a.isQuiet = true) (hb : ∀ b ∈ bs, b.isQuiet = true) :
    ∀ a ∈ as ++ bs, a.isQuiet = true := by
  intro a h
  rcases List.mem_append.mp h with h | h
  · exact ha a h
  · exact hb a h

/-- An instruction hands nothing over that needs an answer, unless it is a call that awaits one. -/
theorem Does.calm (h : Does m f rest stop pc i m') (hm : m.Calm) (hw : m.awaiting = false) :
    m'.awaiting = false ∧ m'.Calm ∨ m'.awaiting = true ∧ m'.Asks := by
  cases h with
  | ask hf hv ha =>
    exact .inr ⟨rfl, hm.halted, hm.aborted, hm.quitting, m.queue, _, rfl, hm.quiet, asks_awaitsReply ha⟩
  | construct id hc hadm =>
    refine .inl ⟨hw, hm.halted, hm.aborted, hm.quitting, quiet_append hm.quiet ?_⟩
    simp [Action.isQuiet, Action.isQuit, Action.awaitsReply]
  | loadField id hf =>
    refine .inl ⟨hw, hm.halted, hm.aborted, hm.quitting, quiet_append hm.quiet ?_⟩
    simp [Action.isQuiet, Action.isQuit, Action.awaitsReply]
  | _ => exact .inl ⟨hw, hm.halted, hm.aborted, hm.quitting, hm.quiet⟩

theorem Calm.go (hm : m.Calm) (hw : m.awaiting = false) (ht : m.tick .quiet = .go m') : m'.Calm ∧ m'.awaiting = false := by
  cases turns_of_tick ht with
  | went _ _ _ _ _ he hw' =>
    rcases (exec_ok he).calm hm hw with ⟨-, h⟩ | ⟨h, -⟩
    · exact ⟨h, hw'⟩
    · rw [hw'] at h
      cases h

theorem Calm.pause (hm : m.Calm) (hw : m.awaiting = false) (ht : m.tick .quiet = .pause m') (hf : m'.frames ≠ []) :
    m'.awaiting = false ∧ m'.Calm ∨ m'.awaiting = true ∧ m'.Asks := by
  cases turns_of_tick ht with
  | asked _ _ _ _ _ he _ => exact (exec_ok he).calm hm hw
  | left _ _ _ _ _ hl =>
    obtain ⟨fs, -, rfl⟩ := leave_ok.mp hl
    cases fs with
    | nil => exact absurd (terminate_frames _) hf
    | cons g fs => exact .inl ⟨hw, hm.halted, hm.aborted, hm.quitting, hm.quiet⟩
  | idle _ _ hnil => exact absurd ((terminate_frames m).trans hnil) hf

end

end Machine

/-! ## Runs -/

namespace Graft

variable {G : Graft}

structure Runs (G : Graft) (skip skip' pend : List Action) (a c : Machine) (seen seen' : List Action) : Prop where
  grafted : G.Grafted pend 0 a c
  calm : a.Calm
  ready : a.awaiting = false
  quiet : ∀ x ∈ pend, x.isQuiet = true
  log : Action.SameLog G.ρ skip skip' seen (seen' ++ pend)

section

variable {skip skip' pend seen seen' : List Action} {a a' c c' : Machine}

theorem Grafted.queue {owed : Nat} (h : G.Grafted pend owed a c) : c.queue = pend ++ a.queue.map (Action.rename G.ρ) := by
  obtain ⟨us, rfl⟩ := h.seated
  rfl

theorem Runs.isReady (h : G.Runs skip skip' pend a c seen seen') : a.IsReady ∧ c.IsReady := by
  obtain ⟨us, hc⟩ := h.grafted.seated
  refine ⟨⟨h.calm.halted, h.ready⟩, ?_, ?_⟩
  · rw [hc]
    change a.halted.map _ = none
    rw [h.calm.halted]
    rfl
  · rw [hc]
    exact h.ready

/-- A frame is left, and both machines hand over what they have to say. -/
theorem Grafted.drain (h : G.Grafted pend 0 a c) : G.Grafted [] 0 a.drain.2 c.drain.2 := by
  obtain ⟨us, hc⟩ := h.seated
  refine ⟨⟨⟨us, ?_⟩, h.founded⟩, h.program, h.supported.drain, h.supported'.drain⟩
  rw [hc]
  rfl

/-- Both machines get the same answer. -/
theorem Grafted.answer (h : G.Grafted pend 1 a c) (hw : a.awaiting = true) {v : Value} (hv : v.isPlain = true) :
    G.Grafted [] 0 { a.drain.2 with awaiting := false, frames := deliver v a.frames }
      { c.drain.2 with awaiting := false, frames := deliver v c.frames } := by
  obtain ⟨us, hc⟩ := h.seated
  have hw' : c.awaiting = true := by
    rw [hc]
    exact hw
  have hanswer {m : Machine} (hm : m.awaiting = true) :
      (m.drain.2.resume (some v)).2 = { m.drain.2 with awaiting := false, frames := deliver v m.frames } := by
    rw [resume_eq (m := m.drain.2) hm]
    rfl
  have hdeliver : (deliver v a.frames).map (Frame.rename G.ρ) =
      deliver v (a.frames.map (Frame.rename G.ρ)) := by
    cases a.frames with
    | nil => rfl
    | cons f fs =>
      change _ :: _ = _ :: _
      rw [pushValue_rename, Value.rename_plain hv]
  refine ⟨⟨⟨us, ?_⟩, h.founded.deliver v⟩, h.program, ?_, ?_⟩
  · have hstack := stack_deliver (G := G) v (a.frames.map (Frame.rename G.ρ))
    rw [← hdeliver] at hstack
    rw [hc]
    change _ = under [] (G.stack ((deliver v a.frames).map (Frame.rename G.ρ))) us _
    rw [hstack]
    rfl
  · rw [← hanswer hw]
    exact h.supported.drain.resume hv
  · rw [← hanswer hw']
    exact h.supported'.drain.resume hv

inductive Ends (G : Graft) (answers : Nat → Value) (skip skip' : List Action) (a c : Machine) (seen seen' : List Action) : Prop
  | reached {a' c' : Machine} {pend t t' : List Action} {f : Frame} :
      a.run (.serving answers) false seen = a'.run (.serving answers) false t →
      c.run (.serving answers) false seen' = c'.run (.serving answers) false t' →
      G.Runs skip skip' pend a' c' t t' → a'.frames = [f] → (G.part.code.getD [])[f.pc]? = none →
      Ends G answers skip skip' a c seen seen'
  | failed {a' : Machine} {e : Halt} {pend t t' : List Action} (fs : List Frame) (us : List CodeUnit) :
      a.run (.serving answers) false seen = (some (.machine (.failed e)), a'.halt e, t) →
      c.run (.serving answers) false seen' =
        (some (.machine (.failed (G.halt e))), ((a'.rename G.ρ G.q).under pend fs us).halt (G.halt e), t') →
      a'.program = G.p → Action.SameLog G.ρ skip skip' t (t' ++ pend) → Ends G answers skip skip' a c seen seen'

theorem Ends.of_eq {seen₁ seen₁' : List Action} (h : G.Ends answers skip skip' a' c' seen₁ seen₁')
    (ha : a.run (.serving answers) false seen = a'.run (.serving answers) false seen₁)
    (hc : c.run (.serving answers) false seen' = c'.run (.serving answers) false seen₁') :
    G.Ends answers skip skip' a c seen seen' := by
  cases h with
  | reached h h' hr hf hi => exact .reached (ha.trans h) (hc.trans h') hr hf hi
  | failed fs us h h' hp hl => exact .failed fs us (ha.trans h) (hc.trans h') hp hl

/-- The logs stay the same when the queues are handed over. -/
theorem Runs.log_queue {owed : Nat} (h : G.Runs skip skip' pend a c seen seen') (hg : G.Grafted pend owed a' c') :
    Action.SameLog G.ρ skip skip' (seen ++ a'.queue) (seen' ++ c'.queue ++ []) := by
  rw [List.append_nil, hg.queue, ← List.append_assoc]
  exact h.log.append a'.queue

theorem Runs.ends (h : G.Runs skip skip' pend a c seen seen') (hanswers : ∀ n, (answers n).isPlain = true)
    (hskip : skip.countP (·.awaitsReply) = skip'.countP (·.awaitsReply)) : G.Ends answers skip skip' a c seen seen' := by
  induction hwork : a.work using Nat.strong_induction_on generalizing a c pend seen seen' with
  | _ n ih =>
    subst hwork
    obtain ⟨hready, hready'⟩ := h.isReady
    have hframes := h.grafted.founded.ne_nil
    rcases h.grafted.tick h.calm.aborted h.ready with ⟨f, hf, hi⟩ | hfollows
    · exact .reached rfl rfl h hf hi
    generalize ht : a.tick .quiet = t, ht' : c.tick .quiet = t' at hfollows
    cases hfollows with
    | @go a' c' hw hg =>
      have hcalm := h.calm.go h.ready ht
      have hnext : G.Runs skip skip' pend a' c' seen seen' := ⟨hg, hcalm.1, hw, h.quiet, h.log⟩
      have hready₁ := hnext.isReady
      refine (ih _ (tick_go_work ht).2 hnext rfl).of_eq (run_go hready ht hready₁.1 seen)
        (run_go hready' ht' hready₁.2 seen')
    | @left a' c' hw hg =>
      rcases h.calm.pause h.ready ht hg.founded.ne_nil with ⟨-, hcalm⟩ | ⟨hw', -⟩
      · have hquiet : ∀ x ∈ c'.queue, x.isQuiet = true := by
          rw [hg.queue]
          exact quiet_append h.quiet (Action.quiet_rename hcalm.quiet)
        have hnext : G.Runs skip skip' [] a'.drain.2 c'.drain.2 (seen ++ a'.queue) (seen' ++ c'.queue) :=
          ⟨hg.drain, ⟨hcalm.halted, hcalm.aborted, rfl, by simp [drain]⟩, hw, by simp, h.log_queue hg⟩
        exact (ih _ (tick_pause_work ht hframes) hnext rfl).of_eq (run_left hready ht hcalm.quiet)
          (run_left hready' ht' hquiet)
      · rw [hw] at hw'
        cases hw'
    | @ask a' c' hw hg =>
      rcases h.calm.pause h.ready ht hg.founded.ne_nil with ⟨hw', -⟩ | ⟨-, hasks⟩
      · rw [hw] at hw'
        cases hw'
      · obtain ⟨q, x, hq, hquiet, hx⟩ := hasks.queue
        have hw' : c'.awaiting = true := by
          obtain ⟨us, rfl⟩ := hg.seated
          exact hw
        have hq' : c'.queue = (pend ++ q.map (Action.rename G.ρ)) ++ [x.rename G.ρ] := by
          rw [hg.queue, hq, List.map_append, List.append_assoc]
          rfl
        have hquiet' := quiet_append h.quiet (Action.quiet_rename (ρ := G.ρ) hquiet)
        have hx' : (x.rename G.ρ).awaitsReply = true := by rw [Action.awaitsReply_rename, hx]
        have hlog := h.log_queue hg
        have hsame : ((seen' ++ c'.queue).map (Action.rename .anyBlock)).countP (·.awaitsReply) =
            ((seen ++ a'.queue).map (Action.rename .anyBlock)).countP (·.awaitsReply) := by
          rw [Action.countP_rename, Action.countP_rename, ← hlog.countP hskip, List.append_nil]
        have hrun : a.run (.serving answers) false seen = _ := run_ask hready ht hw hq hquiet hx
        have hrun' : c.run (.serving answers) false seen' = _ := run_ask hready' ht' hw' hq' hquiet' hx'
        simp only [hsame] at hrun'
        refine (ih _ ?_ ⟨hg.answer hw (hanswers _), ⟨hasks.halted, hasks.aborted, rfl, by simp [drain]⟩, rfl,
          by simp, hlog⟩ rfl).of_eq hrun hrun'
        refine Nat.lt_of_le_of_lt (Nat.le_of_eq ?_) (tick_pause_work ht hframes)
        exact workOf_deliver ..
    | @stop a' fs us e e' he =>
      subst he
      refine .failed fs us (run_stop hready ht seen) (run_stop hready' ht' seen') ?_ h.log
      exact ((congrArg (fun t => t.machine.program) ht).symm.trans (tick_program .quiet a)).trans h.grafted.program

end

end Graft

namespace Machine

section

variable {σ : Type} {h : Handler σ}

theorem dispatch_program (as : List Action) (m : Machine) (s : σ) : (dispatch h as m s).2.1.program = m.program := by
  induction as generalizing m s with
  | nil => rfl
  | cons a as ih =>
    simp only [dispatch]
    generalize hn : (if (h.handle s a).1.abort = true then m.abort else m) = n
    have hkeep : n.program = m.program := by
      rw [← hn]
      split <;> rfl
    split
    · exact hkeep
    · rename_i v _
      split
      · exact hkeep
      · split
        · have hresume : (n.resume v).2.program = n.program := move_program (.resume v)
          split
          · rename_i hr
            rw [hr] at hresume
            exact hresume.trans hkeep
          · rename_i hr
            rw [hr] at hresume
            exact (ih _ _).trans (hresume.trans hkeep)
        · exact (ih _ _).trans hkeep

/-- Running a machine adds no code. -/
theorem run_program (c : Schedule) (m : Machine) (s : σ) : (m.run h c s).2.1.program = m.program := by
  have hstep {c : Schedule} {m : Machine} {r : Except MachineError Unit × Machine} (hs : m.step (c 0) = r) :
      r.2.program = m.program := by
    rw [← hs]
    exact move_program (.step (c 0))
  have hround {c : Schedule} {m m' : Machine} {s : σ} {x : Except MachineError Unit} {r : Round × Machine × σ}
      (hs : m.step (c 0) = (x, m')) (hd : dispatch h m'.drain.1 m'.drain.2 s = r) : r.2.1.program = m.program := by
    rw [← hd]
    exact (dispatch_program _ _ s).trans (hstep hs)
  fun_induction run h c m s with
  | case1 c m s e m' hs => exact hstep hs
  | case2 c m s _ m' hs n t hd => exact hround hs hd
  | case3 c m s _ m' hs e n t hd => exact hround hs hd
  | case4 c m s _ m' hs n t hd _ ih => exact ih.trans (hround hs hd)

end

structure IsIdle (m : Machine) : Prop where
  frames : m.frames = []
  quitting : m.quitting = false
  quiet : ∀ a ∈ m.queue, a.isQuiet = true

/-- The machine with a new unit, whose code is in the block `b` of `p` and runs next. -/
def install (m : Machine) (name : Text) (p : Program) (b : Nat) : Machine :=
  { m with program := p, units := m.units ++ [CodeUnit.mk name b []] }.enter name b

theorem loadNodes_new {m' : Machine} {name : Text} {ns : List Node} (hu : m.unit? name = none) :
    m.loadNodes name ns = (.ok (), m') ↔ m.halted = none ∧ m.awaiting = false ∧
      ∃ id p, m.program.compile ns = (.ok id, p) ∧ m' = m.install name p id := by
  unfold loadNodes install
  cases m.halted with
  | some h => simp
  | none =>
    cases m.awaiting with
    | true => simp
    | false =>
      rw [hu]
      rcases m.program.compile ns with ⟨_ | id, p⟩
      · simp
      · simp [eq_comm]

def finished (m : Machine) : Machine := { m with frames := [], queue := [], quitting := false }

/-- The last frame is left, and the run is over. -/
theorem run_end {code : Block} {seen : List Action} (hm : m.Calm)
    (hw : m.awaiting = false) (hf : m.frames = [f]) (hr : f.returns = false) (hb : m.program.block? f.block = some code)
    (hi : code[f.pc]? = none) :
    m.run (.serving answers) false seen =
      (none, m.finished, seen ++ (m.queue ++ [.quit])) := by
  have hleave : m.leave f [] = .ok (m.withFrames []).terminate := by
    unfold leave
    rw [hr]
    rfl
  have hterm : (m.withFrames []).terminate = { m with frames := [], queue := m.queue ++ [.quit], quitting := true } := by
    unfold terminate
    rw [show (m.withFrames []).quitting = false from hm.quitting]
    rfl
  have ht : m.tick .quiet = .pause { m with frames := [], queue := m.queue ++ [.quit], quitting := true } := by
    rw [tick_end hm.aborted hf hb hi, hleave, hterm]
  exact run_quit ⟨hm.halted, hw⟩ ht rfl hm.quiet

end Machine

/-! ## Results -/

/-- The error of a run, under new numbers of blocks, where block `b` is a part of `b'` that starts at `n`. -/
def RunError.moved (ρ : Renaming) (b b' : Int) (n : Nat) : RunError → RunError
  | .machine (.failed e) => .machine (.failed (e.moved ρ b b' n))
  | e => e

namespace Graft

variable {G : Graft} {skip skip' pend seen seen' : List Action} {a c : Machine}

/-- Two runs come to the same end and leave the same behind. What a machine had still to hand over counts as
    handed over. -/
structure Results (G : Graft) (skip skip' : List Action) (r r' : Option RunError × Machine × List Action) : Prop where
  error : r'.1 = r.1.map (RunError.moved G.ρ G.piece G.whole G.shift)
  log : Action.SameLog G.ρ skip skip' (r.2.2 ++ r.2.1.queue) (r'.2.2 ++ r'.2.1.queue)
  program : r.2.1.program = G.p
  program' : r'.2.1.program = G.q
  scopes : r'.2.1.scopes = r.2.1.scopes.rename G.ρ
  registry : r'.2.1.registry = r.2.1.registry.rename G.ρ

section

variable (h : G.Runs skip skip' pend a c seen seen')

include h

theorem Runs.calm' : c.Calm := by
  obtain ⟨us, hc⟩ := h.grafted.seated
  have hquiet : ∀ x ∈ c.queue, x.isQuiet = true := by
    rw [h.grafted.queue]
    exact quiet_append h.quiet (Action.quiet_rename h.calm.quiet)
  refine ⟨h.isReady.2.1, ?_, ?_, hquiet⟩
  · rw [hc]
    exact h.calm.aborted
  · rw [hc]
    exact h.calm.quitting

/-- The frame that is left alone is the one of the piece. -/
theorem Runs.rests (hf : a.frames = [f]) : G.Rests 0 f := by
  have hfounded := h.grafted.founded
  rw [hf] at hfounded
  cases hfounded with
  | bottom hrests => exact hrests

theorem Runs.block {f : Frame} (hf : a.frames = [f]) : a.program.block? f.block = some (G.part.code.getD []) := by
  rw [h.grafted.program, (h.rests hf).block]
  exact Program.block?_of_slot G.at_piece

/-- Where the piece is the last of the whole code, both machines quit at its end. -/
theorem Runs.results (hlast : G.returns = true) (hf : a.frames = [f])
    (hi : (G.part.code.getD [])[f.pc]? = none) :
    G.Results skip skip' (a.run (.serving answers) false seen) (c.run (.serving answers) false seen') := by
  obtain ⟨us, hc⟩ := h.grafted.seated
  have hrests := h.rests hf
  have hframes : c.frames = [(f.rename G.ρ).seated G.seat] := by
    rw [hc]
    change G.stack (a.frames.map (Frame.rename G.ρ)) = _
    rw [hf]
    rfl
  have hblock' : c.program.block? ((f.rename G.ρ).seated G.seat).block = some (G.all.code.getD []) := by
    rw [hc]
    exact Program.block?_of_slot G.at_whole
  have hi' : (G.all.code.getD [])[((f.rename G.ρ).seated G.seat).pc]? = none := by
    have hle := List.getElem?_eq_none_iff.mp hi
    have hlen := G.stop hlast
    rw [length_marked, length_marked] at hlen
    refine List.getElem?_eq_none_iff.mpr ?_
    change _ ≤ f.pc + G.shift
    omega
  rw [run_end h.calm h.ready hf hrests.returns (h.block hf) hi,
    run_end h.calm' h.isReady.2.2 hframes hrests.returns hblock' hi']
  have hlog := h.log_queue h.grafted
  refine ⟨rfl, ?_, h.grafted.program, ?_, ?_, ?_⟩
  · have hquit := hlog.append [.quit]
    simpa [Machine.finished, Action.rename] using hquit
  all_goals
    rw [hc]
    rfl

end

theorem Ends.results (h : G.Ends answers skip skip' a c seen seen') (hlast : G.returns = true) :
    G.Results skip skip' (a.run (.serving answers) false seen) (c.run (.serving answers) false seen') := by
  cases h with
  | reached ha hc hr hf hi =>
    rw [ha, hc]
    exact hr.results hlast hf hi
  | @failed a' e pend t t' fs us ha hc hp hlog =>
    rw [ha, hc]
    refine ⟨rfl, ?_, hp, rfl, rfl, rfl⟩
    have hqueue := hlog.append a'.queue
    rw [List.append_assoc] at hqueue
    exact hqueue

/-- Names that the two programs have in common have the same values. -/
theorem Results.lookup? {r r' : Option RunError × Machine × List Action} (h : G.Results skip skip' r r')
    (hidents : G.q.idents = G.p.idents) (x : Text) : r'.2.1.lookup? x = (r.2.1.lookup? x).map (Value.rename G.ρ) := by
  unfold Machine.lookup?
  rw [h.program, h.program', hidents, h.scopes]
  cases G.p.idents.lookup? x with
  | none => rfl
  | some id =>
    have hfaithful : G.ρ.Faithful := by
      rw [Renaming.Faithful, G.ident]
      exact Function.injective_id
    have hvalue := Scopes.value?_rename hfaithful r.2.1.scopes globals id
    rw [G.ident] at hvalue
    exact hvalue

end Graft

/-! ## The two pieces of a program -/

namespace Program.Spliced

variable {p₀ p₁ p₂ p q : Program} {a b : Fragment} {A B : List Slot}

theorem length_first (h : p₀.Spliced p₁ p₂ q a b A B) : p₁.slots.length = p₀.slots.length + 1 + A.length := by
  rw [h.first, List.length_append, List.length_cons]
  omega

/-- The blocks of functions are what they were, under their new numbers. -/
theorem slot (h : p₀.Spliced p₁ p₂ q a b A B) {i k : Nat}
    (hk : (Renaming.splice p₀.slots.length p₁.slots.length).block i = k) : q.slots[k]? = p₂.slots[i]? := by
  have hlen := h.length_first
  rw [h.whole, h.second, h.first]
  rcases Nat.lt_trichotomy i p₁.slots.length with hi | rfl | hi
  · by_cases hn : i = p₀.slots.length
    · simp [Renaming.splice, hn] at hk
    · rw [Renaming.splice_kept hi hn] at hk
      obtain rfl : i = k := by exact_mod_cast hk
      rcases Nat.lt_or_gt_of_ne hn with hlt | hgt
      · rw [List.getElem?_append_left hlt, List.append_assoc, List.getElem?_append_left hlt]
      · obtain ⟨j, rfl⟩ : ∃ j, i = p₀.slots.length + (j + 1) := ⟨i - p₀.slots.length - 1, by omega⟩
        have hj : j < A.length := by omega
        simp [List.append_assoc, List.getElem?_append_right, List.getElem?_append_left, hj]
  · simp [Renaming.splice, hlen] at hk
    omega
  · obtain ⟨j, rfl⟩ : ∃ j, i = p₁.slots.length + 1 + j := ⟨i - p₁.slots.length - 1, by omega⟩
    rw [Renaming.splice_shifts (by omega) j] at hk
    obtain rfl : p₁.slots.length + j = k := by exact_mod_cast hk
    have hfront (x : Slot) : (p₀.slots ++ x :: A).length = p₁.slots.length := by
      rw [h.first, List.length_append, List.length_append]
      rfl
    rw [← List.cons_append, ← List.append_assoc, List.getElem?_append_right (by rw [hfront]; omega),
      List.getElem?_append_right (by rw [hfront]; omega), hfront, hfront, Nat.add_sub_cancel_left, Nat.add_assoc,
      Nat.add_sub_cancel_left, Nat.add_comm 1 j]
    rfl

def graft (h : p₀.Spliced p₁ p₂ q a b A B) (hp : p.Le p₂) (piece : Nat) (part : Slot) (shift : Nat) (unit : Text)
    (below : List Operand) (returns : Bool)
    (gone : ∀ k : Nat, (Renaming.splice p₀.slots.length p₁.slots.length).block piece ≠ k)
    (at_piece : p.slots[piece]? = some part)
    (code : ∀ k, k < part.marked.length → (a ++ b).toSlot.marked[k + shift]? = part.marked[k]?)
    (stop : returns = true → (a ++ b).toSlot.marked.length = part.marked.length + shift) : Graft where
  ρ := .splice p₀.slots.length p₁.slots.length
  p := p
  q := q
  piece := piece
  whole := p₀.slots.length
  part := part
  all := (a ++ b).toSlot
  shift := shift
  unit := unit
  below := below
  returns := returns
  ident := rfl
  units := rfl
  gone := gone
  names := h.idents ▸ hp.names
  const := by
    intro id v hv
    cases id with
    | negSucc n => cases hv
    | ofNat n =>
      have hv : p₂.consts[n]? = some v := getElem?_mono hp.consts hv
      change q.consts[n]? = _
      rw [h.consts, List.getElem?_map, hv]
      rfl
  slot := by
    intro i k hi hk
    rw [h.slot hk, List.getElem?_eq_getElem hi]
    exact List.prefix_iff_getElem?.mp hp.slots i hi
  at_piece := at_piece
  at_whole := by
    rw [h.whole]
    simp
  code := code
  stop := stop

theorem marked_whole (ha : a.Sited) : (a ++ b).toSlot.marked = a.toSlot.marked ++ b.toSlot.marked := by
  rw [Fragment.marked_toSlot, Fragment.marked_toSlot, Fragment.marked_toSlot, Fragment.marked_append ha]

/-- The first piece stands at the start of the whole code, and comes to its end. -/
def front (h : p₀.Spliced p₁ p₂ q a b A B) (ha : a.Sited) (unit : Text) : Graft :=
  h.graft h.grown p₀.slots.length a.toSlot 0 unit [] false
    (by simp [Renaming.splice])
    (by simp [h.first])
    (fun k hk => by rw [marked_whole ha, Nat.add_zero, List.getElem?_append_left hk])
    (by simp)

/-- The second piece stands behind the first one, which has left some operands. -/
def back (h : p₀.Spliced p₁ p₂ q a b A B) (ha : a.Sited) (unit : Text) (below : List Operand) : Graft :=
  h.graft (.refl p₂) p₁.slots.length b.toSlot a.toSlot.marked.length unit below true
    (by
      intro k
      simp [Renaming.splice, h.length_first]
      omega)
    (by simp [h.second])
    (fun k hk => by rw [marked_whole ha, List.getElem?_append_right (Nat.le_add_left ..), Nat.add_sub_cancel])
    (fun _ => by rw [marked_whole ha, List.length_append, Nat.add_comm])

section

variable {m' c c' : Machine} {u v w : Text} {pend t t' : List Action}

/-- The machines start alike on the first piece and on the whole code. -/
theorem starts (h : m.program.Spliced p₁ p₂ q a b A B) (ha : a.Sited) (hm : m.Supported) (hidle : m.IsIdle)
    (hh : m.halted = none) (hw : m.awaiting = false) (hab : m.aborted = false)
    (hs : (m.install u p₁ m.program.slots.length).Supported) (hs' : (m.install w q m.program.slots.length).Supported)
    (hlevel : ∃ l, a.marked.balance false (0, 0) = some (l, 0)) :
    (h.front ha w).Runs [] [] [] (m.install u p₁ m.program.slots.length) (m.install w q m.program.slots.length) [] [] := by
  let ρ := Renaming.splice m.program.slots.length p₁.slots.length
  have hρ : ρ.Respects m.program := Renaming.splice_respects (by rw [h.length_first]; omega)
  have hframes (n : Text) (p : Program) : (m.install n p m.program.slots.length).frames =
      [{ name := n, unit := n, block := m.program.slots.length, scope := globals }] := by
    rw [← hidle.frames]
    rfl
  have hstack : (h.front ha w).stack ((m.install u p₁ m.program.slots.length).frames.map (Frame.rename ρ)) =
      (m.install w q m.program.slots.length).frames := by
    rw [hframes, hframes]
    rfl
  refine ⟨⟨⟨⟨(m.install w q m.program.slots.length).units, ?_⟩, ?_⟩, rfl, hs, hs'⟩,
    ⟨hh, hab, hidle.quitting, hidle.quiet⟩, hw, by simp, [], rfl, rfl⟩
  · change _ = (m.rename ρ q).under [] ((h.front ha w).stack ((m.install u p₁ _).frames.map (Frame.rename ρ))) _
    rw [hm.rename_eq hρ q, hstack]
    rfl
  · rw [hframes]
    refine .bottom ⟨rfl, rfl, rfl, fun _ => rfl, Nat.zero_le _, ?_⟩
    change ∃ l, Marked.balance false (a.toSlot.marked.drop 0) (0, 0) = some (l, 0)
    rw [Fragment.marked_toSlot]
    exact hlevel

/-- At the end of the first piece, the machine that is to run the whole code is where the second piece starts. -/
theorem goes_on (h : p₀.Spliced p₁ p₂ q a b A B) (ha : a.Sited) (hr : (h.front ha w).Runs [] [] pend m c t t')
    (hf : m.frames = [f]) (hi : (a.toSlot.code.getD [])[f.pc]? = none)
    (hs : (m.finished.install v p₂ p₁.slots.length).Supported)
    (hlevel : ∃ l, b.marked.balance true (0, 0) = some (l, 0)) :
    (h.back ha w (f.operands.map (Operand.rename (.splice p₀.slots.length p₁.slots.length)))).Runs
      (t ++ m.queue ++ [.quit]) (t ++ m.queue) c.queue (m.finished.install v p₂ p₁.slots.length) c
      (t ++ (m.queue ++ [.quit])) t' := by
  let ρ := Renaming.splice p₀.slots.length p₁.slots.length
  let g : Frame := { name := v, unit := v, block := p₁.slots.length, scope := globals }
  obtain ⟨us, hc⟩ : ∃ us, c = (m.rename ρ q).under pend ((h.front ha w).stack (m.frames.map (Frame.rename ρ))) us :=
    hr.grafted.seated
  have hqueue : c.queue = pend ++ m.queue.map (Action.rename ρ) := hr.grafted.queue
  have hrests := hr.rests hf
  have hpc : f.pc = a.toSlot.marked.length := by
    refine Nat.le_antisymm hrests.pc ?_
    rw [Graft.length_marked]
    exact List.getElem?_eq_none_iff.mp hi
  have hgroups : f.groups = [] := by
    obtain ⟨l, hl⟩ := hrests.level
    change Marked.balance false (a.toSlot.marked.drop f.pc) _ = _ at hl
    rw [hpc, List.drop_length] at hl
    have hl : (f.operands.length + 0, f.groups.length) = (l, 0) := Option.some.inj hl
    exact List.eq_nil_of_length_eq_zero (congrArg Prod.snd hl)
  have hstack : (h.front ha w).stack (m.frames.map (Frame.rename ρ)) =
      (h.back ha w (f.operands.map (Operand.rename ρ))).stack [g.rename ρ] := by
    have hseats : (f.rename ρ).seated (h.front ha w).seat =
        (g.rename ρ).seated (h.back ha w (f.operands.map (Operand.rename ρ))).seat := by
      change Frame.mk w w p₀.slots.length f.pc f.scope (f.operands.map (Operand.rename ρ) ++ []) f.returns
        (f.result.map (Value.rename ρ)) (f.groups.map _) = Frame.mk w w p₀.slots.length (0 + a.toSlot.marked.length)
          globals ([] ++ f.operands.map (Operand.rename ρ)) false none []
      rw [hpc, hrests.scope, hrests.returns, hrests.result rfl, hgroups, Nat.zero_add, List.append_nil]
      rfl
    rw [hf]
    exact congrArg (· :: []) hseats
  have hlog : t' ++ pend = t.map (Action.rename ρ) := by
    obtain ⟨rest, rfl, hrest⟩ := hr.log
    exact hrest
  refine ⟨⟨⟨⟨us, ?_⟩, .bottom ⟨rfl, rfl, rfl, fun _ => rfl, Nat.zero_le _, ?_⟩⟩, rfl, hs, hr.grafted.supported'⟩,
    ⟨hr.calm.halted, hr.calm.aborted, rfl, by simp [install, Machine.finished, enter]⟩, hr.ready, ?_,
    [], by simp, ?_⟩
  · change c = { m.rename ρ q with
      frames := (h.back ha w (f.operands.map (Operand.rename ρ))).stack [g.rename ρ], queue := c.queue ++ [], units := us
      quitting := false }
    rw [List.append_nil, hqueue, ← hstack, hc, ← hr.calm.quitting]
    rfl
  · change ∃ l, Marked.balance true (b.toSlot.marked.drop 0) (0, 0) = some (l, 0)
    rw [Fragment.marked_toSlot]
    exact hlevel
  · rw [hqueue]
    exact quiet_append hr.quiet (Action.quiet_rename hr.calm.quiet)
  · rw [hqueue, ← List.append_assoc, hlog, List.append_nil, List.map_append]
    rfl

end

end Program.Spliced

/-! ## One piece after the other, and both at once -/

namespace Machine

section

variable {m' : Machine}

theorem Supported.finished (h : m.Supported) : m.finished.Supported :=
  ⟨h.sourced, fun ρ hρ => congrArg Machine.finished (h.stable ρ hρ)⟩

theorem Supported.loadNodes (h : m.Supported) {name : Text} {ns : List Node} (hl : m.loadNodes name ns = (.ok (), m')) :
    m'.Supported := by
  have hb := loadNodes_becomes m name ns
  rw [hl] at hb
  exact h.becomes hb

/-- A run of a machine that was aborted fails. -/
theorem IsReady.aborted (hm : m.IsReady) {σ : Type} {h : Handler σ} {s : σ} (hr : (m.run h false s).1 = none) :
    m.aborted = false := by
  cases ha : m.aborted with
  | false => rfl
  | true =>
    have ht : m.tick .quiet = .stop m .aborted := by simp [tick, ha]
    rw [run_stop hm ht] at hr
    cases hr

end

/-- How a run of `P ++ Q` goes that is loaded into the machine `m` at once, if `P` and then `Q` can be loaded as units of
    their own and `P` runs to its end: it fails or not as that of `Q`, hands over the same actions but for the quit
    of `P`, and leaves the same values of all names. The functions of `Q` get other blocks, and its code stands
    behind that of `P`. -/
theorem run_pieces {m₀ : Machine} (hm₀ : Compiled m₀) {rs : List Request} (hrs : ∀ r ∈ rs, r.isPlain = true)
    {m a b c : Machine} (hm : m = (History.after m₀ rs).machine) (hidle : m.IsIdle) {P Q : List Node}
    (hP : Node.everyNode Node.isPlaced P = true) (hQ : Node.everyNode Node.isPlaced Q = true)
    (hret : ∀ v, Node.ret v ∉ P) {answers : Nat → Value} (hanswers : ∀ n, (answers n).isPlain = true)
    {u v w : Text} {seen : List Action} (hu : m.unit? u = none) (ha : m.loadNodes u P = (.ok (), a))
    (hrun : a.run (.serving answers) false [] = (none, b, seen)) (hv : b.unit? v = none)
    (hc : b.loadNodes v Q = (.ok (), c)) (hw : m.unit? w = none) :
    let ρ := Renaming.splice m.program.slots.length b.program.slots.length
    let first := (b.program.block? m.program.slots.length).getD []
    Function.Bijective ρ.block ∧ ∃ d, m.loadNodes w (P ++ Q) = (.ok (), d) ∧
      let r := c.run (.serving answers) false seen
      let r' := d.run (.serving answers) false []
      r'.1 = r.1.map (RunError.moved ρ b.program.slots.length m.program.slots.length first.length) ∧
        (∃ before after, seen = before ++ [.quit] ∧ r.2.2 ++ r.2.1.queue = before ++ .quit :: after ∧
          r'.2.2 ++ r'.2.1.queue = (before ++ after).map (Action.rename ρ)) ∧
        ∀ x, r'.2.1.lookup? x = (r.2.1.lookup? x).map (Value.rename ρ) := by
  have hs : m.Supported := hm ▸ supported_after hm₀ hrs
  obtain ⟨hh, hawaits, i, p₁, hcompile, rfl⟩ := (loadNodes_new hu).mp ha
  have hprogram : b.program = p₁ := (congrArg (fun r => r.2.1.program) hrun).symm.trans (run_program false _ _)
  have habort : m.aborted = false := IsReady.aborted (m := m.install u p₁ i) ⟨hh, hawaits⟩ (congrArg Prod.fst hrun)
  obtain ⟨hh', hawaits', j, p₂, hcompile', rfl⟩ := (loadNodes_new hv).mp hc
  rw [hprogram] at hcompile'
  obtain ⟨rfl, -⟩ := Lower.compile_ok.mp hcompile
  obtain ⟨rfl, -⟩ := Lower.compile_ok.mp hcompile'
  obtain ⟨fa, fb, A, B, q, hwhole, hspliced, hsited, -, ⟨_, _, hla⟩, ⟨_, _, hlb⟩⟩ :=
    Lower.compile_append hs.sourced hcompile hcompile'
  have hd := (loadNodes_new hw).mpr ⟨hh, hawaits, _, q, hwhole, rfl⟩
  have hlt : m.program.slots.length < p₁.slots.length := by
    rw [hspliced.length_first]
    omega
  have hfirst : ((p₁.block? m.program.slots.length).getD []).length = fa.toSlot.marked.length := by
    have hslot : p₁.slots[m.program.slots.length]? = some fa.toSlot := by simp [hspliced.first]
    rw [Program.block?_of_slot hslot, Graft.length_marked]
    rfl
  intro ρ first
  refine ⟨⟨Renaming.splice_injective (hprogram ▸ hlt), Renaming.splice_surjective (hprogram ▸ hlt)⟩, _, hd, ?_⟩
  -- the first piece: both machines run it to its end
  have hstarts := hspliced.starts hsited hs hidle hh hawaits habort (hs.loadNodes ha) (hs.loadNodes hd)
    (items_balance hP (fun _ => hret) hla)
  cases hstarts.ends hanswers rfl with
  | failed fs us h =>
    rw [hrun] at h
    cases h
  | @reached a' c' pend t t' f hseen hseen' hruns hf hi =>
    rw [hrun, run_end hruns.calm hruns.ready hf (hruns.rests hf).returns (hruns.block hf) hi] at hseen
    obtain ⟨rfl, rfl⟩ : b = a'.finished ∧ seen = t ++ (a'.queue ++ [.quit]) := by simpa using hseen
    -- the second piece: what the first one has left is below it
    have hback := hspliced.goes_on hsited hruns hf hi (hruns.grafted.supported.finished.loadNodes hc)
      (items_balance hQ (by simp) hlb)
    have hresults := (hback.ends hanswers (by simp [Action.awaitsReply])).results rfl
    have hρ : ρ = .splice m.program.slots.length p₁.slots.length := by rw [← hprogram]
    have hshift : first.length = fa.toSlot.marked.length := by rw [← hfirst, ← hprogram]
    refine ⟨?_, ?_, ?_⟩
    · rw [hseen', hshift, hρ, hprogram]
      exact hresults.error
    · obtain ⟨rest, hlog, hlog'⟩ := hresults.log
      refine ⟨t ++ a'.queue, rest, (List.append_assoc ..).symm, ?_, ?_⟩
      · rw [hlog, List.append_assoc]
        rfl
      · rw [hseen', hρ]
        exact hlog'
    · intro x
      rw [hseen', hρ]
      exact hresults.lookup? hspliced.idents x

/-- Makes a function that asks the host, and leaves an operand behind. -/
def firstHalf : List Node :=
  [.assign (.ident "serve") (.function ["n"] [.ret (some (.call (.ident "hit") [.binary .add (.ident "n") (.int 1)]))]),
   .int 3]

/-- Makes an object with what the function of the first half returns, and a function of its own. -/
def secondHalf : List Node :=
  [.assign (.ident "ball") (.construct "Ball" [("x", .call (.ident "serve") [.int 2])]),
   .assign (.ident "again") (.function [] [.property (.ident "ball") "x"]),
   .assign (.ident "score") (.call (.ident "again") [])]

theorem run_pieces_halves :
    let m := new { fallback := true }
    ∃ a b c d seen ρ before after, m.loadNodes "first" firstHalf = (.ok (), a) ∧
      a.run (.serving fun _ => .int 7) false [] = (none, b, seen) ∧ b.loadNodes "second" secondHalf = (.ok (), c) ∧
      m.loadNodes "both" (firstHalf ++ secondHalf) = (.ok (), d) ∧
      let r := c.run (.serving fun _ => .int 7) false seen
      let r' := d.run (.serving fun _ => .int 7) false []
      r.2.2 ++ r.2.1.queue = before ++ .quit :: after ∧ r'.2.2 ++ r'.2.1.queue = (before ++ after).map (Action.rename ρ) ∧
        r'.2.1.lookup? "score" = (r.2.1.lookup? "score").map (Value.rename ρ) := by
  intro m
  have facts : (m.loadNodes "first" firstHalf).1.isOk = true ∧ ((m.loadNodes "first" firstHalf).2.step false).1.isOk = true ∧
      ((m.loadNodes "first" firstHalf).2.step false).2.queue.map Action.isQuit = [true] ∧
      (((m.loadNodes "first" firstHalf).2.step false).2.drain.2.unit? "second").isNone = true ∧
      (((m.loadNodes "first" firstHalf).2.step false).2.drain.2.loadNodes "second" secondHalf).1.isOk = true ∧
      m.frames.isEmpty = true ∧ m.quitting = false ∧ m.queue.isEmpty = true ∧ m.units.isEmpty = true := by
    decide +kernel
  obtain ⟨hload, hstep, hqueue, hnew, hnext, hframes, hquitting, hempty, hunits⟩ := facts
  have hidle : m.IsIdle := by
    refine ⟨List.isEmpty_iff.mp hframes, hquitting, ?_⟩
    simp [List.isEmpty_iff.mp hempty]
  have hunit (name : Text) : m.unit? name = none := by simp [unit?, List.isEmpty_iff.mp hunits]
  have hstart : m = (History.after m []).machine := rfl
  have hcompiled : Compiled m := .new _
  clear_value m
  have ok {x : Except MachineError Unit × Machine} (h : x.1.isOk = true) : ∃ k, x = (.ok (), k) := by
    obtain ⟨_ | _, k⟩ := x
    · cases h
    · exact ⟨k, rfl⟩
  obtain ⟨a, hl⟩ := ok hload
  rw [hl] at hstep hqueue hnew hnext
  obtain ⟨k, hs⟩ := ok hstep
  rw [hs] at hqueue hnew hnext
  obtain ⟨c, hn⟩ := ok hnext
  obtain ⟨x, hx, hquit⟩ : ∃ x, k.queue = [x] ∧ x.isQuit = true := by simpa [List.map_eq_singleton_iff] using hqueue
  obtain rfl : x = .quit := by
    cases x with
    | quit => rfl
    | _ => cases hquit
  have hrun : a.run (.serving fun _ => .int 7) false [] = (none, k.drain.2, [.quit]) := by
    have hs' : a.step (Schedule.ofBool false 0) = (.ok (), k) := hs
    rw [run_eq, hs']
    simp only [show k.drain.1 = [.quit] from hx]
    rfl
  have hplain : ∀ n : Nat, ((fun _ => .int 7 : Nat → Value) n).isPlain = true := fun _ => rfl
  obtain ⟨-, d, hd, -, ⟨before, after, -, hlog, hlog'⟩, hlookup⟩ := run_pieces hcompiled (by simp) hstart hidle
    (P := firstHalf) (Q := secondHalf) (by decide +kernel) (by decide +kernel) (by simp [firstHalf])
    hplain (hunit "first") hl hrun (Option.isNone_iff_eq_none.mp hnew) hn (hunit "both")
  exact ⟨a, k.drain.2, c, d, [.quit], _, before, after, hl, hrun, hn, hd, hlog, hlog', hlookup "score"⟩

end Machine

end Scriptlet

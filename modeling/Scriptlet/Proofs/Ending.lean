/-
  Scriptlet.Proofs.Ending — every step and every run ends.

  `Machine.step` gives its loop a budget of ticks, and `Machine.run` recurses on the work that
  is left. Here both loops are stated without any budget, as relations that count the
  instructions they execute: `Steps` and `Stepped` for a step, `Runs` for a run.

  (1) The budget of a step is never used up (`ticks_end`): a call puts a frame below the limit
      on top and uses up an instruction of its caller, so `stepLeft` falls with every tick
      that goes on. A step therefore returns what its loop returns (`step_ends`).
  (2) A run returns what its loop returns (`run_loops`).
  (3) However the host answers, the instructions of a run are at most the work of the machine
      it starts with (`Runs.count_le_work`), which is a number made of the frame limit, the
      lengths of the blocks and the places of the frames (`work_eq_stackBound`).
-/

import Scriptlet.Host.Run

namespace Scriptlet

namespace Program

def lengths (p : Program) : List Nat := p.slots.map fun s => (s.code.getD []).length

end Program

namespace Machine

/-! ## The loops, without a budget -/

def current? (m : Machine) : Option Instr := do
  let f ← m.frames.head?
  (← m.program.block? f.block)[f.pc]?

def fetches (s : Signal) (m : Machine) : Bool := !m.aborted && s = .quiet && m.current?.isSome

/-- `Steps c m n r m'`: ticks from `m` on, with the signals `c` before them, execute `n` instructions until
    the machine pauses or fails, with the result `r` in `m'`. -/
inductive Steps : Signals → Machine → Nat → Except MachineError Unit → Machine → Prop
  | go {c : Signals} {m m' m'' : Machine} {n : Nat} {r : Except MachineError Unit} : m.tick (c 0) = .go m' →
      Steps c.later m' n r m'' → Steps c m ((m.fetches (c 0)).toNat + n) r m''
  | pause {c : Signals} {m m' : Machine} : m.tick (c 0) = .pause m' → Steps c m (m.fetches (c 0)).toNat (.ok ()) m'
  | stop {c : Signals} {m m' : Machine} {h : Halt} : m.tick (c 0) = .stop m' h →
      Steps c m (m.fetches (c 0)).toNat (.error (.failed h)) (m'.halt h)

inductive Stepped (c : Signals) (m : Machine) : Nat → Except MachineError Unit → Machine → Prop
  | halted {h : Halt} : m.halted = some h → Stepped c m 0 (.error (.halted h)) m
  | awaiting : m.halted = none → m.awaiting = true → Stepped c m 0 (.error .awaitingHost) m
  | ticked {n : Nat} {r : Except MachineError Unit} {m' : Machine} : m.halted = none → m.awaiting = false →
      Steps c m n r m' → Stepped c m n r m'

/-- `Runs h c m s n e m' s'`: steps from `m` on, each followed by handing over its actions, execute
    `n` instructions in all until a quit is handed over or something fails. -/
inductive Runs {σ : Type} (h : Handler σ) : Schedule → Machine → σ → Nat → Option RunError → Machine → σ → Prop
  | failed {c : Schedule} {m m' : Machine} {s : σ} {n : Nat} {e : MachineError} : Stepped (c 0) m n (.error e) m' →
      Runs h c m s n (some (.machine e)) m' s
  | quit {c : Schedule} {m m' k : Machine} {s t : σ} {n : Nat} : Stepped (c 0) m n (.ok ()) m' → .quit ∈ m'.queue →
      dispatch h m'.drain.1 m'.drain.2 s = (.quit, k, t) → Runs h c m s n none k t
  | refused {c : Schedule} {m m' k : Machine} {s t : σ} {n : Nat} {e : RunError} : Stepped (c 0) m n (.ok ()) m' →
      dispatch h m'.drain.1 m'.drain.2 s = (.failed e, k, t) → Runs h c m s n (some e) k t
  | go {c : Schedule} {m m' k k' : Machine} {s t t' : σ} {n n' : Nat} {e : Option RunError} :
      Stepped (c 0) m n (.ok ()) m' → dispatch h m'.drain.1 m'.drain.2 s = (.go, k, t) →
      Runs h c.later k t n' e k' t' → Runs h c m s (n + n') e k' t'

/-! ## (1) The budget of a step -/

/-- An upper bound for the ticks of a step: those of the frame on top, and those of all the
    frames that calls can still put above it. -/
def stepLeft (m : Machine) : Nat :=
  match m.frames with
  | [] => 1
  | f :: rest => left m.program f + 1 + (m.limit - (rest.length + 1)) * (m.program.longest + 1)

theorem left_le_longest (p : Program) (f : Frame) : left p f ≤ p.longest :=
  Nat.le_trans (Nat.sub_le _ _) (p.blockLength_le_longest f.block)

theorem stepLeft_le_stepBound (m : Machine) : m.stepLeft ≤ m.stepBound := by
  unfold stepLeft stepBound
  cases hf : m.frames with
  | nil => exact Nat.mul_pos (Nat.succ_pos _) (Nat.succ_pos _)
  | cons f rest =>
    have := left_le_longest m.program f
    simp only [List.length_cons, Nat.add_mul, Nat.one_mul]
    omega

theorem stepLeft_pos (m : Machine) : 0 < m.stepLeft := by
  unfold stepLeft
  split <;> omega

variable {m m' : Machine} {c : Signals} {σ : Type} {n : Nat} {s : Signal}

/-- A tick that goes on executes an instruction, and leaves the machine ready. -/
theorem tick_go (h : m.tick s = .go m') :
    ∃ f rest code i, m.frames = f :: rest ∧ m.program.block? f.block = some code ∧ code[f.pc]? = some i ∧
      m.exec { f with pc := f.pc + 1 } rest code.length f.pc i = .ok m' ∧ m'.awaiting = false ∧
      m.fetches s = true := by
  unfold tick at h
  split at h
  · cases h
  rename_i ha
  split at h
  · cases h
  · cases h
  split at h
  · cases h
  rename_i f rest hf
  split at h
  · cases h
  rename_i code hb
  split at h
  · split at h <;> cases h
  rename_i i hi
  split at h
  · rename_i m'' he
    split at h
    · cases h
    · rename_i hw
      cases h
      refine ⟨f, rest, code, i, hf, hb, hi, he, by simpa using hw, ?_⟩
      simp [fetches, current?, ha, hf, hb, hi]
  · cases h

/-- The frames after a tick that goes on: the block and limit are as before, and less is left. -/
theorem tick_go_stepLeft (h : m.tick s = .go m') : m'.stepLeft < m.stepLeft := by
  obtain ⟨f, rest, code, i, hf, hb, hi, he, -, -⟩ := tick_go h
  have hpc : f.pc < code.length := (List.getElem?_eq_some_iff.mp hi).1
  obtain ⟨keep, moves⟩ := fine_exec m { f with pc := f.pc + 1 } rest code.length f.pc i hpc m' he
  have hl : m.program.blockLength f.block = code.length := by simp [Program.blockLength, hb]
  have hm : m.stepLeft = code.length - f.pc + 1 + (m.limit - (rest.length + 1)) * (m.program.longest + 1) := by
    simp only [stepLeft, hf, left, hl]
  rw [hm]
  generalize hfs : m'.frames = fs at moves
  cases moves with
  | stay g hg hp =>
    have hg' : left m.program g ≤ code.length - (f.pc + 1) := by
      simp only [left, hg, hl]
      exact Nat.sub_le_sub_left hp _
    simp only [stepLeft, hfs, keep.program, keep.limit]
    omega
  | call k g hk hg hp hlim =>
    have hk' := left_le_longest m.program k
    -- the callee stands at one of the places that were free above the caller
    have room : m.limit - (rest.length + 1) = (m.limit - (rest.length + 1 + 1)) + 1 := by omega
    simp only [stepLeft, hfs, keep.program, keep.limit, List.length_cons]
    rw [room, Nat.add_mul, Nat.one_mul]
    omega

/-- With enough of a budget, the ticks of a step come to an end of their own. -/
theorem ticks_end {k : Nat} (hk : m.stepLeft ≤ k) :
    ∃ n, Steps c m n (ticks c k m).1 (ticks c k m).2 := by
  induction k generalizing m c with
  | zero =>
    have := stepLeft_pos m
    omega
  | succ k ih =>
    unfold ticks
    split
    · rename_i m' ht
      have := tick_go_stepLeft ht
      obtain ⟨n, hn⟩ := ih (m := m') (by omega)
      exact ⟨_, .go ht hn⟩
    · rename_i m' ht
      exact ⟨_, .pause ht⟩
    · rename_i m' h ht
      exact ⟨_, .stop ht⟩

/-- Each step returns, with the result of its loop. -/
theorem step_ends (c : Signals) (m : Machine) : ∃ n, Stepped c m n (m.step c).1 (m.step c).2 := by
  unfold step
  split
  · rename_i h hh
    exact ⟨0, .halted hh⟩
  · rename_i hh
    split
    · rename_i ha
      exact ⟨0, .awaiting hh ha⟩
    · rename_i ha
      obtain ⟨n, hn⟩ := ticks_end (c := c) (stepLeft_le_stepBound m)
      exact ⟨n, .ticked hh (by simpa using ha) hn⟩

/-! ## (2) Runs -/

/-- A round that ends the run by a quit handed over a quit. -/
theorem dispatch_quit {h : Handler σ} {as : List Action} {k : Machine} {s t : σ}
    (e : dispatch h as m s = (.quit, k, t)) : .quit ∈ as := by
  induction as generalizing m s with
  | nil => simp [dispatch] at e
  | cons a as ih =>
    simp only [dispatch] at e
    split at e
    · simp at e
    · split at e
      · rename_i hq
        cases a <;> simp [Action.isQuit] at hq
        exact List.mem_cons_self
      · split at e
        · split at e
          · simp at e
          · exact List.mem_cons_of_mem _ (ih e)
        · exact List.mem_cons_of_mem _ (ih e)

/-- Each run returns, with the result of its loop. -/
theorem run_loops (h : Handler σ) (c : Schedule) (m : Machine) (s : σ) :
    ∃ n, Runs h c m s n (m.run h c s).1 (m.run h c s).2.1 (m.run h c s).2.2 := by
  fun_induction run h c m s with
  | case1 c m s e m' hs =>
    obtain ⟨n, hn⟩ := step_ends (c 0) m
    rw [hs] at hn
    exact ⟨n, .failed hn⟩
  | case2 c m s u m' hs k t hd =>
    obtain ⟨n, hn⟩ := step_ends (c 0) m
    rw [hs] at hn
    exact ⟨n, .quit hn (dispatch_quit hd) hd⟩
  | case3 c m s u m' hs e k t hd =>
    obtain ⟨n, hn⟩ := step_ends (c 0) m
    rw [hs] at hn
    exact ⟨n, .refused hn hd⟩
  | case4 c m s u m' hs k t hd _ ih =>
    obtain ⟨n, hn⟩ := step_ends (c 0) m
    rw [hs] at hn
    obtain ⟨n', hn'⟩ := ih
    exact ⟨n + n', .go hn hd hn'⟩

/-! ## (3) How many instructions -/

/-- A failing tick executes at most one instruction, and has work left for it. -/
theorem fetches_le_work (s : Signal) (m : Machine) : (m.fetches s).toNat ≤ m.work := by
  cases hf : m.frames with
  | nil => simp [fetches, current?, hf]
  | cons f rest =>
    have : 0 < m.work := by
      simp only [work, hf]
      exact Nat.lt_of_le_of_lt (Nat.zero_le _) (workOf_pos (by omega) f rest)
    have := Bool.toNat_le (m.fetches s)
    omega

/-- The instructions of a step are paid for by its work; one that succeeds has the rest left. -/
theorem Steps.count_le {r : Except MachineError Unit} (h : Steps c m n r m') :
    n ≤ m.work ∧ (r = .ok () → n + m'.work ≤ m.work) := by
  induction h with
  | @go c m k m' n r ht _ ih =>
    have hw := (tick_go_work ht).2
    have := Bool.toNat_le (m.fetches (c 0))
    refine ⟨by omega, fun hr => ?_⟩
    have := ih.2 hr
    omega
  | @pause c m m' ht =>
    refine ⟨fetches_le_work (c 0) m, fun _ => ?_⟩
    by_cases hf : m.frames = []
    · rw [tick_empty ht hf, terminate_work]
      simp [fetches, current?, hf]
    · have := tick_pause_work ht hf
      have := Bool.toNat_le (m.fetches (c 0))
      omega
  | @stop c m m' h ht => exact ⟨fetches_le_work (c 0) m, fun hr => by cases hr⟩

theorem Stepped.count_le {r : Except MachineError Unit}
    (h : Stepped c m n r m') : n ≤ m.work ∧ (r = .ok () → n + m'.work ≤ m.work) := by
  cases h with
  | halted _ => exact ⟨Nat.zero_le _, fun hr => by cases hr⟩
  | awaiting _ _ => exact ⟨Nat.zero_le _, fun hr => by cases hr⟩
  | ticked _ _ hs => exact hs.count_le

theorem Runs.count_le_work {h : Handler σ} {c : Schedule} {s s' : σ}
    {e : Option RunError} (hr : Runs h c m s n e m' s') : n ≤ m.work := by
  induction hr with
  | failed hs => exact hs.count_le.1
  | quit hs _ _ => exact hs.count_le.1
  | refused hs _ => exact hs.count_le.1
  | go hs hd _ ih =>
    have h1 := hs.count_le.2 rfl
    have h2 := (dispatch_go h hd).1
    rw [drain_work] at h2
    omega

/-- The work of a stack of frames, from the frame limit, the lengths of the blocks, and the block
    and position of every frame, the one on top first. -/
def stackBound (limit : Nat) (lengths : List Nat) : List (Int × Nat) → Nat
  | [] => 0
  | (block, pc) :: rest =>
    ((Program.nth? lengths block).getD 0 - pc + 1) * (lengths.foldl max 0 + 2) ^ (limit - rest.length)
      + stackBound limit lengths rest

theorem nth?_map {α β : Type} (g : α → β) (l : List α) (id : Int) :
    Program.nth? (l.map g) id = (Program.nth? l id).map g := by
  cases id with
  | ofNat n => simp [Program.nth?]
  | negSucc n => rfl

theorem blockLength_eq (p : Program) (id : Int) : p.blockLength id = (Program.nth? p.lengths id).getD 0 := by
  simp only [Program.blockLength, Program.block?, Program.slot?, Program.lengths, nth?_map]
  cases Program.nth? p.slots id <;> rfl

theorem longest_eq (p : Program) : p.longest = p.lengths.foldl max 0 := by
  simp only [Program.longest, Program.lengths, List.foldl_map]

theorem work_eq_stackBound (m : Machine) :
    m.work = stackBound m.limit m.program.lengths (m.frames.map fun f => (f.block, f.pc)) := by
  have go (fs : List Frame) : workOf m.program m.limit (m.program.longest + 2) fs
      = stackBound m.limit m.program.lengths (fs.map fun f => (f.block, f.pc)) := by
    induction fs with
    | nil => rfl
    | cons f fs ih =>
      simp only [workOf, stackBound, List.map_cons, List.length_map, left, blockLength_eq, longest_eq] at ih ⊢
      rw [ih]
  exact go m.frames

/-- Every step returns after finitely many instructions, and every run returns, with no error only
    after a quit. Whatever the handler answers, a run executes at most as many instructions as
    the frame limit, the lengths of the blocks and the frames it starts with allow. -/
theorem every_run_ends {σ : Type} (h : Handler σ) (c : Schedule) (m : Machine) (s : σ) :
    (∃ n, Stepped (c 0) m n (m.step (c 0)).1 (m.step (c 0)).2) ∧
    (∃ n, Runs h c m s n (m.run h c s).1 (m.run h c s).2.1 (m.run h c s).2.2) ∧
    ∀ n e m' s', Runs h c m s n e m' s' →
      n ≤ stackBound m.limit m.program.lengths (m.frames.map fun f => (f.block, f.pc)) := by
  refine ⟨step_ends (c 0) m, run_loops h c m s, fun n e m' s' hr => ?_⟩
  rw [← work_eq_stackBound]
  exact hr.count_le_work

/-- A machine about to call, as `f` of no arguments, a function whose body loads a constant. -/
def twoFrames : Machine where
  program := { consts := [.none], slots := [⟨some [⟨.call, 0⟩], none⟩, ⟨some [⟨.loadConst, 0⟩], none⟩] }
  limit := 2
  frames := [{ name := [], block := 0, scope := 0, operands := [⟨some (.closure ⟨.inner 0, ⟨1, 0⟩, [], [0]⟩), none⟩] }]
  fresh := 1

/-- Two instructions are executed in two steps, one for each frame that is left. -/
theorem every_run_ends_twoFrames :
    ∃ m', Runs .discard false twoFrames () 2 none m' () ∧ 2 ≤ stackBound 2 [1, 1] [(0, 0)] := by
  have calls : Stepped false twoFrames _ (.ok ()) _ := .ticked rfl rfl (.go rfl (.go rfl (.pause rfl)))
  obtain ⟨m', run⟩ : ∃ m', Runs .discard false twoFrames () (2 + 0) none m' () :=
    ⟨_, .go calls rfl (.quit (.ticked rfl rfl (.pause rfl)) (.head _) rfl)⟩
  exact ⟨m', run, (every_run_ends .discard false twoFrames ()).2.2 _ _ _ _ run⟩

end Machine

end Scriptlet

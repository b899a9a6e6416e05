/-
  Scriptlet.Proofs.Driving — how a run goes on from one tick to the next.

  A run steps a machine, and a step ticks it. Here the two loops are taken apart: a tick that goes on
  leaves the rest of the run as it is (`run_go`), a machine that asks goes on with the answer
  (`run_ask`), a frame that is left hands the actions so far over (`run_left`, `run_quit`), and a tick
  that stops ends the run (`run_stop`). Runs are driven by a host that records all actions and
  answers from what it has seen, not looking at the numbers of blocks (`Handler.answering`).
-/

import Scriptlet.Proofs.Ending
import Scriptlet.Proofs.Renaming

namespace Scriptlet

def Handler.answering (host : List Action → Value) : Handler (List Action) where
  handle seen a :=
    ({ result := .ok (some (host ((seen ++ [a]).map (Action.rename .anyBlock)))) }, seen ++ [a])

/-- Nothing follows from the action but that it is recorded. -/
def Action.isQuiet (a : Action) : Bool := !a.isQuit && !a.awaitsReply

namespace Machine

/-! ## Steps -/

theorem Steps.unique {c : Signals} {m k k' : Machine} {n n' : Nat} {r r' : Except MachineError Unit}
    (h : Steps c m n r k) (h' : Steps c m n' r' k') : r = r' ∧ k = k' := by
  induction h generalizing n' with
  | go ht _ ih =>
    cases h' with
    | go ht' hs =>
      rw [ht] at ht'
      cases ht'
      exact ih hs
    | pause ht' => rw [ht] at ht'; cases ht'
    | stop ht' => rw [ht] at ht'; cases ht'
  | pause ht =>
    cases h' with
    | go ht' _ => rw [ht] at ht'; cases ht'
    | pause ht' =>
      rw [ht] at ht'
      cases ht'
      exact ⟨rfl, rfl⟩
    | stop ht' => rw [ht] at ht'; cases ht'
  | stop ht =>
    cases h' with
    | go ht' _ => rw [ht] at ht'; cases ht'
    | pause ht' => rw [ht] at ht'; cases ht'
    | stop ht' =>
      rw [ht] at ht'
      cases ht'
      exact ⟨rfl, rfl⟩

def IsReady (m : Machine) : Prop := m.halted = none ∧ m.awaiting = false

section

variable {c : Signals} {m m' : Machine}

theorem IsReady.steps (h : m.IsReady) : ∃ n, Steps c m n (m.step c).1 (m.step c).2 := by
  obtain ⟨n, hn⟩ := step_ends c m
  generalize (m.step c).1 = r, (m.step c).2 = k at hn ⊢
  cases hn with
  | halted hh => rw [h.1] at hh; cases hh
  | awaiting _ hw => rw [h.2] at hw; cases hw
  | ticked _ _ hs => exact ⟨n, hs⟩

theorem IsReady.step_eq (h : m.IsReady) {n : Nat} {r : Except MachineError Unit} (hs : Steps c m n r m') :
    m.step c = (r, m') := by
  obtain ⟨k, hk⟩ := h.steps (c := c)
  obtain ⟨h1, h2⟩ := hk.unique hs
  exact Prod.ext h1 h2

/-- A tick that goes on makes no difference to the step. -/
theorem IsReady.step_go (h : m.IsReady) (ht : m.tick (c 0) = .go m') (h' : m'.IsReady) :
    m.step c = m'.step c.later := by
  obtain ⟨n, hn⟩ := h'.steps (c := c.later)
  exact h.step_eq (.go ht hn)

/-! ## Ticks -/

/-- The tick of a frame that has an instruction next. -/
theorem tick_instr {f : Frame} {rest : List Frame} {code : Block} {i : Instr} (ha : m.aborted = false)
    (hf : m.frames = f :: rest) (hb : m.program.block? f.block = some code) (hi : code[f.pc]? = some i) :
    m.tick .quiet = match m.exec { f with pc := f.pc + 1 } rest code.length f.pc i with
      | .ok m' => if m'.awaiting then .pause m' else .go m'
      | .error s => .stop (m.withFrames (s.frame :: rest)) (.fault f.block f.pc i s.fault) := by
  cases h : m.exec { f with pc := f.pc + 1 } rest code.length f.pc i <;> simp [tick, ha, hf, hb, hi, h]

/-- The tick of a frame that is at its end. -/
theorem tick_end {f : Frame} {rest : List Frame} {code : Block} (ha : m.aborted = false) (hf : m.frames = f :: rest)
    (hb : m.program.block? f.block = some code) (hi : code[f.pc]? = none) :
    m.tick .quiet = match m.leave f rest with
      | .ok m' => .pause m'
      | .error e => .stop (m.withFrames rest) (.fault f.block code.length ⟨.ret, 0⟩ e) := by
  cases h : m.leave f rest <;> simp [tick, ha, hf, hb, hi, h]

/-! ## Runs -/

variable {σ : Type} {h : Handler σ}

theorem run_eq (h : Handler σ) (c : Schedule) (m : Machine) (s : σ) :
    m.run h c s = match m.step (c 0) with
      | (.error e, m') => (some (.machine e), m', s)
      | (.ok _, m') =>
        match dispatch h m'.drain.1 m'.drain.2 s with
        | (.quit, n, t) => (none, n, t)
        | (.failed e, n, t) => (some e, n, t)
        | (.go, n, t) => n.run h c.later t := by
  rw [run]
  split
  · rename_i hs
    rw [hs]
  · rename_i hs
    split <;> rename_i hd <;> simp only [hs, hd]

theorem run_go (hm : m.IsReady) (ht : m.tick .quiet = .go m') (hm' : m'.IsReady) (s : σ) :
    m.run h false s = m'.run h false s := by
  rw [run_eq, run_eq, hm.step_go ht hm']
  rfl

theorem run_stop (hm : m.IsReady) {e : Halt} (ht : m.tick .quiet = .stop m' e) (s : σ) :
    m.run h false s = (some (.machine (.failed e)), m'.halt e, s) := by
  rw [run_eq, hm.step_eq (.stop ht)]

end

section

variable {m m' : Machine} {host : List Action → Value} {seen : List Action}

theorem dispatch_quiet (host : List Action → Value) (m : Machine) (seen : List Action) {as : List Action}
    (h : ∀ a ∈ as, a.isQuiet = true) (bs : List Action) :
    dispatch (.answering host) (as ++ bs) m seen = dispatch (.answering host) bs m (seen ++ as) := by
  induction as generalizing seen with
  | nil => simp
  | cons a as ih =>
    have ha := h a List.mem_cons_self
    simp only [Action.isQuiet, Bool.and_eq_true, Bool.not_eq_true'] at ha
    rw [List.cons_append]
    change (if a.isQuit then _ else if a.awaitsReply then _ else dispatch _ (as ++ bs) m (seen ++ [a])) = _
    rw [ha.1, ha.2]
    simp only [Bool.false_eq_true, if_false]
    rw [ih _ fun b hb => h b (List.mem_cons_of_mem _ hb), List.append_assoc]
    rfl

/-- A frame is left above another one: the actions so far are handed over. -/
theorem run_left (hm : m.IsReady) (ht : m.tick .quiet = .pause m') (hq : ∀ a ∈ m'.queue, a.isQuiet = true) :
    m.run (.answering host) false seen = m'.drain.2.run (.answering host) false (seen ++ m'.queue) := by
  rw [run_eq, hm.step_eq (.pause ht)]
  have := dispatch_quiet host m'.drain.2 seen hq []
  rw [List.append_nil] at this
  simp only [drain] at this ⊢
  rw [this]
  rfl

/-- The last frame is left: a quit is handed over, and the run is at its end. -/
theorem run_quit (hm : m.IsReady) (ht : m.tick .quiet = .pause m') {q : List Action} (hq : m'.queue = q ++ [.quit])
    (h : ∀ a ∈ q, a.isQuiet = true) :
    m.run (.answering host) false seen = (none, m'.drain.2, seen ++ m'.queue) := by
  rw [run_eq, hm.step_eq (.pause ht)]
  have := dispatch_quiet host m'.drain.2 seen h [.quit]
  simp only [drain, hq] at this ⊢
  rw [this, ← List.append_assoc]
  rfl

/-- The machine asks the host, and goes on with the answer. -/
theorem run_ask (hm : m.IsReady) (ht : m.tick .quiet = .pause m') (hw : m'.awaiting = true) {q : List Action} {a : Action}
    (hq : m'.queue = q ++ [a]) (h : ∀ b ∈ q, b.isQuiet = true) (ha : a.awaitsReply = true) :
    m.run (.answering host) false seen =
      { m'.drain.2 with
        awaiting := false
        frames := deliver (host ((seen ++ m'.queue).map (Action.rename .anyBlock))) m'.frames }.run
          (.answering host) false (seen ++ m'.queue) := by
  rw [run_eq, hm.step_eq (.pause ht)]
  have hd := dispatch_quiet host m'.drain.2 seen h [a]
  have hn : a.isQuit = false := by cases a <;> first | rfl | cases ha
  have hr := resume_eq (m := m'.drain.2) hw (some (host ((seen ++ q ++ [a]).map (Action.rename .anyBlock))))
  simp only [drain, hq] at hd hr ⊢
  rw [hd]
  simp only [dispatch, Handler.answering, hn, ha, Bool.false_eq_true, if_false, if_true]
  rw [hr, ← List.append_assoc]
  rfl

end

end Machine

end Scriptlet

/-
  Scriptlet.Host.Run — driving a machine until it quits.

  The machine is stepped, its actions are handed to a handler in order, and it is resumed
  with the results of calls and imports, again and again. Each round uses up some of the
  machine's work, or hands over the quit that ends the run. A run is given the signals that
  come before the ticks of each of its steps (`Schedule`).
-/

import Scriptlet.Host.Handler
import Scriptlet.Machine.Work

namespace Scriptlet

inductive RunError where
  | machine (e : MachineError)
  | handling (a : Action) (why : Text)
  | noMachine
  deriving Inhabited

def RunError.message : RunError → Text
  | .machine e => e.message
  | .handling a why => "handling " ++ a.render ++ ": " ++ why
  | .noMachine => "runner has no virtual machine"

def Schedule := Nat → Signals

namespace Schedule

def ofBool (cancelled : Bool) : Schedule := fun _ => cancelled

instance : Coe Bool Schedule := ⟨ofBool⟩

def later (c : Schedule) : Schedule := fun n => c (n + 1)

end Schedule

namespace Machine

inductive Round where
  | go
  | quit
  | failed (e : RunError)

variable {σ : Type} (h : Handler σ)

/-- Hands actions over, and resumes the machine after those that it awaits a reply to. -/
def dispatch : List Action → Machine → σ → Round × Machine × σ
  | [], m, s => (.go, m, s)
  | a :: as, m, s =>
    let (reply, s) := h.handle s a
    let m := if reply.abort then m.abort else m
    match reply.result with
    | .error why => (.failed (.handling a why), m, s)
    | .ok v =>
      if a.isQuit then (.quit, m, s)
      else if a.awaitsReply then
        match m.resume v with
        | (.error e, m) => (.failed (.machine e), m, s)
        | (.ok _, m) => dispatch as m s
      else dispatch as m s

theorem resume_work {m m' : Machine} {v : Option Value} (e : m.resume v = (.ok (), m')) :
    m'.work = m.work ∧ m'.quitting = m.quitting := by
  unfold resume at e
  split at e
  · cases e
  · simp only [Prod.mk.injEq, true_and] at e
    subst e
    cases hf : m.frames with
    | nil => simp only [work, hf, and_true]
    | cons f fs =>
      simp only [work, hf, and_true]
      rfl

/-- A round that goes on leaves the work as it was, and there was no quit among its actions. -/
theorem dispatch_go {as : List Action} {m m' : Machine} {s s' : σ} (e : dispatch h as m s = (.go, m', s')) :
    m'.work = m.work ∧ m'.quitting = m.quitting ∧ ∀ a ∈ as, a.isQuit = false := by
  induction as generalizing m s with
  | nil =>
    simp only [dispatch, Prod.mk.injEq, true_and] at e
    exact e.1 ▸ ⟨rfl, rfl, by simp⟩
  | cons a as ih =>
    simp only [dispatch] at e
    generalize hn : (if (h.handle s a).1.abort = true then m.abort else m) = n at e
    have keep : n.work = m.work ∧ n.quitting = m.quitting := by
      rw [← hn]
      split <;> exact ⟨rfl, rfl⟩
    split at e
    · cases e
    · split at e
      · cases e
      · rename_i hq
        have tail {k : Machine} {t : σ} (hk : k.work = n.work ∧ k.quitting = n.quitting)
            (e : dispatch h as k t = (.go, m', s')) :
            m'.work = m.work ∧ m'.quitting = m.quitting ∧ ∀ b ∈ a :: as, b.isQuit = false := by
          obtain ⟨h1, h2, h3⟩ := ih e
          refine ⟨h1.trans (hk.1.trans keep.1), h2.trans (hk.2.trans keep.2), ?_⟩
          intro b hb
          cases hb with
          | head => exact Bool.eq_false_iff.mpr hq
          | tail _ hb => exact h3 b hb
        split at e
        · split at e
          · cases e
          · rename_i k hr
            exact tail (resume_work hr) e
        · exact tail ⟨rfl, rfl⟩ e

theorem drain_work (m : Machine) : m.drain.2.work = m.work := rfl

/-- A round that goes on makes the rest of the run smaller. -/
theorem round_decreases {m m' n : Machine} {s s' : σ} {c : Signals} (hs : m.step c = (.ok (), m'))
    (hd : dispatch h m'.drain.1 m'.drain.2 s = (.go, n, s')) :
    n.work < m.work ∨ n.work = m.work ∧ n.quitting.toNat < m.quitting.toNat := by
  obtain ⟨h1, h2, h3⟩ := dispatch_go h hd
  rw [drain_work] at h1
  have hq : n.quitting = false := h2
  rcases step_work hs with lt | rfl
  · exact .inl (h1 ▸ lt)
  · refine .inr ⟨h1.trans (terminate_work m), ?_⟩
    cases hm : m.quitting with
    | true => simp [hq]
    | false =>
      have : Action.quit ∈ m.terminate.drain.1 := by simp [terminate, hm, put, drain]
      exact absurd (h3 _ this) (by simp [Action.isQuit])

def run (c : Schedule) (m : Machine) (s : σ) : Option RunError × Machine × σ :=
  match hs : m.step (c 0) with
  | (.error e, m') => (some (.machine e), m', s)
  | (.ok _, m') =>
    match hd : dispatch h m'.drain.1 m'.drain.2 s with
    | (.quit, n, s) => (none, n, s)
    | (.failed e, n, s) => (some e, n, s)
    | (.go, n, s) =>
      have := round_decreases h hs hd
      run c.later n s
termination_by (m.work, m.quitting.toNat)
decreasing_by
  rcases this with lt | ⟨eq, lt⟩
  · exact .left _ _ lt
  · exact eq ▸ .right _ lt

/-- Runs the machine, and resets it if it halted: what was bound before stays bound. -/
def runReset (m : Machine) (s : σ) : Option RunError × Machine × σ :=
  let (e, m, s) := m.run h false s
  (e, if m.halted.isSome then m.reset else m, s)

end Machine

end Scriptlet

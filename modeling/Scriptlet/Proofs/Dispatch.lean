/-
  Scriptlet.Proofs.Dispatch — what a handler is told in the course of a run.

  `Machine.recorded` is `Machine.run` with a record of what happens: the steps with the actions
  that they put into the queue, the actions that are handed over with the answers of the
  handler, and the replies that are passed on to the machine.

  (1) A step that succeeds leaves a batch (`step_batch`): a call or an import stands last in it,
      and then a reply is awaited; a quit stands last too, and then there is no frame left.
  (2) So every record is orderly (`recorded_orderly`): what is pending is handed over in order
      before the next step, and a reply is passed on right after its question.
  (3) The rest follows from the order alone.
-/

import Scriptlet.Proofs.Replies

namespace Scriptlet

/-- Neither a quit nor an action that the machine waits for. -/
def Action.isPlain (a : Action) : Bool := !a.isQuit && !a.awaitsReply

namespace Machine

/-! ## Records -/

inductive Event where
  /-- The machine took a step, which put these actions into the queue. -/
  | stepped (r : Except MachineError Unit) (added : List Action)
  | handed (a : Action) (r : Except Text (Option Value))
  | resumed (v : Option Value) (r : Except MachineError Unit)

namespace Event

def added : Event → List Action
  | .stepped _ as => as
  | _ => []

def told : Event → List Action
  | .handed a _ => [a]
  | _ => []

end Event

def emitted (log : List Event) : List Action := log.flatMap Event.added

def handed (log : List Event) : List Action := log.flatMap Event.told

@[simp] theorem handed_nil : handed [] = [] := rfl
@[simp] theorem handed_stepped (log : List Event) (r : Except MachineError Unit) (as : List Action) :
    handed (.stepped r as :: log) = handed log := rfl

/-- The actions that were put into the queue between two states of a machine. -/
def addedTo (m m' : Machine) : List Action := m'.queue.drop m.queue.length

/-- A step puts actions behind those that are in the queue. -/
theorem queue_step (c : Signals) (m : Machine) : (m.step c).2.queue = m.queue ++ addedTo m (m.step c).2 := by
  obtain ⟨as, has⟩ : m.queue <+: (m.step c).2.queue := (kept_queue m.queue).step List.prefix_rfl
  rw [addedTo, ← has, List.drop_left]

section

variable {σ : Type} (h : Handler σ)

/-- `dispatch`, with a record. -/
def tell : List Action → Machine → σ → List Event × Round × Machine × σ
  | [], m, s => ([], .go, m, s)
  | a :: as, m, s =>
    let (reply, s) := h.handle s a
    let m := if reply.abort then m.abort else m
    match reply.result with
    | .error why => ([.handed a (.error why)], .failed (.handling a why), m, s)
    | .ok v =>
      if a.isQuit then ([.handed a (.ok v)], .quit, m, s)
      else if a.awaitsReply then
        match m.resume v with
        | (.error e, m) => ([.handed a (.ok v), .resumed v (.error e)], .failed (.machine e), m, s)
        | (.ok _, m) =>
          let (log, r) := tell as m s
          (.handed a (.ok v) :: .resumed v (.ok ()) :: log, r)
      else
        let (log, r) := tell as m s
        (.handed a (.ok v) :: log, r)

theorem tell_dispatch (as : List Action) (m : Machine) (s : σ) : (tell h as m s).2 = dispatch h as m s := by
  induction as generalizing m s with
  | nil => rfl
  | cons a as ih =>
    simp only [tell, dispatch]
    cases (h.handle s a).1.result with
    | error why => rfl
    | ok v =>
      simp only
      split
      · rfl
      split
      · rcases (if (h.handle s a).1.abort = true then m.abort else m).resume v with ⟨_ | _, n⟩
        · rfl
        · exact ih _ _
      · exact ih _ _

theorem resume_queue (m : Machine) (v : Option Value) : (m.resume v).2.queue = m.queue := by
  unfold resume
  split <;> rfl

/-- Nothing is put into the queue while actions are handed over. -/
theorem tell_queue (as : List Action) (m : Machine) (s : σ) : (tell h as m s).2.2.1.queue = m.queue := by
  induction as generalizing m s with
  | nil => rfl
  | cons a as ih =>
    simp only [tell]
    generalize hn : (if (h.handle s a).1.abort = true then m.abort else m) = n
    have hq : n.queue = m.queue := by rw [← hn]; split <;> rfl
    cases (h.handle s a).1.result with
    | error why => exact hq
    | ok v =>
      simp only
      split
      · exact hq
      split
      · have hqueue := resume_queue n v
        generalize n.resume v = x at hqueue ⊢
        rcases x with ⟨e | u, k⟩
        · exact hqueue.trans hq
        · exact (ih k _).trans (hqueue.trans hq)
      · exact (ih n _).trans hq

/-- `run`, with a record. -/
def recorded (c : Schedule) (m : Machine) (s : σ) : List Event × Option RunError × Machine × σ :=
  match hs : m.step (c 0) with
  | (.error e, m') => ([.stepped (.error e) (addedTo m m')], some (.machine e), m', s)
  | (.ok _, m') =>
    match hd : tell h m'.drain.1 m'.drain.2 s with
    | (log, .quit, n, s) => (.stepped (.ok ()) (addedTo m m') :: log, none, n, s)
    | (log, .failed e, n, s) => (.stepped (.ok ()) (addedTo m m') :: log, some e, n, s)
    | (log, .go, n, t) =>
      have := round_decreases h hs ((tell_dispatch h _ _ _).symm.trans (congrArg Prod.snd hd))
      let (log', r) := recorded c.later n t
      (.stepped (.ok ()) (addedTo m m') :: (log ++ log'), r)
termination_by (m.work, m.quitting.toNat)
decreasing_by
  rcases this with lt | ⟨eq, lt⟩
  · exact .left _ _ lt
  · exact eq ▸ .right _ lt

theorem run_stepped {c : Schedule} {m m' : Machine} {u : Unit} (hs : m.step (c 0) = (.ok u, m')) (s : σ) :
    m.run h c s = match dispatch h m'.drain.1 m'.drain.2 s with
      | (.quit, n, s) => (none, n, s)
      | (.failed e, n, s) => (some e, n, s)
      | (.go, n, s) => n.run h c.later s := by
  rw [run]
  split
  · rename_i he
    cases hs.symm.trans he
  · rename_i he
    cases hs.symm.trans he
    split <;> rename_i hd <;> simp only [hd]

/-- A run is what it is without the record. -/
theorem recorded_run (c : Schedule) (m : Machine) (s : σ) : (m.recorded h c s).2 = m.run h c s := by
  fun_induction recorded h c m s with
  | case1 c m s e m' hs =>
    rw [run]
    split
    · rename_i he
      cases hs.symm.trans he
      rfl
    · rename_i he
      cases hs.symm.trans he
  | case2 c m s u m' hs log k t hd => rw [run_stepped h hs, ← tell_dispatch, hd]
  | case3 c m s u m' hs log e k t hd => rw [run_stepped h hs, ← tell_dispatch, hd]
  | case4 c m s u m' hs log k t hd _ log' r hr ih =>
    rw [run_stepped h hs, ← tell_dispatch, hd]
    exact (congrArg Prod.snd hr).symm.trans ih

end

/-! ## (1) Batches -/

/-- Actions of which only the last can be one that the machine waits for, or a quit. -/
inductive Batch (m : Machine) : List Action → Prop
  | nil : Batch m []
  | plain {a : Action} {as : List Action} : a.isPlain = true → Batch m as → Batch m (a :: as)
  | asks {a : Action} : a.awaitsReply = true → m.awaiting = true → Batch m [a]
  | quits : m.frames = [] → Batch m [.quit]

variable {as : List Action} {r : Except MachineError Unit} {a : Action} {log : List Event}

section

variable {m m' : Machine} {c : Signals}

theorem Batch.behind {bs : List Action} (has : ∀ a ∈ as, a.isPlain = true) (hb : Batch m bs) :
    Batch m (as ++ bs) := by
  induction as with
  | nil => exact hb
  | cons a as ih => exact .plain (has a List.mem_cons_self) (ih fun b hb' => has b (List.mem_cons_of_mem a hb'))

theorem batch_plain (has : ∀ a ∈ as, a.isPlain = true) : Batch m as :=
  List.append_nil as ▸ Batch.behind has .nil

theorem Batch.congr (hb : Batch m as) (hw : m'.awaiting = m.awaiting) (hf : m'.frames = m.frames) : Batch m' as := by
  induction hb with
  | nil => exact .nil
  | plain ha _ ih => exact .plain ha ih
  | asks ha h => exact .asks ha (hw.trans h)
  | quits h => exact .quits (hf.trans h)

theorem batch_terminate (hq : ∀ a ∈ m.queue, a.isPlain = true) (hf : m.frames = []) :
    Batch m.terminate m.terminate.queue := by
  unfold terminate
  split
  · exact batch_plain hq
  · exact .behind hq (.quits hf)

theorem batch_leave {f : Frame} {rest : List Frame} (hq : ∀ a ∈ m.queue, a.isPlain = true)
    (h : m.leave f rest = .ok m') : Batch m' m'.queue := by
  obtain ⟨fs, -, rfl⟩ := leave_ok.mp h
  split
  · rename_i he
    exact batch_terminate hq (List.isEmpty_iff.mp he)
  · exact batch_plain hq

/-- An instruction after which the machine can go on adds plain actions only. -/
theorem Does.plain {f : Frame} {rest : List Frame} {stop pc : Nat} {i : Instr} (h : Does m f rest stop pc i m')
    (hw : m'.awaiting = false) (hq : ∀ a ∈ m.queue, a.isPlain = true) : ∀ a ∈ m'.queue, a.isPlain = true := by
  cases h with
  | construct id =>
    intro a ha
    rcases List.mem_append.mp ha with ha | ha
    · exact hq a ha
    rcases List.mem_cons.mp ha with rfl | ha
    · rfl
    · obtain ⟨fd, -, rfl⟩ := List.mem_map.mp ha
      rfl
  | loadField id =>
    intro a ha
    rcases List.mem_append.mp ha with ha | ha
    · exact hq a ha
    · cases List.mem_singleton.mp ha
      rfl
  | ask => cases hw
  | _ => exact hq

theorem Steps.batch {n : Nat} (h : Steps c m n r m') (hr : r = .ok ())
    (hw : m.awaiting = false) (hq : ∀ a ∈ m.queue, a.isPlain = true) : Batch m' m'.queue := by
  induction h with
  | @go c m k m' n r ht _ ih =>
    cases turns_of_tick ht with
    | went _ _ _ _ _ he hw' => exact ih hr hw' ((exec_ok he).plain hw' hq)
  | @pause c m k ht =>
    cases turns_of_tick ht with
    | idle _ _ hf => exact batch_terminate hq hf
    | left _ _ _ _ _ hl => exact batch_leave hq hl
    | asked _ _ _ _ _ he hw' =>
      obtain ⟨as, callee, vs, os, a, -, -, -, ha, rfl⟩ := (exec_ok he).calls hw hw'
      exact .behind hq (.asks (asks_awaitsReply ha) rfl)
  | stop => cases hr

theorem step_batch {u : Unit} (hs : m.step c = (.ok u, m')) (hq : ∀ a ∈ m.queue, a.isPlain = true) :
    Batch m' m'.queue := by
  obtain ⟨n, hn⟩ := step_ends c m
  rw [hs] at hn
  cases hn with
  | ticked _ hw h => exact h.batch rfl hw hq

end

/-! ## (2) Orderly records -/

inductive Phase where
  | stepping
  | handing
  | replying (v : Option Value)

/-- `Orderly p q log e`: a record that goes on in the phase `p`, while the actions `q` are pending,
    and ends with the error `e`. -/
inductive Orderly : Phase → List Action → List Event → Option RunError → Prop
  | step {q as : List Action} {log : List Event} {e : Option RunError} : Orderly .handing (q ++ as) log e →
      Orderly .stepping q (.stepped (.ok ()) as :: log) e
  | fail (q as : List Action) (e : MachineError) : Orderly .stepping q [.stepped (.error e) as] (some (.machine e))
  | tell {a : Action} {q : List Action} {v : Option Value} {log : List Event} {e : Option RunError} :
      a.isPlain = true → Orderly .handing q log e → Orderly .handing (a :: q) (.handed a (.ok v) :: log) e
  | ask {a : Action} {v : Option Value} {log : List Event} {e : Option RunError} : a.awaitsReply = true →
      Orderly (.replying v) [] log e → Orderly .handing [a] (.handed a (.ok v) :: log) e
  | reply {v : Option Value} {log : List Event} {e : Option RunError} : Orderly .handing [] log e →
      Orderly (.replying v) [] (.resumed v (.ok ()) :: log) e
  | quit (v : Option Value) : Orderly .handing [.quit] [.handed .quit (.ok v)] none
  | refuse (a : Action) (q : List Action) (why : Text) :
      Orderly .handing (a :: q) [.handed a (.error why)] (some (.handling a why))
  | done {log : List Event} {e : Option RunError} : Orderly .stepping [] log e → Orderly .handing [] log e

/-- Handing the actions `as` over is an orderly part of a record: it leads to the next step, to the
    end of the run, or to an error. -/
def Settles (as : List Action) (log : List Event) : Round → Machine → Prop
  | .go, _ => ∀ log' e, Orderly .stepping [] log' e → Orderly .handing as (log ++ log') e
  | .quit, n => n.frames = [] ∧ Orderly .handing as log none
  | .failed e, _ => Orderly .handing as log (some e)

theorem Settles.plain {n : Machine} {r : Round} (ha : a.isPlain = true) (v : Option Value) (hs : Settles as log r n) :
    Settles (a :: as) (.handed a (.ok v) :: log) r n := by
  cases r with
  | go => exact fun log' e h => .tell ha (hs log' e h)
  | quit => exact ⟨hs.1, .tell ha hs.2⟩
  | failed e => exact .tell ha hs

section

variable {σ : Type} (h : Handler σ)

theorem tell_settles {m : Machine} (hb : Batch m as) (s : σ) :
    Settles as (tell h as m s).1 (tell h as m s).2.1 (tell h as m s).2.2.1 := by
  induction as generalizing m s with
  | nil => exact fun _ _ => .done
  | cons a as ih =>
    simp only [tell]
    generalize hn : (if (h.handle s a).1.abort = true then m.abort else m) = n
    have hb : Batch n (a :: as) := hb.congr (by rw [← hn]; split <;> rfl) (by rw [← hn]; split <;> rfl)
    cases (h.handle s a).1.result with
    | error why => exact .refuse a as why
    | ok v =>
      cases hb with
      | plain ha hb =>
        obtain ⟨hquit, hreply⟩ : a.isQuit = false ∧ a.awaitsReply = false := by simpa [Action.isPlain] using ha
        simp only [hquit, hreply, Bool.false_eq_true, if_false]
        exact (ih hb _).plain ha v
      | asks ha hw =>
        simp only [Action.not_quit ha, ha, Bool.false_eq_true, if_false, if_true, resume_eq hw]
        exact fun _ _ ho => .ask ha (.reply (.done ho))
      | quits hf => exact ⟨hf, .quit v⟩

/-- A round of a run: what is handed over after a step is what was pending and what the step added. -/
theorem round_settles {c : Signals} {m m' n : Machine} {s t : σ} {u : Unit} {r : Round}
    (hq : ∀ a ∈ m.queue, a.isPlain = true) (hs : m.step c = (.ok u, m'))
    (hd : tell h m'.drain.1 m'.drain.2 s = (log, r, n, t)) :
    Settles (m.queue ++ addedTo m m') log r n ∧ n.queue = [] := by
  have hbatch : Batch m'.drain.2 m'.drain.1 := (step_batch hs hq).congr rfl rfl
  have hsettles := tell_settles h hbatch s
  have hqueue := tell_queue h m'.drain.1 m'.drain.2 s
  have hadded : m'.queue = m.queue ++ addedTo m m' := by
    have := queue_step c m
    rwa [hs] at this
  rw [hd] at hsettles hqueue
  rw [← hadded]
  exact ⟨hsettles, hqueue⟩

/-- The record of a run is orderly, and a run that ends without an error leaves no frame. -/
theorem recorded_orderly (c : Schedule) (m : Machine) (s : σ) (hq : ∀ a ∈ m.queue, a.isPlain = true) :
    Orderly .stepping m.queue (m.recorded h c s).1 (m.recorded h c s).2.1 ∧
      ((m.recorded h c s).2.1 = none → (m.recorded h c s).2.2.1.frames = []) := by
  fun_induction recorded h c m s with
  | case1 c m s e m' hs => exact ⟨.fail _ _ e, fun he => by cases he⟩
  | case2 c m s u m' hs log n t hd =>
    have hround := (round_settles h hq hs hd).1
    exact ⟨.step hround.2, fun _ => hround.1⟩
  | case3 c m s u m' hs log e n t hd => exact ⟨.step (round_settles h hq hs hd).1, fun he => by cases he⟩
  | case4 c m s u m' hs log n t hd _ log' r hr ih =>
    obtain ⟨hround, hempty⟩ := round_settles h hq hs hd
    obtain ⟨horder, hframes⟩ := ih (by simp [hempty])
    rw [hr] at hframes horder
    rw [hempty] at horder
    exact ⟨.step (hround _ _ horder), hframes⟩

end

/-! ## (3) What follows from the order -/

def Event.phase : Event → Phase
  | .handed a (.ok v) => if a.awaitsReply then .replying v else .handing
  | _ => .handing

section

variable {p : Phase} {q : List Action} {e : Option RunError}

/-- Each event leaves the rest of the record orderly. What is pending was pending before, or was
    added, and was not handed over. -/
theorem Orderly.tail {x : Event} (ho : Orderly p q (x :: log) e) :
    ∃ q', x.told ++ q' = q ++ x.added ∧ (log = [] ∨ Orderly x.phase q' log e) := by
  generalize hl : x :: log = l at ho
  induction ho with
  | step ho =>
    cases hl
    exact ⟨_, rfl, .inr ho⟩
  | fail q as why =>
    cases hl
    exact ⟨_, rfl, .inl rfl⟩
  | @tell a q v log e ha ho =>
    cases hl
    have hreply : a.awaitsReply = false := by simp [Action.isPlain] at ha; exact ha.2
    refine ⟨q, (List.append_nil _).symm, .inr ?_⟩
    rw [Event.phase, hreply]
    exact ho
  | ask ha ho =>
    cases hl
    refine ⟨[], rfl, .inr ?_⟩
    rw [Event.phase, ha]
    exact ho
  | reply ho =>
    cases hl
    exact ⟨[], rfl, .inr ho⟩
  | quit v =>
    cases hl
    exact ⟨[], rfl, .inl rfl⟩
  | refuse a q why =>
    cases hl
    exact ⟨q, (List.append_nil _).symm, .inl rfl⟩
  | done _ ih => exact ih hl

def Phase.after (p : Phase) (pre : List Event) : Phase := pre.foldl (fun _ x => x.phase) p

variable {pre post : List Event}

/-- At any time, the rest of an orderly record is orderly. -/
theorem Orderly.split (ho : Orderly p q (pre ++ post) e) :
    ∃ q', handed pre ++ q' = q ++ emitted pre ∧ (post = [] ∨ Orderly (p.after pre) q' post e) := by
  induction pre generalizing p q with
  | nil => exact ⟨q, (List.append_nil q).symm, .inr ho⟩
  | cons x pre ih =>
    obtain ⟨q', hq', hend | ho'⟩ := ho.tail
    · obtain ⟨rfl, rfl⟩ := List.append_eq_nil_iff.mp hend
      exact ⟨q', by simpa [handed, emitted] using hq', .inl rfl⟩
    · obtain ⟨q'', hq'', hrest⟩ := ih ho'
      refine ⟨q'', ?_, hrest⟩
      calc handed (x :: pre) ++ q'' = x.told ++ (handed pre ++ q'') := List.append_assoc _ _ _
        _ = x.told ++ (q' ++ emitted pre) := by rw [hq'']
        _ = (q ++ x.added) ++ emitted pre := by rw [← List.append_assoc, hq']
        _ = q ++ emitted (x :: pre) := List.append_assoc _ _ _

/-- The same, at an event. -/
theorem Orderly.at {x : Event} (ho : Orderly p q (pre ++ x :: post) e) :
    ∃ q', handed pre ++ q' = q ++ emitted pre ∧ Orderly (p.after pre) q' (x :: post) e := by
  obtain ⟨q', hq', hend | ho'⟩ := ho.split
  · cases hend
  · exact ⟨q', hq', ho'⟩

theorem Phase.after_concat (p : Phase) (pre : List Event) (x : Event) : p.after (pre.concat x) = x.phase := by
  simp [Phase.after]

/-- Between rounds nothing is pending. -/
theorem Orderly.handed_eq (ho : Orderly p q (pre ++ .stepped r as :: post) e) (hpre : pre ≠ []) :
    handed pre = q ++ emitted pre := by
  obtain ⟨q', hq', ho'⟩ := ho.at
  rcases pre.eq_nil_or_concat with rfl | ⟨pre, x, rfl⟩
  · exact absurd rfl hpre
  have hphase : x.phase ≠ .stepping := by
    unfold Event.phase
    split
    · split <;> simp
    · simp
  rw [Phase.after_concat] at ho'
  generalize x.phase = p' at ho' hphase
  cases ho' with
  | step | fail => exact absurd rfl hphase
  | done => exact (List.append_nil _).symm.trans hq'

/-- A step that fails is the last event. -/
theorem Orderly.of_error {why : MachineError} (ho : Orderly p q (pre ++ .stepped (.error why) as :: post) e) :
    post = [] ∧ e = some (.machine why) := by
  obtain ⟨q', -, ho'⟩ := ho.at
  generalize p.after pre = p' at ho'
  cases ho' with
  | fail => exact ⟨rfl, rfl⟩
  | done ho' => cases ho' with
    | fail => exact ⟨rfl, rfl⟩

/-- The answer to a question is passed on before anything else, and then the machine takes a step. -/
theorem Orderly.answered {v : Option Value}
    (ho : Orderly p q (pre ++ .handed a (.ok v) :: post) e) (ha : a.awaitsReply = true) :
    ∃ r as post', post = .resumed v (.ok ()) :: .stepped r as :: post' := by
  obtain ⟨q', -, ho'⟩ := ho.at
  generalize p.after pre = p' at ho'
  cases ho' with
  | tell hplain => simp [Action.isPlain, ha] at hplain
  | ask _ hreply =>
    cases hreply with
    | reply hdone =>
      cases hdone with
      | done hstep => cases hstep <;> exact ⟨_, _, _, rfl⟩
  | quit => cases ha
  | done ho' => cases ho'

/-- A reply is passed on without an error, right after the question that it answers. -/
theorem Orderly.replied {v : Option Value} (ho : Orderly .stepping q (pre ++ .resumed v r :: post) e) :
    r = .ok () ∧ ∃ pre' a, pre = pre' ++ [.handed a (.ok v)] ∧ a.awaitsReply = true := by
  obtain ⟨q', -, ho'⟩ := ho.at
  generalize hp : Phase.after .stepping pre = p' at ho'
  cases ho' with
  | done ho' => cases ho'
  | reply =>
    refine ⟨rfl, ?_⟩
    rcases pre.eq_nil_or_concat with rfl | ⟨pre, x, rfl⟩
    · cases hp
    rw [Phase.after_concat] at hp
    unfold Event.phase at hp
    split at hp
    · split at hp
      · rename_i a u ha
        cases hp
        exact ⟨pre, a, List.concat_eq_append, ha⟩
      · cases hp
    · cases hp

/-- A quit is the last action that is handed over. -/
theorem Orderly.of_quit {r : Except Text (Option Value)}
    (ho : Orderly p q (pre ++ .handed .quit r :: post) e) : post = [] ∧ (e = none ↔ ∃ v, r = .ok v) := by
  obtain ⟨q', -, ho'⟩ := ho.at
  generalize p.after pre = p' at ho'
  cases ho' with
  | tell hplain => cases hplain
  | ask ha => cases ha
  | quit v => simp
  | refuse => simp
  | done ho' => cases ho'

/-- A record that ends without an error ends with a quit. -/
theorem Orderly.ends (ho : Orderly p q log e) (he : e = none) : ∃ pre v, log = pre ++ [.handed .quit (.ok v)] := by
  induction ho with
  | step _ ih | tell _ _ ih | ask _ _ ih | reply _ ih =>
    obtain ⟨pre, v, rfl⟩ := ih he
    exact ⟨_ :: pre, v, rfl⟩
  | quit v => exact ⟨[], v, rfl⟩
  | fail | refuse => cases he
  | done _ ih => exact ih he

theorem mem_handed (h : a ∈ handed log) : ∃ r, .handed a r ∈ log := by
  obtain ⟨x, hx, ha⟩ := List.mem_flatMap.mp h
  cases x with
  | handed b r =>
    cases List.mem_singleton.mp ha
    exact ⟨r, hx⟩
  | _ => cases ha

/-- If there is no error, then everything was handed over, and the only quit came last. -/
theorem Orderly.handed_all (ho : Orderly p q log none) :
    handed log = q ++ emitted log ∧ ∃ as, handed log = as ++ [.quit] ∧ .quit ∉ as := by
  obtain ⟨pre, v, rfl⟩ := ho.ends rfl
  obtain ⟨q', hq', ho'⟩ := ho.at
  have hpending : q' = [.quit] := by
    generalize p.after pre = p' at ho'
    cases ho' with
    | quit => rfl
    | tell hplain => cases hplain
    | ask ha => cases ha
    | done ho' => cases ho'
  have hhanded : handed (pre ++ [.handed .quit (.ok v)]) = handed pre ++ [.quit] := by simp [handed, Event.told]
  refine ⟨?_, handed pre, hhanded, ?_⟩
  · rw [hhanded, ← hpending, hq']
    simp [emitted, Event.added]
  · intro hmem
    obtain ⟨r, hr⟩ := mem_handed hmem
    obtain ⟨pre₁, pre₂, rfl⟩ := List.append_of_mem hr
    rw [List.append_assoc] at ho
    have := ho.of_quit.1
    simp at this

end

/-- What a run hands over is what the machine emits, for every handler and for every machine whose
    queue holds neither a question nor a quit. -/
theorem run_hands_over {σ : Type} (h : Handler σ) (c : Schedule) (m : Machine) (s : σ)
    (hq : ∀ a ∈ m.queue, a.isQuit = false ∧ a.awaitsReply = false) :
    ∃ log, m.recorded h c s = (log, m.run h c s) ∧
      -- in order and each once, and never before it is emitted
      (∀ pre, pre <+: log → handed pre <+: m.queue ++ emitted pre) ∧
      -- all of it before the next step
      (∀ pre r as post, log = pre ++ .stepped r as :: post → pre ≠ [] → handed pre = m.queue ++ emitted pre) ∧
      -- questions are answered at once, and nothing else is
      (∀ pre a v post, log = pre ++ .handed a (.ok v) :: post → a.awaitsReply = true →
        ∃ r as post', post = .resumed v (.ok ()) :: .stepped r as :: post') ∧
      (∀ pre v r post, log = pre ++ .resumed v r :: post →
        r = .ok () ∧ ∃ pre' a, pre = pre' ++ [.handed a (.ok v)] ∧ a.awaitsReply = true) ∧
      -- a run succeeds by a quit
      ((m.run h c s).1 = none ↔ ∃ v, .handed .quit (.ok v) ∈ log) ∧
      ((m.run h c s).1 = none → handed log = m.queue ++ emitted log ∧
        (∃ as, handed log = as ++ [.quit] ∧ .quit ∉ as) ∧ (m.run h c s).2.1.frames = []) ∧
      -- a step that fails ends the run with its error
      ∀ pre e as post, log = pre ++ .stepped (.error e) as :: post → post = [] ∧ (m.run h c s).1 = some (.machine e) := by
  have hplain : ∀ a ∈ m.queue, a.isPlain = true := by
    intro a ha
    simp [Action.isPlain, hq a ha]
  obtain ⟨ho, hframes⟩ := recorded_orderly h c m s hplain
  rw [recorded_run] at ho hframes
  refine ⟨(m.recorded h c s).1, by rw [← recorded_run], ?_, ?_, ?_, ?_, ?_, ?_, ?_⟩
  · rintro pre ⟨post, hpost⟩
    rw [← hpost] at ho
    obtain ⟨q', hq', -⟩ := ho.split
    exact ⟨q', hq'⟩
  · intro pre r as post hlog hpre
    rw [hlog] at ho
    exact ho.handed_eq hpre
  · intro pre a v post hlog ha
    rw [hlog] at ho
    exact ho.answered ha
  · intro pre v r post hlog
    rw [hlog] at ho
    exact ho.replied
  · constructor
    · intro he
      obtain ⟨pre, v, hlog⟩ := ho.ends he
      exact ⟨v, hlog ▸ List.mem_append_right pre List.mem_cons_self⟩
    · rintro ⟨v, hv⟩
      obtain ⟨pre, post, hlog⟩ := List.append_of_mem hv
      rw [hlog] at ho
      exact ho.of_quit.2.mpr ⟨v, rfl⟩
  · intro he
    rw [he] at ho
    obtain ⟨hall, hlast⟩ := ho.handed_all
    exact ⟨hall, hlast, hframes he⟩
  · intro pre e as post hlog
    rw [hlog] at ho
    exact ho.of_error

/-- A machine that calls a function of its host, and that has an object to dispose of. -/
def asking : Machine where
  program := { slots := [⟨some [⟨.loadIdent, 0⟩, ⟨.call, 0⟩], none⟩] }
  fallback := true
  frames := [{ name := [], block := 0, scope := 0 }]
  queue := [.destruct 7]

def answered : Machine :=
  { asking with
    queue := []
    frames := [{ name := [], block := 0, scope := 0, pc := 2, operands := [⟨some .none, none⟩] }] }

/-- Two steps and three actions: the one that was pending, the call, and the quit. -/
theorem run_hands_over_asking :
    ∃ log m', asking.recorded .discard false () = (log, none, m', ()) ∧ handed log = .destruct 7 :: emitted log ∧
      (∃ as, handed log = as ++ [.quit] ∧ .quit ∉ as) ∧ m'.frames = [] := by
  have first : asking.step false = (.ok (), (asking.step false).2) := rfl
  have round : dispatch .discard (asking.step false).2.drain.1 (asking.step false).2.drain.2 () = (.go, answered, ()) := rfl
  have second : answered.step false = (.ok (), (answered.step false).2) := rfl
  have quits : (asking.run .discard false ()).1 = none := by
    rw [run_stepped .discard first, round]
    change (run .discard false answered ()).1 = none
    rw [run_stepped .discard second]
    rfl
  obtain ⟨log, hlog, -, -, -, -, -, hall, -⟩ := run_hands_over .discard false asking () (by
    intro a ha
    cases List.mem_singleton.mp ha
    exact ⟨rfl, rfl⟩)
  refine ⟨log, (asking.run .discard false ()).2.1, ?_, hall quits⟩
  rw [hlog, ← quits]

end Machine

end Scriptlet

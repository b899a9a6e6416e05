/-
  Scriptlet.Proofs.Sessions — of which objects a host hears in the course of a session.

  In a session one text after the other is loaded into the same machine and run with the same
  handler, and a machine that halted is reset (`Machine.converse`, of which the lines of a
  `Session` are a case: `Session.program_evaluate`). Actions mention objects: by their numbers, and
  in the values of fields and arguments.

  (1) Code mentions only what it can reach (`Log.Presumes`): what was there before, or was made in
      the meantime (`step_presumes`).
  (2) Along a record, what the handler replies comes into reach too (`Grounds`, `recorded_grounds`).
  (3) A turn leaves the machine ready for the next one (`Ready.evaluate`).

  So an action about an object comes after the news that the object was made, unless the handler
  itself brought the object in, or the news was lost (`Turn.Loses`). News is lost with a run that
  fails: the step that halts the machine may have made objects, whose actions are given up, while
  the names that were bound to them stay bound. A host may then hear of an object that it was never
  told of.
-/

import Scriptlet.Session
import Scriptlet.Proofs.Dispatch
import Scriptlet.Proofs.Mirror

namespace Scriptlet

open Log
open List (forall_mem_cons mem_singleton append_assoc mem_flatMap)

def Value.Holds (v : Option Value) (id : Int) : Prop := ∃ u o, v = some u ∧ u.Contains o ∧ o.id = id

/-- The action is about the object, or brings it along. -/
def Action.Mentions (id : Int) : Action → Prop
  | .loadField i _ => i = id
  | .storeField i _ v => i = id ∨ Value.Holds v id
  | .call _ _ args => ∃ v ∈ args, Value.Holds (some v) id
  | _ => False

variable {K : Int → Prop} {id : Int} {c : Signals} {m : Machine} {a : Action} {σ : Type}

namespace Log

def known (K : Int → Prop) (log : List Action) (id : Int) : Prop := K id ∨ id ∈ made log

/-- Objects outside of `K` are mentioned only after they were made. -/
def Presumes (K : Int → Prop) : List Action → Prop
  | [] => True
  | a :: as => (∀ id, a.Mentions id → K id) ∧ Presumes (known K [a]) as

variable {L : Int → Prop} {as bs : List Action}

theorem known_nil (K : Int → Prop) : known K [] = K := by
  funext id
  simp [known, made]

theorem known_known (K : Int → Prop) (as bs : List Action) : known (known K as) bs = known K (as ++ bs) := by
  funext id
  simp [known, made_append, or_assoc]

theorem known_mono (h : ∀ id, K id → L id) (id : Int) (hid : known K as id) : known L as id := hid.imp_left (h id)

theorem presumes_append : Presumes K (as ++ bs) ↔ Presumes K as ∧ Presumes (known K as) bs := by
  induction as generalizing K with
  | nil => simp [Presumes, known_nil]
  | cons a as ih => simp only [List.cons_append, Presumes, ih, known_known, List.nil_append, and_assoc]

theorem Presumes.mono (h : ∀ id, K id → L id) (has : Presumes K as) : Presumes L as := by
  induction as generalizing K L with
  | nil => trivial
  | cons a as ih => exact ⟨fun id hid => h id (has.1 id hid), ih (known_mono h) has.2⟩

theorem mem_made {log : List Action} : id ∈ made log ↔ ∃ type, .construct id type ∈ log := by
  simp only [made, List.mem_filterMap]
  constructor
  · rintro ⟨a, ha, hid⟩
    cases a with
    | construct i type =>
      cases hid
      exact ⟨type, ha⟩
    | _ => cases hid
  · rintro ⟨type, hmem⟩
    exact ⟨_, hmem, rfl⟩

/-- A new object is reported before its fields are. -/
theorem presumes_report (id : Int) (type : Text) {fields : List Field} (h : ∀ fd ∈ fields, Value.Within K fd.value) :
    Presumes K (report id type fields) := by
  have stores {L : Int → Prop} (hid : L id) (hL : ∀ fd ∈ fields, Value.Within L fd.value) :
      Presumes L (fields.map fun fd => .storeField id fd.name fd.value) := by
    clear h
    induction fields generalizing L with
    | nil => trivial
    | cons fd fields ih =>
      simp only [forall_mem_cons] at hL
      refine ⟨?_, ih (.inl hid) fun fd hfd => (hL.2 fd hfd).mono (fun _ => .inl) _⟩
      rintro i (rfl | ⟨u, o, hu, ho, rfl⟩)
      · exact hid
      · exact hL.1 u o hu ho
  refine ⟨fun i hi => hi.elim, stores (.inr (mem_singleton.mpr rfl)) fun fd hfd => ?_⟩
  exact (h fd hfd).mono (fun _ => .inl) _

end Log

namespace Machine

/-! ## (1) Steps -/

section

variable {m' : Machine} {f : Frame} {rest : List Frame} {stop pc : Nat} {i : Instr}

theorem addedTo_eq (as : List Action) (h : m'.queue = m.queue ++ as) : addedTo m m' = as := by
  rw [addedTo, h, List.drop_left]

/-- A call brings its arguments along, and the receiver of a method. -/
theorem asks_mentions {callee : Operand} {args : List Value}
    (ha : m.asks callee args = some a) (hid : a.Mentions id) :
    (∃ v ∈ args, Value.Holds (some v) id) ∨ Value.Holds callee.value id := by
  unfold asks at ha
  split at ha
  · cases ha
    exact .inl hid
  · rename_i symbol name o hcallee
    cases ha
    obtain ⟨v, hv, hholds⟩ := hid
    rcases List.mem_cons.mp hv with rfl | hv
    · right
      obtain ⟨u, p, hu, hp, rfl⟩ := hholds
      cases hu
      exact ⟨_, p, hcallee, .receiver hp, rfl⟩
    · exact .inl ⟨v, hv, hholds⟩
  · split at ha
    · split at ha <;> cases ha
      exact hid.elim
    · cases ha
  · split at ha <;> cases ha
    exact .inl hid
  · cases ha

/-- An instruction mentions objects of its operands and of the fields that were collected. -/
theorem Does.presumes (h : Does m f rest stop pc i m') (hf : f.All (Value.Within K)) : Presumes K (addedTo m m') := by
  cases h with
  | construct id =>
    rw [addedTo_eq (report _ _ f.closeGroup.1) rfl]
    exact presumes_report _ _ hf.closeGroup.1
  | @ask as os vs callee a ho hv ha =>
    rw [addedTo_eq [a] rfl]
    refine ⟨fun id hid => ?_, trivial⟩
    have hargs := hv.all fun o hm => hf.operands o (by simp [ho, List.mem_reverse.mpr hm])
    rcases asks_mentions ha hid with ⟨v, hmem, u, o, hu, hin, rfl⟩ | ⟨u, o, hu, hin, rfl⟩
    · exact hargs v hmem u o hu hin
    · exact hf.operands callee (by simp [ho]) u o hu hin
  | @loadField id o j os ho =>
    rw [addedTo_eq [.loadField o.id (m.name id)] rfl]
    refine ⟨fun id hid => ?_, trivial⟩
    cases hid
    exact hf.operands ⟨some (.object o), j⟩ (by simp [ho]) _ o rfl .self
  | _ =>
    show Presumes K (m.queue.drop m.queue.length)
    rw [List.drop_length]
    trivial

/-- An object that is made is among the actions. -/
theorem Does.made (h : Does m f rest stop pc i m') (hlast : m.registry.last < m'.registry.last) :
    (m.registry.last + 1 : Int) ∈ made (addedTo m m') := by
  cases h with
  | construct id =>
    rw [addedTo_eq (report (m.registry.newObject (.inner m.fresh) id (m.name id) f.closeGroup.1).1.id _ _) rfl,
      made_report, Registry.newObject_id]
    exact mem_singleton.mpr rfl
  | _ => exact absurd hlast (Nat.lt_irrefl _)

/-- The machine runs code of the compiler, which can reach no objects outside of `K`. -/
structure Reaches (K : Int → Prop) (m : Machine) : Prop where
  sourced : ∃ S, m.program.Sourced S
  all : m.All (Value.Within K)

theorem Reaches.mono {L : Int → Prop} (h : ∀ id, K id → L id) (hm : Reaches K m) : Reaches L m :=
  ⟨hm.sourced, hm.all.mono (Value.Within.mono h)⟩

/-- Since the queue was `q`, code mentioned only what it could reach: what was in `K`, and what was made in the
    meantime. -/
def Confined (K : Int → Prop) (q : List Action) (m : Machine) : Prop :=
  ∃ as, m.queue = q ++ as ∧ Log.Presumes K as ∧ Reaches (Log.known K as) m

theorem Confined.withFrames {q : List Action} {fs : List Frame} (h : Confined K q m)
    (hfs : ∀ {V : Option Value → Prop}, Value.Inherited V → (∀ f ∈ m.frames, f.All V) → ∀ f ∈ fs, f.All V) :
    Confined K q (m.withFrames fs) := by
  obtain ⟨as, hq, hp, hm⟩ := h
  exact ⟨as, hq, hp, hm.sourced, hm.all.scopes, hfs (Value.inherited_within _) hm.all.frames⟩

theorem kept_confined (K : Int → Prop) (q : List Action) : Kept (Confined K q) where
  exec {m m' f rest code i} h _ hf _ _ hd := by
    obtain ⟨as, hq, hp, hm⟩ := h
    obtain ⟨S, hS⟩ := hm.sourced
    have hframes : ∀ g ∈ f :: rest, g.All (Value.Within (known K as)) := hf ▸ hm.all.frames
    simp only [forall_mem_cons] at hframes
    have hf' : ({ f with pc := f.pc + 1 } : Frame).All (Value.Within (known K as)) :=
      ⟨hframes.1.operands, hframes.1.groups, hframes.1.result⟩
    obtain ⟨new, hnew⟩ := hd.queue
    obtain rfl := addedTo_eq _ hnew.symm
    refine ⟨as ++ addedTo m m', ?_, presumes_append.mpr ⟨hp, hd.presumes hf'⟩, ⟨S, hd.program ▸ hS⟩, ?_⟩
    · rw [← hnew, hq, append_assoc]
    · rw [← known_known]
      have grow := Value.Within.mono (Q := known (known K as) (addedTo m m')) fun _ => .inl
      exact hd.within hS.consts (hm.all.scopes.mono grow) (hf'.mono grow) (fun g hg => (hframes.2 g hg).mono grow)
        fun hlast => .inr (hd.made hlast)
  spend {m f g rest} h hf hg := by
    refine h.withFrames fun _ hall => ?_
    rw [hf, forall_mem_cons] at hall
    exact forall_mem_cons.mpr ⟨hall.1.spend hg, hall.2⟩
  drop {m f rest} h hf := h.withFrames fun _ hall g hg => hall g (by simp [hf, hg])
  deliver {m f rest v} h hf hv := by
    refine h.withFrames fun hV hall => ?_
    rw [hf] at hall
    simp only [forall_mem_cons] at hall
    exact all_deliver (all_frameResult hV hv hall.1) hall.2
  terminate {m} h := by
    unfold Machine.terminate
    split
    · exact h
    · obtain ⟨as, hq, hp, hm⟩ := h
      have hquit : Presumes (known K as) [.quit] := ⟨fun id hid => hid.elim, trivial⟩
      refine ⟨as ++ [.quit], ?_, presumes_append.mpr ⟨hp, hquit⟩, ?_⟩
      · show m.queue ++ [.quit] = q ++ (as ++ [.quit])
        rw [hq, append_assoc]
      · rw [← known_known]
        exact Reaches.mono (fun _ => .inl) ⟨hm.sourced, hm.all.scopes, hm.all.frames⟩
  abort h := by
    obtain ⟨as, hq, hp, hm⟩ := h
    exact ⟨as, hq, hp, hm.sourced, hm.all.scopes, hm.all.frames⟩
  halt _ h _ := by
    obtain ⟨as, hq, hp, hm⟩ := h
    exact ⟨as, hq, hp, hm.sourced, hm.all.scopes, hm.all.frames⟩

/-- A step mentions what was in reach, and what it made. -/
theorem step_presumes (hm : Reaches K m) (c : Signals) :
    Presumes K (addedTo m (m.step c).2) ∧ Reaches (known K (addedTo m (m.step c).2)) (m.step c).2 := by
  have hstart : Confined K m.queue m := by
    refine ⟨[], (List.append_nil _).symm, trivial, ?_⟩
    rwa [known_nil]
  obtain ⟨as, hq, hp, hr⟩ := (kept_confined K m.queue).step (c := c) hstart
  rw [addedTo_eq as hq]
  exact ⟨hp, hr⟩

end

/-! ## (2) Records -/

def Event.Brings (id : Int) : Event → Prop
  | .stepped _ as => id ∈ Log.made as
  | .handed .. => False
  | .resumed v _ => Value.Holds v id

/-- What is in reach after the events, if `K` was in reach before. -/
def learned (K : Int → Prop) (log : List Event) (id : Int) : Prop := K id ∨ ∃ x ∈ log, x.Brings id

/-- Every step mentions what was in reach, and what it made. -/
def Grounds (K : Int → Prop) : List Event → Prop
  | [] => True
  | x :: log => Log.Presumes K x.added ∧ Grounds (learned K [x]) log

def Replied (log : List Event) (id : Int) : Prop := ∃ v r, .resumed v r ∈ log ∧ Value.Holds v id

section

variable {L : Int → Prop} {log log' : List Event}

theorem learned_nil (K : Int → Prop) : learned K [] = K := by
  funext id
  simp [learned]

theorem learned_learned (K : Int → Prop) (log log' : List Event) :
    learned (learned K log) log' = learned K (log ++ log') := by
  funext id
  simp [learned, or_assoc, or_and_right, exists_or]

theorem grounds_append : Grounds K (log ++ log') ↔ Grounds K log ∧ Grounds (learned K log) log' := by
  induction log generalizing K with
  | nil => simp [Grounds, learned_nil]
  | cons x log ih => simp only [List.cons_append, Grounds, ih, learned_learned, List.nil_append, and_assoc]

theorem emitted_append (log log' : List Event) : emitted (log ++ log') = emitted log ++ emitted log' :=
  List.flatMap_append

theorem handed_append (log log' : List Event) : handed (log ++ log') = handed log ++ handed log' :=
  List.flatMap_append

/-- What is mentioned was there before, was made before, or came with a reply. -/
theorem Grounds.presumes (h : Grounds K log) : Presumes (fun id => K id ∨ Replied log id) (emitted log) := by
  induction log generalizing K with
  | nil => trivial
  | cons x log ih =>
    refine presumes_append.mpr ⟨h.1.mono fun _ => .inl, (ih h.2).mono ?_⟩
    rintro id ((hid | ⟨y, hy, hid⟩) | ⟨v, r, hmem, hid⟩)
    · exact .inl (.inl hid)
    · -- An object that comes with an event was made in a step, or was inside of a reply.
      cases mem_singleton.mp hy
      cases x with
      | stepped r as => exact .inr hid
      | handed a r => exact hid.elim
      | resumed v r => exact .inl (.inr ⟨v, r, List.mem_cons_self, hid⟩)
    · exact .inl (.inr ⟨v, r, List.mem_cons_of_mem _ hmem, hid⟩)

end

section

variable (h : Handler σ)

/-- A reply brings its objects into reach. -/
theorem Reaches.resume (hm : Reaches K m) (v : Option Value) (r : Except MachineError Unit) :
    Reaches (learned K [.resumed v r]) (m.resume v).2 := by
  have hgrown : Reaches (learned K [.resumed v r]) m := hm.mono fun _ => .inl
  cases hw : m.awaiting with
  | false =>
    rw [resume_refused hw]
    exact hgrown
  | true =>
    rw [resume_eq hw]
    refine ⟨hgrown.sourced, hgrown.all.scopes, all_deliver ?_ hgrown.all.frames⟩
    cases v with
    | none => exact (Value.inherited_within _).flat rfl
    | some u =>
      intro w o hw' ho
      exact .inr ⟨_, mem_singleton.mpr rfl, w, o, hw', ho, rfl⟩

/-- While actions are handed over, only replies come into reach. -/
theorem tell_reaches (as : List Action) (hm : Reaches K m) (s : σ) :
    Grounds K (tell h as m s).1 ∧ Reaches (learned K (tell h as m s).1) (tell h as m s).2.2.1 := by
  induction as generalizing K m s with
  | nil =>
    refine ⟨trivial, ?_⟩
    show Reaches (learned K []) m
    rwa [learned_nil]
  | cons a as ih =>
    simp only [tell]
    generalize hn : (if (h.handle s a).1.abort = true then m.abort else m) = n
    have hn' (r : Except Text (Option Value)) : Reaches (learned K [.handed a r]) n := by
      refine Reaches.mono (fun _ => .inl) ?_
      rw [← hn]
      split
      · exact ⟨hm.sourced, hm.all.scopes, hm.all.frames⟩
      · exact hm
    have first (r : Except Text (Option Value)) {log : List Event} (hg : Grounds (learned K [.handed a r]) log) :
        Grounds K (.handed a r :: log) := ⟨trivial, hg⟩
    have behind (x : Event) {log : List Event} {L : Int → Prop} {k : Machine}
        (hk : Reaches (learned (learned L [x]) log) k) : Reaches (learned L (x :: log)) k := by
      rwa [learned_learned] at hk
    cases (h.handle s a).1.result with
    | error why => exact ⟨first _ trivial, hn' _⟩
    | ok v =>
      simp only
      split
      · exact ⟨first _ trivial, hn' _⟩
      split
      · have hresumed := (hn' (.ok v)).resume v
        generalize n.resume v = x at hresumed ⊢
        rcases x with ⟨e | u, k⟩
        · exact ⟨first _ ⟨trivial, trivial⟩, behind _ (hresumed (.error e))⟩
        · obtain ⟨hg, hr⟩ := ih (hresumed (.ok ())) (h.handle s a).2
          exact ⟨first _ ⟨trivial, hg⟩, behind _ (behind _ hr)⟩
      · obtain ⟨hg, hr⟩ := ih (hn' (.ok v)) (h.handle s a).2
        exact ⟨first _ hg, behind _ hr⟩

/-- What a run mentions was in reach, was made in the run, or came with a reply. -/
theorem recorded_grounds (c : Schedule) (hm : Reaches K m) (s : σ) :
    Grounds K (m.recorded h c s).1 ∧ Reaches (learned K (m.recorded h c s).1) (m.recorded h c s).2.2.1 := by
  -- A step and the round after it, up to the machine with which the run goes on.
  have round {c : Schedule} {K : Int → Prop} {m m' n : Machine} {s t : σ} {u : Unit} {r : Round} {log : List Event}
      (hm : Reaches K m) (hs : m.step (c 0) = (.ok u, m')) (hd : tell h m'.drain.1 m'.drain.2 s = (log, r, n, t)) :
      Grounds K (.stepped (.ok ()) (addedTo m m') :: log) ∧
        Reaches (learned K (.stepped (.ok ()) (addedTo m m') :: log)) n := by
    obtain ⟨hp, hr⟩ := step_presumes hm (c 0)
    rw [hs] at hp hr
    have hr : Reaches (learned K [.stepped (.ok ()) (addedTo m m')]) m'.drain.2 := by
      refine Reaches.mono (fun id hid => ?_) ⟨hr.sourced, hr.all.scopes, hr.all.frames⟩
      exact hid.imp_right fun hid => ⟨_, mem_singleton.mpr rfl, hid⟩
    have htold := tell_reaches h m'.drain.1 hr s
    rw [hd, learned_learned] at htold
    exact ⟨⟨hp, htold.1⟩, htold.2⟩
  fun_induction recorded h c m s generalizing K with
  | case1 c m s e m' hs =>
    obtain ⟨hp, hr⟩ := step_presumes hm (c 0)
    rw [hs] at hp hr
    refine ⟨⟨hp, trivial⟩, hr.mono fun id hid => ?_⟩
    exact hid.imp_right fun hid => ⟨_, mem_singleton.mpr rfl, hid⟩
  | case2 c m s u m' hs log n t hd => exact round hm hs hd
  | case3 c m s u m' hs log e n t hd => exact round hm hs hd
  | case4 c m s u m' hs log n t hd _ log' r hr ih =>
    obtain ⟨hg, hn⟩ := round hm hs hd
    have hrest := ih hn
    rw [hr, learned_learned] at hrest
    exact ⟨grounds_append.mpr ⟨hg, hrest.1⟩, hrest.2⟩

end

/-! ## (3) Turns -/

structure Turn where
  log : List Event
  error : Option RunError

section

variable (h : Handler σ)

/-- Loads a text and runs it, and resets the machine if it halted. -/
def evaluate (name src : Text) (m : Machine) (s : σ) : Turn × Machine × σ :=
  match m.load name src with
  | (.error e, m) => (⟨[], some (.machine e)⟩, m, s)
  | (.ok _, m) =>
    let (log, e, m, s) := m.recorded h false s
    (⟨log, e⟩, if m.halted.isSome then m.reset else m, s)

/-- A session: texts with the names of their units, one after the other. -/
def converse (m : Machine) (s : σ) : List (Text × Text) → List Turn
  | [] => []
  | (name, src) :: texts =>
    let (t, m, s) := evaluate h name src m s
    t :: converse m s texts

end

end Machine

/-- A line of a session that is not a command is a turn, with the console for a handler. -/
theorem Session.program_evaluate (s : Session) (line : Text) :
    ∃ t, Machine.evaluate (Console.handler s.verbose) ("line " ++ Text.ofNat (s.count + 1)) line s.machine s.output =
        (t, (s.program line).2.machine, (s.program line).2.output) ∧
      (s.program line).1 = t.error.elim .done fun e => .failed (.run e) := by
  unfold Session.program Machine.evaluate
  simp only
  rcases s.machine.load ("line " ++ Text.ofNat (s.count + 1)) line with ⟨e | u, m⟩
  · exact ⟨_, rfl, rfl⟩
  · simp only [Machine.runReset, ← Machine.recorded_run]
    rcases m.recorded (Console.handler s.verbose) false s.output with ⟨log, e | e, n, out⟩
    · exact ⟨_, rfl, rfl⟩
    · exact ⟨_, rfl, rfl⟩

namespace Machine

/-- There is nothing to tell but that objects are to be disposed of. -/
def Disposes (q : List Action) : Prop := ∀ a ∈ q, ∃ id, a = .destruct id

inductive Turn.Proper : Turn → Prop
  | refused (e : RunError) : Proper ⟨[], some e⟩
  | ran {q : List Action} {log : List Event} {e : Option RunError} : Disposes q → Orderly .stepping q log e → Proper ⟨log, e⟩

structure Ready (K : Int → Prop) (m : Machine) : Prop extends Reaches K m where
  queue : Disposes m.queue

section

variable {m' : Machine}

theorem Ready.becomes {name : Text} {ns : List Node} (hm : Ready K m) (hb : Becomes m name ns m') : Ready K m' := by
  have hsourced := (hb.grown hm.sourced).2
  have entered (f : Frame) (ho : f.operands = []) (hg : f.groups = []) (hr : f.result = none) :
      ∀ g ∈ f :: m.frames, g.All (Value.Within K) := by
    simp only [forall_mem_cons]
    refine ⟨⟨by simp [ho], by simp [hg], ?_⟩, hm.all.frames⟩
    rw [hr]
    exact (Value.inherited_within K).none
  cases hb with
  | refused => exact hm
  | failedAgain | failedNew => exact ⟨⟨hsourced, hm.all.scopes, hm.all.frames⟩, hm.queue⟩
  | again =>
    refine ⟨⟨hsourced, hm.all.scopes, entered _ rfl rfl rfl⟩, fun a ha => ?_⟩
    rcases List.mem_append.mp ha with ha | ha
    · exact hm.queue a ha
    · obtain ⟨id, -, rfl⟩ := List.mem_map.mp ha
      exact ⟨id, rfl⟩
  | new => exact ⟨⟨hsourced, hm.all.scopes, entered _ rfl rfl rfl⟩, hm.queue⟩

theorem Ready.load (hm : Ready K m) (name src : Text) : Ready K (m.load name src).2 := by
  rcases load_becomes m name src with e | ⟨ns, hb⟩
  · rw [e]
    exact hm
  · exact hm.becomes hb

theorem Steps.stops {n : Nat} {r : Except MachineError Unit} (h : Steps c m n r m') :
    r = .ok () ∨ m'.halted.isSome = true := by
  induction h with
  | go _ _ ih => exact ih
  | pause => exact .inl rfl
  | stop => exact .inr rfl

/-- A step that fails halts the machine, or is refused. -/
theorem step_stops {e : MachineError} (hs : m.step c = (.error e, m')) : m'.halted.isSome = true ∨ m' = m := by
  obtain ⟨n, hn⟩ := step_ends c m
  rw [hs] at hn
  cases hn with
  | halted | awaiting => exact .inr rfl
  | ticked _ _ h =>
    rcases h.stops with he | hh
    · cases he
    · exact .inl hh

variable (h : Handler σ)

/-- A run leaves nothing in the queue, unless the machine halts. -/
theorem recorded_queue (c : Schedule) (s : σ) (hq : Disposes m.queue) :
    (m.recorded h c s).2.2.1.halted.isSome = true ∨ Disposes (m.recorded h c s).2.2.1.queue := by
  have told {m n : Machine} {s t : σ} {r : Round} {log : List Event}
      (hd : tell h m.drain.1 m.drain.2 s = (log, r, n, t)) : Disposes n.queue := by
    have hn := tell_queue h m.drain.1 m.drain.2 s
    rw [hd] at hn
    rw [show n.queue = [] from hn]
    simp [Disposes]
  fun_induction recorded h c m s with
  | case1 c m s e m' hs =>
    rcases step_stops hs with hh | rfl
    · exact .inl hh
    · -- The step was refused, and the queue is as it was.
      exact .inr hq
  | case2 c m s u m' hs log n t hd => exact .inr (told hd)
  | case3 c m s u m' hs log e n t hd => exact .inr (told hd)
  | case4 c m s u m' hs log n t hd _ log' r hr ih =>
    have hrest := ih (told hd)
    rwa [hr] at hrest

/-- A turn mentions what was in reach, what it made and what it was replied, and leaves the machine ready. -/
theorem Ready.evaluate (hm : Ready K m) (name src : Text) (s : σ) :
    (evaluate h name src m s).1.Proper ∧ Grounds K (evaluate h name src m s).1.log ∧
      Ready (learned K (evaluate h name src m s).1.log) (evaluate h name src m s).2.1 := by
  have hload := hm.load name src
  unfold Machine.evaluate
  generalize m.load name src = x at hload ⊢
  rcases x with ⟨e | u, n⟩
  · refine ⟨.refused _, trivial, ?_⟩
    show Ready (learned K []) n
    rwa [learned_nil]
  · have hplain : ∀ a ∈ n.queue, a.isPlain = true := by
      intro a ha
      obtain ⟨id, rfl⟩ := hload.queue a ha
      rfl
    have horderly := (recorded_orderly h false n s hplain).1
    have hgrounds := recorded_grounds h false hload.toReaches s
    have hqueue := recorded_queue h false s hload.queue
    simp only
    generalize n.recorded h false s = y at horderly hgrounds hqueue ⊢
    obtain ⟨log, e, k, t⟩ := y
    refine ⟨.ran hload.queue horderly, hgrounds.1, ?_⟩
    obtain ⟨hsourced, hall⟩ := hgrounds.2
    show Ready (learned K log) (if k.halted.isSome = true then k.reset else k)
    by_cases hk : k.halted.isSome = true
    · rw [if_pos hk]
      exact ⟨⟨hsourced, hall.scopes, by simp [Machine.reset]⟩, by simp [Machine.reset, Disposes]⟩
    · rw [if_neg hk]
      exact ⟨⟨hsourced, hall⟩, hqueue.resolve_left hk⟩

/-- The same for a whole session, turn by turn. -/
theorem converse_grounds (hm : Ready K m) (s : σ) (texts : List (Text × Text)) :
    (∀ t ∈ converse h m s texts, t.Proper) ∧ Grounds K ((converse h m s texts).flatMap (·.log)) := by
  induction texts generalizing K m s with
  | nil => exact ⟨by simp [converse], trivial⟩
  | cons x texts ih =>
    obtain ⟨name, src⟩ := x
    obtain ⟨hproper, hgrounds, hready⟩ := hm.evaluate h name src s
    obtain ⟨hrest, hgrounds'⟩ := ih hready (evaluate h name src m s).2.2
    simp only [converse, forall_mem_cons, List.flatMap_cons]
    exact ⟨⟨hproper, hrest⟩, grounds_append.mpr ⟨hgrounds, hgrounds'⟩⟩

end

/-- At first there is nothing in reach. -/
theorem ready_new (o : Options) : Ready (fun _ => False) (new o) := by
  have hsourced := sourced_ofProgram (Compiler.after_sourced []) o
  rw [ofProgram_eq] at hsourced
  show Ready _ (ofProgram (Compiler.after []).program o)
  rw [ofProgram_eq]
  exact ⟨⟨⟨_, hsourced⟩, Scopes.all_initial (Value.inherited_within _) _ _, by simp⟩, by simp [Disposes]⟩

/-! ## Sessions -/

theorem Orderly.emitted_of_handed {p : Phase} {q : List Action} {e : Option RunError} {pre post : List Event}
    {r : Except Text (Option Value)} (ho : Orderly p q (pre ++ .handed a r :: post) e) (ha : a ∉ q) :
    ∃ as bs, emitted pre = as ++ a :: bs ∧ handed pre = q ++ as := by
  obtain ⟨q', hq', ho'⟩ := ho.at
  obtain ⟨bs, hbs, -⟩ := ho'.tail
  obtain rfl : a :: bs = q' := by simpa [Event.told, Event.added] using hbs
  rcases List.append_eq_append_iff.mp hq' with ⟨cs, hq, hcs⟩ | ⟨cs, hpre, hcs⟩
  · cases cs with
    | nil => exact ⟨[], bs, hcs.symm, by simp [hq]⟩
    | cons c cs =>
      obtain ⟨rfl, -⟩ := List.cons.inj hcs
      exact absurd (by simp [hq]) ha
  · exact ⟨cs, bs, hcs, hpre⟩

/-- What is handed over was emitted before in the same turn, unless it disposes of an object. -/
theorem Turn.Proper.emitted_of_handed {t : Turn} (ht : t.Proper) {pre post : List Event} {a : Action}
    {r : Except Text (Option Value)} (hlog : t.log = pre ++ .handed a r :: post) (ha : ∀ id, a ≠ .destruct id) :
    ∃ as bs, emitted pre = as ++ a :: bs ∧ as <:+ handed pre := by
  cases ht with
  | refused => simp at hlog
  | @ran q log e hq ho =>
    obtain rfl : log = _ := hlog
    have hnot : a ∉ q := by
      intro hmem
      obtain ⟨id, he⟩ := hq a hmem
      exact ha id he
    obtain ⟨as, bs, hemitted, hhanded⟩ := ho.emitted_of_handed hnot
    exact ⟨as, bs, hemitted, q, hhanded.symm⟩

/-- The object was made in the turn, but the handler was not told of it. -/
def Turn.Loses (t : Turn) (id : Int) : Prop :=
  (∃ type, .construct id type ∈ emitted t.log) ∧ ∀ type, .construct id type ∉ handed t.log

/-- Nothing is lost in a turn without an error. -/
theorem Turn.Proper.error_of_loses {t : Turn} (ht : t.Proper) (hid : t.Loses id) : t.error ≠ none := by
  intro he
  obtain ⟨⟨type, hmem⟩, hnot⟩ := hid
  cases ht with
  | refused => cases he
  | ran hq ho =>
    cases he
    refine hnot type ?_
    rw [ho.handed_all.1]
    exact List.mem_append_right _ hmem

theorem told_or_lost {ts : List Turn} (hts : ∀ t ∈ ts, t.Proper) {type : Text}
    (hmade : .construct id type ∈ emitted (ts.flatMap (·.log))) :
    (∃ type, .construct id type ∈ handed (ts.flatMap (·.log))) ∨ ∃ t ∈ ts, t.error ≠ none ∧ t.Loses id := by
  obtain ⟨x, hx, hadded⟩ := mem_flatMap.mp hmade
  obtain ⟨t, ht, hx⟩ := mem_flatMap.mp hx
  by_cases htold : ∃ type, .construct id type ∈ handed t.log
  · obtain ⟨type, htold⟩ := htold
    obtain ⟨y, hy, htold⟩ := mem_flatMap.mp htold
    exact .inl ⟨type, mem_flatMap.mpr ⟨y, mem_flatMap.mpr ⟨t, ht, hy⟩, htold⟩⟩
  · have hloses : t.Loses id := ⟨⟨type, mem_flatMap.mpr ⟨x, hx, hadded⟩⟩, fun type hm => htold ⟨type, hm⟩⟩
    exact .inr ⟨t, ht, (hts t ht).error_of_loses hloses, hloses⟩

/-- In a session with any handler, an action that mentions an object comes after the handler was told that the object
    was made, or after it has itself replied the object, unless that was lost in an earlier turn that ended with an
    error. -/
theorem heard_of (o : Options) {σ : Type} (h : Handler σ) (s : σ) (texts : List (Text × Text)) {before after : List Turn}
    {t : Turn} (hts : converse h (new o) s texts = before ++ t :: after) {pre post : List Event} {a : Action}
    {r : Except Text (Option Value)} (hlog : t.log = pre ++ .handed a r :: post) {id : Int} (hid : a.Mentions id) :
    (∃ type, .construct id type ∈ handed (before.flatMap (·.log) ++ pre)) ∨
      Replied (before.flatMap (·.log) ++ pre) id ∨ ∃ u ∈ before, u.error ≠ none ∧ u.Loses id := by
  obtain ⟨hproper, hgrounds⟩ := converse_grounds h (ready_new o) s texts
  rw [hts] at hproper hgrounds
  have hgrounds : Grounds (fun _ => False) (before.flatMap (·.log) ++ pre) := by
    rw [List.flatMap_append, List.flatMap_cons, hlog, append_assoc, ← append_assoc] at hgrounds
    exact (grounds_append.mp hgrounds).1
  obtain ⟨as, bs, hemitted, hsuffix⟩ := (hproper t (by simp)).emitted_of_handed hlog (by rintro i rfl; exact hid)
  -- The action stands in what was emitted so far, so that the object was in reach before it.
  have hpresumes := hgrounds.presumes
  rw [emitted_append, hemitted, ← append_assoc] at hpresumes
  rcases (presumes_append.mp hpresumes).2.1 id hid with (hno | hreplied) | hmade
  · exact hno.elim
  · exact .inr (.inl hreplied)
  obtain ⟨type, hmem⟩ := mem_made.mp hmade
  rw [handed_append]
  rcases List.mem_append.mp hmem with hearlier | hnow
  · rcases told_or_lost (fun u hu => hproper u (by simp [hu])) hearlier with ⟨type, htold⟩ | hlost
    · exact .inl ⟨type, List.mem_append_left _ htold⟩
    · exact .inr (.inr hlost)
  · exact .inl ⟨type, List.mem_append_right _ (hsuffix.mem hnow)⟩

/-! ## Two sessions -/

theorem recorded_failed (h : Handler σ) {n : Machine} {e : MachineError} {c : Schedule} (hs : m.step (c 0) = (.error e, n)) (s : σ) :
    m.recorded h c s = ([.stepped (.error e) (addedTo m n)], some (.machine e), n, s) := by
  rw [recorded]
  split
  · rename_i he
    cases hs.symm.trans he
    rfl
  · rename_i he
    cases hs.symm.trans he

theorem recorded_quit (h : Handler σ) {n k : Machine} {u : Unit} {s t : σ} {log : List Event} {c : Schedule}
    (hs : m.step (c 0) = (.ok u, n)) (hd : tell h n.drain.1 n.drain.2 s = (log, .quit, k, t)) :
    m.recorded h c s = (.stepped (.ok ()) (addedTo m n) :: log, none, k, t) := by
  rw [recorded]
  split
  · rename_i he
    cases hs.symm.trans he
  · rename_i he
    cases hs.symm.trans he
    split <;> rename_i hd' <;> cases hd.symm.trans hd'
    rfl

/-- Plain actions, and a quit behind them. -/
def quits : List Action → Bool
  | [] => false
  | a :: as => if as.isEmpty then a.isQuit else a.isPlain && quits as

def Event.ignored (a : Action) : Event := .handed a (.ok (some .none))

theorem handed_ignored (as : List Action) : handed (as.map Event.ignored) = as := by
  induction as with
  | nil => rfl
  | cons a as ih => exact congrArg (a :: ·) ih

theorem tell_discard {as : List Action} (has : quits as = true) (m : Machine) (s : σ) :
    tell .discard as m s = (as.map Event.ignored, .quit, m, s) := by
  induction as with
  | nil => cases has
  | cons a as ih =>
    cases as with
    | nil =>
      have hquit : a.isQuit = true := has
      simp only [tell, Handler.discard, hquit, if_true]
      rfl
    | cons b bs =>
      obtain ⟨hplain, hrest⟩ : a.isPlain = true ∧ quits (b :: bs) = true := by simpa [quits] using has
      obtain ⟨hquit, hreply⟩ : a.isQuit = false ∧ a.awaitsReply = false := by simpa [Action.isPlain] using hplain
      have htold := ih hrest
      rw [tell]
      simp only [Handler.discard] at htold ⊢
      simp only [hquit, hreply, Bool.false_eq_true, if_false, htold]
      rfl

def begun (m : Machine) (name src : Text) : Except MachineError Unit × Machine := (m.load name src).2.step false

theorem evaluate_failed (h : Handler σ) (m : Machine) (name src : Text) (hfails : (m.load name src).1.isOk = true ∧
      (m.begun name src).1.isOk = false ∧ (m.begun name src).2.halted.isSome = true) (s : σ) :
    ∃ t e as, evaluate h name src m s = (t, (m.begun name src).2.reset, s) ∧ t.log = [.stepped (.error e) as] := by
  obtain ⟨hl, hs, hh⟩ := hfails
  unfold begun at hs hh ⊢
  unfold evaluate
  generalize m.load name src = x at hl hs hh ⊢
  rcases x with ⟨e | u, n⟩
  · cases hl
  cases hstep : n.step false with
  | mk r k =>
    simp only [hstep] at hs hh
    cases r with
    | ok u => cases hs
    | error e =>
      refine ⟨⟨[.stepped (.error e) (addedTo n k)], some (.machine e)⟩, e, addedTo n k, ?_, rfl⟩
      simp only [recorded_failed (c := false) h hstep, hh, if_true]

theorem evaluate_quit (m : Machine) (name src : Text) (hquits : (m.load name src).1.isOk = true ∧
      (m.begun name src).1.isOk = true ∧ (m.begun name src).2.halted.isSome = false ∧
      quits (m.begun name src).2.queue = true) (s : σ) :
    ∃ t as, evaluate .discard name src m s = (t, (m.begun name src).2.drain.2, s) ∧ t.error = none ∧
      t.log = .stepped (.ok ()) as :: (m.begun name src).2.queue.map Event.ignored := by
  obtain ⟨hl, hs, hh, hq⟩ := hquits
  unfold begun at hs hh hq ⊢
  unfold evaluate
  generalize m.load name src = x at hl hs hh hq ⊢
  rcases x with ⟨e | u, n⟩
  · cases hl
  cases hstep : n.step false with
  | mk r k =>
    simp only [hstep] at hs hh hq
    cases r with
    | error e => cases hs
    | ok u =>
      have htell : tell .discard k.drain.1 k.drain.2 s = (k.queue.map Event.ignored, .quit, k.drain.2, s) :=
        tell_discard hq k.drain.2 s
      have hh : k.drain.2.halted.isSome = false := hh
      refine ⟨⟨.stepped (.ok ()) (addedTo n k) :: k.queue.map Event.ignored, none⟩, addedTo n k, ?_, rfl, rfl⟩
      simp only [recorded_quit (c := false) .discard hstep htell, hh, Bool.false_eq_true, if_false]

theorem converse_two (h : Handler σ) {n k : Machine} {name src name' src' : Text} {t u : Turn} {s s' s'' : σ}
    (ht : evaluate h name src m s = (t, n, s')) (hu : evaluate h name' src' n s' = (u, k, s'')) :
    converse h m s [(name, src), (name', src')] = [t, u] := by
  simp only [converse, ht, hu]

def isRead (id : Int) (a : Action) : Bool := a.subject? == some id && a.isInert

theorem mentions_of_isRead (h : isRead id a = true) : a.Mentions id := by
  cases a <;> simp_all [isRead, Action.subject?, Action.isInert, Action.Mentions]

def making : Text := "a = Ball \x7b x: 1 \x7d"

def afterMaking : Machine := ((new {}).begun "line 1" making).2.drain.2

/-- The handler is told of the object before the next text reads a field of it. -/
theorem heard_of_making :
    ∃ t u, converse .discard (new {}) () [("line 1", making), ("line 2", "a.x")] = [t, u] ∧
      ∃ pre a r post, u.log = pre ++ .handed a r :: post ∧ a.Mentions 1 ∧
        ∃ type, .construct 1 type ∈ handed (t.log ++ pre) := by
  obtain ⟨t, as, ht, herror, hlogt⟩ := evaluate_quit (new {}) "line 1" making (by decide +kernel) ()
  obtain ⟨u, bs, hu, -, hlogu⟩ := evaluate_quit afterMaking "line 2" "a.x" (by decide +kernel) ()
  have hread : (afterMaking.begun "line 2" "a.x").2.queue.any (isRead 1) = true := by decide +kernel
  generalize (afterMaking.begun "line 2" "a.x").2.queue = q at hlogu hread
  obtain ⟨a, ha, hid⟩ := List.any_eq_true.mp hread
  have hid : a.Mentions 1 := mentions_of_isRead hid
  obtain ⟨cs, ds, rfl⟩ := List.append_of_mem ha
  have hlog : u.log = (.stepped (.ok ()) bs :: cs.map Event.ignored) ++ .ignored a :: ds.map Event.ignored := by
    simp [hlogu]
  have hts := converse_two .discard ht hu
  refine ⟨t, u, hts, _, a, _, _, hlog, hid, ?_⟩
  rcases heard_of {} .discard () _ (show _ = [t] ++ u :: [] from hts) hlog hid with htold | hreplied | hlost
  · simpa using htold
  · obtain ⟨v, r, hmem, -⟩ := hreplied
    simp [hlogt, Event.ignored] at hmem
  · obtain ⟨w, hw, he, -⟩ := hlost
    cases mem_singleton.mp hw
    exact absurd herror he

/-- The first text makes an object, and then fails in the same step. -/
def failing : Text := "a = Ball \x7b x: 1 \x7d b = c"

def afterFailing : Machine := ((new {}).begun "line 1" failing).2.reset

/-- The handler is not told of the object, which stays bound to its name. The next text reads a field of it. -/
theorem hears_of_stranger :
    ∃ t u, converse .discard (new {}) () [("line 1", failing), ("line 2", "a.x")] = [t, u] ∧
      (∃ a ∈ handed u.log, a.Mentions 1) ∧ Log.made (handed t.log ++ handed u.log) = [] ∧
      ∀ id, ¬ Replied (t.log ++ u.log) id := by
  obtain ⟨t, e, as, ht, hlogt⟩ := evaluate_failed .discard (new {}) "line 1" failing (by decide +kernel) ()
  obtain ⟨u, bs, hu, -, hlogu⟩ := evaluate_quit afterFailing "line 2" "a.x" (by decide +kernel) ()
  have hread : (afterFailing.begun "line 2" "a.x").2.queue.any (isRead 1) = true := by decide +kernel
  have hmade : made (afterFailing.begun "line 2" "a.x").2.queue = [] := by decide +kernel
  generalize (afterFailing.begun "line 2" "a.x").2.queue = q at hlogu hread hmade
  obtain ⟨a, ha, hid⟩ := List.any_eq_true.mp hread
  have hhanded : handed t.log ++ handed u.log = q := by simp [hlogt, hlogu, handed_ignored]
  refine ⟨t, u, converse_two .discard ht hu, ⟨a, ?_, mentions_of_isRead hid⟩, by rw [hhanded, hmade], ?_⟩
  · simp [hlogu, handed_ignored, ha]
  · rintro id ⟨v, r, hmem, -⟩
    simp [hlogt, hlogu, Event.ignored] at hmem

end Machine

end Scriptlet

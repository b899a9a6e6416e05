/-
  Scriptlet.Proofs.Dangling — actions about objects that the host was told to dispose of.

  Loading a unit again disposes of the objects that it made, but takes them away from nobody: they
  stay bound to names, captured by functions and inside of other values, and no instruction asks the
  registry whether an object is still there. So code may go on to use an object that is gone
  (`reads_destroyed`). What stays true is this (`destroyed_stays_silent`):

  (1) Code mentions only what it can get to. An object that is out of its reach stays out of reach,
      and is not mentioned, unless a reply brings a function along through which code gets to it
      (`Buried.run`).
  (2) So an object is mentioned after it was destroyed only if code could still get to it right after
      the unit was loaded again, or if there was such a reply. It is never made, stored to or
      destroyed again.
-/

import Scriptlet.Proofs.Ownership
import Scriptlet.Proofs.Reach
import Scriptlet.Proofs.Sessions

namespace Scriptlet

open List (mem_append forall_mem_cons append_nil mem_map nodup_append append_assoc)

/-! ## What is mentioned -/

variable {id : Int}

namespace Log

variable {K : Int → Prop} {log as bs : List Action}

/-- What was not known before, and is not made, is not mentioned. -/
theorem Presumes.not_mentions (h : Presumes K as) (hK : ¬ K id) (hmade : id ∉ made as) : ∀ a ∈ as, ¬ a.Mentions id := by
  induction as generalizing K with
  | nil => simp
  | cons a as ih =>
    have hsplit : made ([a] ++ as) = made [a] ++ made as := made_append
    change id ∉ made ([a] ++ as) at hmade
    rw [hsplit, mem_append, not_or] at hmade
    simp only [forall_mem_cons]
    refine ⟨fun ha => hK (h.1 id ha), ih h.2 ?_ hmade.2⟩
    intro hid
    exact hid.elim hK hmade.1

structure Constructive (as : List Action) : Prop where
  stores : ∀ id name v, .storeField id name v ∈ as → id ∈ made as
  destroyed : destroyed as = []

theorem constructive_nil : Constructive [] := ⟨by simp, rfl⟩

theorem Constructive.append (ha : Constructive as) (hb : Constructive bs) : Constructive (as ++ bs) := by
  refine ⟨fun id name v hmem => ?_, by rw [destroyed_append, ha.destroyed, hb.destroyed, append_nil]⟩
  rw [made_append, mem_append]
  exact (mem_append.mp hmem).imp (ha.stores id name v) (hb.stores id name v)

theorem constructive_single {a : Action} (h : a.isInert = true) : Constructive [a] := by
  cases a with
  | construct | storeField | destruct => cases h
  | _ => exact ⟨by simp, rfl⟩

theorem constructive_report (id : Int) (type : Text) (fields : List Field) : Constructive (report id type fields) := by
  refine ⟨fun i name v hmem => ?_, destroyed_report id type fields⟩
  rw [made_report]
  rcases List.mem_cons.mp hmem with e | hmem
  · cases e
  · obtain ⟨fd, -, e⟩ := mem_map.mp hmem
    cases e
    exact List.mem_singleton.mpr rfl

/-- Nothing is stored to an object after it was destroyed. -/
def Settled (log : List Action) : Prop :=
  ∀ pre post id, log = pre ++ .destruct id :: post → ∀ name v, .storeField id name v ∉ post

theorem settled_nil : Settled [] := by
  intro pre post id h
  simp at h

theorem mem_destroyed : id ∈ destroyed log ↔ .destruct id ∈ log := by
  simp only [destroyed, List.mem_filterMap]
  constructor
  · rintro ⟨a, ha, hid⟩
    cases a with
    | destruct i =>
      cases hid
      exact ha
    | _ => cases hid
  · intro h
    exact ⟨_, h, rfl⟩

/-- An action of two logs is in the first or in the second. -/
theorem split_append {pre post : List Action} {a : Action} (h : log ++ as = pre ++ a :: post) :
    (∃ cs, log = pre ++ a :: cs ∧ post = cs ++ as) ∨ ∃ cs, as = cs ++ a :: post := by
  rcases List.append_eq_append_iff.mp h with ⟨cs, -, has⟩ | ⟨cs, hlog, hpost⟩
  · exact .inr ⟨cs, has⟩
  · cases cs with
    | nil => exact .inr ⟨[], hpost.symm⟩
    | cons c cs =>
      obtain ⟨rfl, rfl⟩ := List.cons.inj hpost
      exact .inl ⟨cs, hlog, rfl⟩

theorem Settled.constructive (h : Settled log) (hg : Grounded log) (hn : (made (log ++ as)).Nodup)
    (has : Constructive as) : Settled (log ++ as) := by
  intro pre post id he name v hmem
  rcases split_append he with ⟨cs, rfl, rfl⟩ | ⟨cs, rfl⟩
  · rcases mem_append.mp hmem with hmem | hmem
    · exact h pre cs id rfl name v hmem
    · -- The object is made twice: before it was destroyed, and with the action.
      rw [made_append] at hn
      refine (nodup_append.mp hn).2.2 id ?_ id (has.stores id name v hmem) rfl
      exact hg.destroyed_made (mem_destroyed.mpr (by simp))
  · have hid : id ∈ destroyed (cs ++ .destruct id :: post) := mem_destroyed.mpr (by simp)
    rw [has.destroyed] at hid
    cases hid

theorem Settled.destructs (h : Settled log) (ids : List Int) : Settled (log ++ ids.map Action.destruct) := by
  have hstore (i : Int) (name : Text) (v : Option Value) : .storeField i name v ∉ ids.map Action.destruct := by simp
  intro pre post id he name v hmem
  rcases split_append he with ⟨cs, rfl, rfl⟩ | ⟨cs, he⟩
  · rcases mem_append.mp hmem with hmem | hmem
    · exact h pre cs id rfl name v hmem
    · exact hstore id name v hmem
  · refine hstore id name v ?_
    rw [he]
    exact List.mem_append_right _ (List.mem_cons_of_mem _ hmem)

end Log

namespace Machine

variable {m : Machine}

section

variable {m' : Machine} {f : Frame} {rest : List Frame} {stop pc : Nat} {i : Instr} {c : Signals}

theorem Does.added (h : Does m f rest stop pc i m') :
    Log.Constructive (addedTo m m') ∧ ∀ id ∈ Log.made (addedTo m m'), id = m.registry.last + 1 := by
  have inert {a : Action} (ha : a.isInert = true) (e : addedTo m m' = [a]) :
      Log.Constructive (addedTo m m') ∧ ∀ id ∈ Log.made (addedTo m m'), id = m.registry.last + 1 := by
    rw [e]
    refine ⟨Log.constructive_single ha, fun id hid => ?_⟩
    cases a with
    | construct => cases ha
    | _ => cases hid
  have plain (e : m'.queue = m.queue) :
      Log.Constructive (addedTo m m') ∧ ∀ id ∈ Log.made (addedTo m m'), id = m.registry.last + 1 := by
    rw [addedTo_eq [] (e.trans (append_nil _).symm)]
    exact ⟨Log.constructive_nil, by simp [Log.made]⟩
  cases h with
  | construct id =>
    rw [addedTo_eq (Log.report (m.registry.newObject (.inner m.fresh) id (m.name id) f.closeGroup.1).1.id _ f.closeGroup.1) rfl]
    refine ⟨Log.constructive_report _ _ _, fun k hk => ?_⟩
    rw [Log.made_report, Registry.newObject_id] at hk
    exact List.mem_singleton.mp hk
  | @ask as os vs callee a ho hv ha =>
    exact inert (Action.isInert_of_awaitsReply (asks_awaitsReply ha)).1 (addedTo_eq [a] rfl)
  | @loadField id o j os ho => exact inert rfl (addedTo_eq [.loadField o.id (m.name id)] rfl)
  | _ => exact plain rfl

/-- Since the queue was `q`, the machine destroyed nothing, and stored only to what it made. -/
theorem kept_constructive (q : List Action) : Kept fun m => ∃ as, m.queue = q ++ as ∧ Log.Constructive as where
  exec {m m' f rest code i} h _ _ _ _ hd := by
    obtain ⟨as, hq, has⟩ := h
    obtain ⟨new, hnew⟩ := hd.queue
    obtain rfl := addedTo_eq _ hnew.symm
    exact ⟨as ++ addedTo m m', by rw [← hnew, hq, append_assoc], has.append hd.added.1⟩
  spend h _ _ := h
  drop h _ := h
  deliver h _ _ := h
  terminate {m} h := by
    obtain ⟨as, hq, has⟩ := h
    unfold Machine.terminate
    split
    · exact ⟨as, hq, has⟩
    · refine ⟨as ++ [.quit], ?_, has.append (Log.constructive_single rfl)⟩
      show m.queue ++ [.quit] = _
      rw [hq, append_assoc]
  abort h := h
  halt _ h _ := h

/-- The object is out of reach, and was not mentioned since the queue was `q`. -/
structure Silent (id : Int) (q : List Action) (m : Machine) : Prop where
  sourced : ∃ S, m.program.Sourced S
  nested : Nested m
  /-- The number is not given out again. -/
  past : id ≤ m.registry.last
  fenced : ∃ S, Fenced S id m
  silent : ∃ as, m.queue = q ++ as ∧ ∀ a ∈ as, ¬ a.Mentions id

/-- A frame that was only taken from is behind the fence as before. -/
theorem Fenced.spend {S : Nat → Prop} {id : Int} {g : Frame} (h : Fenced S id m) (hf : m.frames = f :: rest)
    (hg : Spent { f with pc := f.pc + 1 } g) : Fenced S id (m.withFrames (g :: rest)) := by
  have hchains : ∀ k ∈ f :: rest, ∀ j ∈ m.scopes.chain k.scope, S j := hf ▸ h.chains
  have hframes : ∀ k ∈ f :: rest, k.All (Value.Spares S id) := hf ▸ h.frames
  rw [forall_mem_cons] at hchains hframes
  refine h.withFrames (forall_mem_cons.mpr ⟨?_, hchains.2⟩) (forall_mem_cons.mpr ⟨hframes.1.spend hg, hframes.2⟩)
  cases hg
  exact hchains.1

theorem kept_silent (id : Int) (q : List Action) : Kept (Silent id q) where
  exec {m m' f rest code i} h hw hf hb hi hd := by
    obtain ⟨T, hT⟩ := h.sourced
    obtain ⟨S, hS⟩ := h.fenced
    obtain ⟨as, hq, has⟩ := h.silent
    have hinside : ∀ g ∈ f :: rest, g.scope < m.scopes.list.size := hf ▸ h.nested.inside
    have hfence := hS.spend hf (.refl _)
    have hpast := h.past
    have hlast := hd.last
    refine ⟨⟨T, hd.program ▸ hT⟩, kept_nested.exec h.nested hw hf hb hi hd, by omega, ⟨_, hd.fenced hT.consts ?_ hpast hfence⟩, ?_⟩
    · simp only [forall_mem_cons] at hinside ⊢
      exact hinside
    · obtain ⟨new, hnew⟩ := hd.queue
      obtain rfl := addedTo_eq _ hnew.symm
      refine ⟨as ++ addedTo m m', by rw [← hnew, hq, append_assoc], fun a ha => ?_⟩
      rcases mem_append.mp ha with ha | ha
      · exact has a ha
      · have hpresumes := hd.presumes (K := (· ≠ id)) ((hfence.frames _ List.mem_cons_self).mono fun _ hv => hv.1)
        refine hpresumes.not_mentions (by simp) ?_ a ha
        intro hmade
        have := hd.added.2 id hmade
        omega
  spend {m f g rest} h hf hg := by
    obtain ⟨S, hS⟩ := h.fenced
    exact ⟨h.sourced, kept_nested.spend h.nested hf hg, h.past, ⟨S, hS.spend hf hg⟩, h.silent⟩
  drop {m f rest} h hf := by
    obtain ⟨S, hS⟩ := h.fenced
    have hmem {g : Frame} (hg : g ∈ rest) : g ∈ m.frames := hf ▸ List.mem_cons_of_mem _ hg
    refine ⟨h.sourced, kept_nested.drop h.nested hf, h.past, ⟨S, hS.withFrames ?_ ?_⟩, h.silent⟩
    · exact fun g hg => hS.chains g (hmem hg)
    · exact fun g hg => hS.frames g (hmem hg)
  deliver {m f rest v} h hf hv := by
    obtain ⟨S, hS⟩ := h.fenced
    have hmem {g : Frame} (hg : g ∈ rest) : g ∈ m.frames := hf ▸ List.mem_cons_of_mem _ hg
    refine ⟨h.sourced, kept_nested.deliver h.nested hf hv, h.past, ⟨S, hS.withFrames ?_ ?_⟩, h.silent⟩
    · exact scopes_deliver (P := fun k => ∀ j ∈ m.scopes.chain k, S j) fun g hg => hS.chains g (hmem hg)
    · have hf' := hS.frames f (hf ▸ List.mem_cons_self)
      exact all_deliver (all_frameResult (Value.inherited_spares S id) hv hf') fun g hg => hS.frames g (hmem hg)
  terminate {m} h := by
    obtain ⟨S, hS⟩ := h.fenced
    obtain ⟨as, hq, has⟩ := h.silent
    have hn := kept_nested.terminate h.nested
    unfold Machine.terminate at hn ⊢
    split
    · exact h
    · rename_i hquit
      rw [if_neg hquit] at hn
      refine ⟨h.sourced, hn, h.past, ⟨S, hS.global, hS.chains, hS.scopes, hS.frames⟩, as ++ [.quit], ?_, ?_⟩
      · show m.queue ++ [.quit] = _
        rw [hq, append_assoc]
      · intro a ha
        rcases mem_append.mp ha with ha | ha
        · exact has a ha
        · rw [List.mem_singleton.mp ha]
          exact fun hid => hid
  abort h := by
    obtain ⟨S, hS⟩ := h.fenced
    exact ⟨h.sourced, kept_nested.abort h.nested, h.past, ⟨S, hS.global, hS.chains, hS.scopes, hS.frames⟩, h.silent⟩
  halt _ h _ := by
    obtain ⟨S, hS⟩ := h.fenced
    exact ⟨h.sourced, ⟨h.nested.outermost, h.nested.there, h.nested.inside⟩, h.past,
      ⟨S, hS.global, hS.chains, hS.scopes, hS.frames⟩, h.silent⟩

end

/-! ## (1) Requests -/

namespace Request

/-- The value of a reply has only objects inside that are in the registry. -/
def Live (m : Machine) : Request → Prop
  | .resume (some v) => ∀ o, v.Contains o → o.id ∈ m.registry.ids
  | _ => True

/-- The reply brings a function along through which code gets to an object with the number. -/
def Returns (m : Machine) (id : Int) : Request → Prop
  | .resume (some v) => ∃ c, v.Leads m.scopes (.closure c) ∧ (Value.closure c).LeadsTo m.scopes id
  | _ => False

end Request

section

variable {h : History} {r : Request}

/-- What a request puts into the queue: objects are destroyed when a unit is loaded again, and everything else happens
    in steps. -/
theorem next_added (h : History) (r : Request) : ∃ as, (h.next r).log = h.log ++ as ∧
    ((∃ c, r = .step c) ∧ Log.Constructive as ∨ ∃ ids : List Int, as = ids.map Action.destruct) := by
  have destroys {P : List Action → Prop} {k : Machine} (ids : List Int)
      (hk : k.queue = h.machine.queue ++ ids.map Action.destruct) :
      ∃ as, h.taken ++ k.queue = h.log ++ as ∧ (P as ∨ ∃ ids : List Int, as = ids.map Action.destruct) := by
    refine ⟨ids.map Action.destruct, ?_, .inr ⟨ids, rfl⟩⟩
    rw [hk, History.log, append_assoc]
  have stays {P : List Action → Prop} {k : Machine} (hk : k.queue = h.machine.queue) :
      ∃ as, h.taken ++ k.queue = h.log ++ as ∧ (P as ∨ ∃ ids : List Int, as = ids.map Action.destruct) :=
    destroys [] (hk.trans (append_nil _).symm)
  have becomes {P : List Action → Prop} {name : Text} {ns : List Node} {k : Machine} (hb : Becomes h.machine name ns k) :
      ∃ as, h.taken ++ k.queue = h.log ++ as ∧ (P as ∨ ∃ ids : List Int, as = ids.map Action.destruct) := by
    cases hb with
    | @again u => exact destroys u.objects rfl
    | _ => exact stays rfl
  cases r with
  | load name src =>
    rcases load_becomes h.machine name src with e | ⟨ns, hb⟩
    · exact stays (congrArg Machine.queue e)
    · exact becomes hb
  | loadNodes name ns => exact becomes (loadNodes_becomes h.machine name ns)
  | step c =>
    obtain ⟨as, hq, has⟩ := (kept_constructive h.machine.queue).step (m := h.machine) (c := c)
      ⟨[], (append_nil _).symm, Log.constructive_nil⟩
    refine ⟨as, ?_, .inl ⟨⟨c, rfl⟩, has⟩⟩
    show h.taken ++ (h.machine.step c).2.queue = _
    rw [hq, History.log, append_assoc]
  | drain | reset => exact ⟨[], rfl, .inr ⟨[], rfl⟩⟩
  | resume v =>
    refine stays ?_
    show (h.machine.resume v).2.queue = _
    unfold Machine.resume
    split <;> rfl
  | abort => exact stays rfl

theorem not_mentions_destructs {ids : List Int} : ∀ a ∈ ids.map Action.destruct, ¬ a.Mentions id := by
  intro a ha
  obtain ⟨i, -, rfl⟩ := mem_map.mp ha
  exact fun hid => hid

structure Buried (id : Int) (h : History) : Prop where
  tracked : Tracked h.taken h.machine
  apportioned : Apportioned h.machine
  nested : Nested h.machine
  destroyed : id ∈ Log.destroyed h.log
  fenced : ∃ S, Fenced S id h.machine

/-- No object of the registry was destroyed. -/
theorem not_destroyed_of_live (ht : Tracked h.taken h.machine) (ha : Apportioned h.machine)
    (hid : id ∈ h.machine.registry.ids) : id ∉ Log.destroyed h.log := by
  intro hd
  exact (nodup_append.mp ht.logged.once).2.2 id hd id (ha.owned.mem_iff.mpr hid) rfl

theorem Request.Live.knows (hr : r.Live h.machine) (ht : Tracked h.taken h.machine) : r.Knows h.log := by
  cases r with
  | resume v =>
    cases v with
    | none => trivial
    | some v =>
      intro o ho
      obtain ⟨p, hp, e⟩ := mem_map.mp (hr o ho)
      exact e ▸ ht.logged.live p hp
  | _ => trivial

theorem Buried.fenced_becomes (hb : Buried id h) {name : Text} {ns : List Node} {k : Machine}
    (hk : Becomes h.machine name ns k) : ∃ S, Fenced S id k := by
  obtain ⟨S, hS⟩ := hb.fenced
  refine ⟨S, ?_⟩
  cases hk with
  | refused => exact hS
  | failedAgain | failedNew => exact ⟨hS.global, hS.chains, hS.scopes, hS.frames⟩
  | again | new => refine hS.enter hb.nested ?_ ?_ _ _ <;> rfl

theorem Buried.fenced_resume (hb : Buried id h) {v : Option Value} (hlive : (Request.resume v).Live h.machine)
    (hret : ¬ (Request.resume v).Returns h.machine id) : ∃ S, Fenced S id (h.machine.resume v).2 := by
  obtain ⟨S, hS⟩ := hb.fenced
  cases hw : h.machine.awaiting with
  | false =>
    refine ⟨S, ?_⟩
    rw [resume_refused hw]
    exact hS
  | true =>
    rw [resume_eq hw]
    have give {S : Nat → Prop} {u : Value} (hS : Fenced S id h.machine) (hu : Value.Spares S id (some u)) :
        Fenced S id { h.machine with awaiting := false, frames := deliver u h.machine.frames } :=
      ⟨hS.global, scopes_deliver (P := fun k => ∀ j ∈ h.machine.scopes.chain k, S j) hS.chains, hS.scopes,
        all_deliver hu hS.frames⟩
    cases v with
    | none => exact ⟨S, give hS ((Value.inherited_spares S id).flat rfl)⟩
    | some v =>
      have hv : ¬ v.LeadsTo h.machine.scopes id := by
        rintro ⟨o, ho, rfl⟩
        rcases ho.contains_or with ho | ⟨c, hc, ho⟩
        · exact not_destroyed_of_live hb.tracked hb.apportioned (hlive o ho) hb.destroyed
        · exact hret ⟨c, hc, o, ho, rfl⟩
      obtain ⟨S', hS', hspares⟩ := hS.learn hv
      exact ⟨S', give hS' hspares⟩

/-- An object that is out of reach stays out of reach, and is not mentioned. -/
theorem Buried.next (hb : Buried id h) (hlive : r.Live h.machine) (hret : ¬ r.Returns h.machine id) :
    Buried id (h.next r) ∧ ∃ as, (h.next r).log = h.log ++ as ∧ ∀ a ∈ as, ¬ a.Mentions id := by
  obtain ⟨as, hlog, has⟩ := next_added h r
  have hdestroyed : id ∈ Log.destroyed (h.next r).log := by
    rw [hlog, Log.destroyed_append]
    exact List.mem_append_left _ hb.destroyed
  have buried (hf : ∃ S, Fenced S id (r.apply h.machine)) : Buried id (h.next r) :=
    ⟨hb.tracked.next (hlive.knows hb.tracked), hb.apportioned.apply r, hb.nested.apply r, hdestroyed, hf⟩
  -- Only steps put actions into the queue that mention objects.
  have quiet (hr : ∀ c, r ≠ .step c) : ∃ as, (h.next r).log = h.log ++ as ∧ ∀ a ∈ as, ¬ a.Mentions id := by
    rcases has with ⟨⟨c, e⟩, -⟩ | ⟨ids, rfl⟩
    · exact absurd e (hr c)
    · exact ⟨_, hlog, not_mentions_destructs⟩
  cases r with
  | load name src =>
    refine ⟨buried ?_, quiet (by simp)⟩
    change ∃ S, Fenced S id (h.machine.load name src).2
    rcases load_becomes h.machine name src with e | ⟨ns, hk⟩
    · rw [e]
      exact hb.fenced
    · exact hb.fenced_becomes hk
  | loadNodes name ns => exact ⟨buried (hb.fenced_becomes (loadNodes_becomes h.machine name ns)), quiet (by simp)⟩
  | step c =>
    have hpast : id ≤ h.machine.registry.last :=
      (hb.tracked.logged.mem_made.mp (hb.tracked.logged.grounded.destroyed_made hb.destroyed)).2
    have hs := (kept_silent id h.machine.queue).step (c := c) (m := h.machine)
      ⟨hb.tracked.sourced, hb.nested, hpast, hb.fenced, [], (append_nil _).symm, by simp⟩
    refine ⟨buried hs.fenced, ?_⟩
    obtain ⟨as, hq, has⟩ := hs.silent
    refine ⟨as, ?_, has⟩
    show h.taken ++ (h.machine.step c).2.queue = _
    rw [hq, History.log, append_assoc]
  | drain | abort =>
    obtain ⟨S, hS⟩ := hb.fenced
    exact ⟨buried ⟨S, hS.global, hS.chains, hS.scopes, hS.frames⟩, quiet (by simp)⟩
  | resume v => exact ⟨buried (hb.fenced_resume hlive hret), quiet (by simp)⟩
  | reset =>
    obtain ⟨S, hS⟩ := hb.fenced
    refine ⟨buried ⟨S, hS.global, ?_, hS.scopes, ?_⟩, quiet (by simp)⟩
    · simp [Request.apply, Machine.reset]
    · simp [Request.apply, Machine.reset]

theorem Buried.run (hb : Buried id h) (rs : List Request)
    (hlive : ∀ before r after, rs = before ++ r :: after → r.Live (h.run before).machine)
    (hret : ∀ before r after, rs = before ++ r :: after → ¬ r.Returns (h.run before).machine id) :
    ∃ as, (h.run rs).log = h.log ++ as ∧ ∀ a ∈ as, ¬ a.Mentions id := by
  induction rs generalizing h with
  | nil => exact ⟨[], (append_nil _).symm, by simp⟩
  | cons r rs ih =>
    obtain ⟨hb', as, hlog, has⟩ := hb.next (hlive [] r rs rfl) (hret [] r rs rfl)
    obtain ⟨bs, hrun, hbs⟩ := ih hb' (fun before q after e => hlive (r :: before) q after (by rw [e]; rfl))
      fun before q after e => hret (r :: before) q after (by rw [e]; rfl)
    refine ⟨as ++ bs, ?_, ?_⟩
    · show ((h.next r).run rs).log = _
      rw [hrun, hlog, append_assoc]
    · intro a ha
      exact (mem_append.mp ha).elim (has a) (hbs a)

theorem log_run (h : History) (rs : List Request) : h.log <+: (h.run rs).log := by
  induction rs generalizing h with
  | nil => exact List.prefix_rfl
  | cons r rs ih => exact (h.log_next r).trans (ih (h.next r))

/-- The request that brought the log beyond a length. -/
theorem exists_request_at (hm : m.queue = []) (rs : List Request) {n : Nat}
    (hn : n < (History.after m rs).log.length) : ∃ before r after, rs = before ++ r :: after ∧
      (History.after m before).log.length ≤ n ∧ n < (History.after m (before ++ [r])).log.length := by
  induction rs using List.reverseRecOn with
  | nil =>
    have hnil : (History.after m []).log = [] := hm
    rw [hnil] at hn
    cases hn
  | append_singleton rs r ih =>
    by_cases hlt : n < (History.after m rs).log.length
    · obtain ⟨before, q, after, rfl, hle, hn⟩ := ih hlt
      exact ⟨before, q, after ++ [r], by simp, hle, hn⟩
    · exact ⟨rs, r, [], rfl, by omega, hn⟩

theorem Compiled.initial (h : Compiled m) : Initial m := by
  cases h with
  | new o => exact .new o
  | ofImage _ _ _ _ h => exact .ofImage h

/-- The log of a machine that was given only live objects mirrors its objects. -/
theorem tracked_of_live (hm : Compiled m) {rs : List Request}
    (hrs : ∀ before r after, rs = before ++ r :: after → r.Live (History.after m before).machine) :
    Tracked (History.after m rs).taken (History.after m rs).machine := by
  induction rs using List.reverseRecOn with
  | nil => exact hm.tracked
  | append_singleton rs r ih =>
    have ht := ih fun before q after e => hrs before q (after ++ [r]) (by simp [e])
    rw [History.after_snoc]
    exact ht.next ((hrs rs r [] rfl).knows ht)

theorem Tracked.nodup_made {taken : List Action} (h : Tracked taken m) : (Log.made (taken ++ m.queue)).Nodup := by
  rw [h.logged.made]
  exact List.Nodup.map (fun a b h => by omega) List.nodup_range

/-- Nothing is stored to an object that was destroyed. -/
theorem settled_after (hm : Compiled m) {rs : List Request}
    (hrs : ∀ before r after, rs = before ++ r :: after → r.Live (History.after m before).machine) :
    Log.Settled (History.after m rs).log := by
  induction rs using List.reverseRecOn with
  | nil =>
    have hnil : (History.after m []).log = [] := hm.initial.quiet.1
    rw [hnil]
    exact Log.settled_nil
  | append_singleton rs r ih =>
    have hbefore : ∀ before q after, rs = before ++ q :: after → q.Live (History.after m before).machine :=
      fun before q after e => hrs before q (after ++ [r]) (by simp [e])
    have hnodup : (Log.made (History.after m (rs ++ [r])).log).Nodup := (tracked_of_live hm hrs).nodup_made
    rw [History.after_snoc] at hnodup ⊢
    obtain ⟨as, hlog, ⟨-, has⟩ | ⟨ids, rfl⟩⟩ := next_added (History.after m rs) r
    · rw [hlog] at hnodup ⊢
      exact (ih hbefore).constructive (tracked_of_live hm hbefore).logged.grounded hnodup has
    · rw [hlog]
      exact (ih hbefore).destructs ids

end

/-! ## (2) Objects that were destroyed -/

/-- The request that destroys an object is behind all actions before, and mentions nothing. -/
theorem destroyed_at {before after : List Request} {r : Request} {pre post : List Action}
    (hlog : (History.after m (before ++ r :: after)).log = pre ++ .destruct id :: post)
    (hle : (History.after m before).log.length ≤ pre.length)
    (hlt : pre.length < (History.after m (before ++ [r])).log.length) :
    (History.after m before).log <+: pre ∧
      ∃ cs, (History.after m (before ++ [r])).log = pre ++ .destruct id :: cs ∧ ∀ a ∈ cs, ¬ a.Mentions id := by
  have hrest : (History.after m (before ++ [r])).log <+: pre ++ .destruct id :: post := by
    have hsplit : before ++ r :: after = (before ++ [r]) ++ after := List.append_cons ..
    rw [← hlog, hsplit, History.after_append m (before ++ [r])]
    exact log_run _ _
  obtain ⟨as, has, hadded⟩ := next_added (History.after m before) r
  rw [← History.after_snoc] at has
  have hpre : (History.after m before).log <+: pre := by
    refine List.prefix_of_prefix_length_le (List.IsPrefix.trans ?_ hrest) (List.prefix_append _ _) hle
    exact has ▸ List.prefix_append _ _
  have hsnoc : pre ++ [.destruct id] <+: (History.after m (before ++ [r])).log := by
    refine List.prefix_of_prefix_length_le ⟨post, by simp⟩ hrest ?_
    rw [List.length_append]
    exact hlt
  refine ⟨hpre, ?_⟩
  obtain ⟨cs, hcs⟩ := hsnoc
  rw [append_assoc] at hcs
  refine ⟨cs, hcs.symm, ?_⟩
  obtain ⟨ps, rfl⟩ := hpre
  rw [has, append_assoc] at hcs
  have hsplit : as = ps ++ .destruct id :: cs := (List.append_cancel_left hcs).symm
  rcases hadded with ⟨-, hconstructive⟩ | ⟨ids, rfl⟩
  · have hmem : id ∈ Log.destroyed as := Log.mem_destroyed.mpr (by simp [hsplit])
    rw [hconstructive.destroyed] at hmem
    cases hmem
  · intro a ha
    exact not_mentions_destructs a (hsplit ▸ List.mem_append_right _ (List.mem_cons_of_mem _ ha))

/-- A machine that runs code of the compiler may be used in any way, as long as replies hold no objects but those of the
    registry. After an object was destroyed, it is not made, destroyed or stored to any more. If any action mentions it
    still, then code could get to it right after its unit was loaded again, which is when it was destroyed, or a later
    reply brought a function along through which code gets to it. -/
theorem destroyed_stays_silent {m : Machine} (hm : Compiled m) {rs : List Request}
    (hrs : ∀ before r after, rs = before ++ r :: after → r.Live (History.after m before).machine) {id : Int}
    {pre post : List Action} (hlog : (History.after m rs).log = pre ++ .destruct id :: post) :
    (∀ a ∈ post, a.made? ≠ some id ∧ a.destroyed? ≠ some id ∧ ∀ name v, a ≠ .storeField id name v) ∧
      ∃ before r after, rs = before ++ r :: after ∧ (History.after m before).log <+: pre ∧
        pre ++ [.destruct id] <+: (History.after m (before ++ [r])).log ∧
        ((∃ a ∈ post, a.Mentions id) → (History.after m (before ++ [r])).machine.GetsTo id ∨
          ∃ mid q late, after = mid ++ q :: late ∧ q.Returns (History.after m (before ++ r :: mid)).machine id) := by
  have ht : Tracked (History.after m rs).taken (History.after m rs).machine := tracked_of_live hm hrs
  constructor
  · -- Objects are made before they are destroyed, each of them once, and are destroyed once.
    have hmade : id ∈ Log.made pre := ht.logged.grounded pre (.destruct id) post hlog id rfl
    have hmadeOnce : (Log.made (History.after m rs).log).Nodup := ht.nodup_made
    have hdestroyedOnce : (Log.destroyed (History.after m rs).log).Nodup := (nodup_append.mp ht.logged.once).1
    rw [hlog, Log.made_append] at hmadeOnce
    rw [hlog, Log.destroyed_append] at hdestroyedOnce
    intro a ha
    refine ⟨fun hid => ?_, fun hid => ?_, fun name v e => ?_⟩
    · exact (nodup_append.mp hmadeOnce).2.2 id hmade id (List.mem_filterMap.mpr ⟨a, .tail _ ha, hid⟩) rfl
    · have hpost : id ∈ Log.destroyed post := List.mem_filterMap.mpr ⟨a, ha, hid⟩
      exact (List.nodup_cons.mp (nodup_append.mp hdestroyedOnce).2.1).1 hpost
    · exact settled_after hm hrs pre post id hlog name v (e ▸ ha)
  · have hlength : pre.length < (History.after m rs).log.length := by simp [hlog]
    obtain ⟨before, r, after, rfl, hle, hlt⟩ := exists_request_at hm.initial.quiet.1 rs hlength
    obtain ⟨hpre, cs, hcs, hsilent⟩ := destroyed_at hlog hle hlt
    refine ⟨before, r, after, rfl, hpre, ⟨cs, by rw [hcs, append_assoc]; rfl⟩, fun ⟨a, ha, hid⟩ => ?_⟩
    by_contra hno
    obtain ⟨hlost, hret⟩ := not_or.mp hno
    have hbefore : ∀ b q late, before ++ [r] = b ++ q :: late → q.Live (History.after m b).machine :=
      fun b q late e => hrs b q (late ++ after) (by rw [List.append_cons, e]; simp)
    have hburied : Buried id (History.after m (before ++ [r])) := by
      refine ⟨tracked_of_live hm hbefore, apportioned_after hm.initial _, nested_after hm.initial _, ?_, ?_⟩
      · rw [hcs]
        exact Log.mem_destroyed.mpr (by simp)
      · by_contra hfence
        exact hlost (getsTo_iff.mpr hfence)
    have hafter (mid : List Request) :
        (History.after m (before ++ [r])).run mid = History.after m (before ++ r :: mid) := by
      rw [← History.after_append, append_assoc]
      rfl
    obtain ⟨bs, hbs, hrest⟩ := hburied.run after
      (fun mid q late e => hafter mid ▸ hrs (before ++ r :: mid) q late (by simp [e]))
      (fun mid q late e hq => hret ⟨mid, q, late, e, hafter mid ▸ hq⟩)
    have hpost : post = cs ++ bs := by
      rw [hafter, hlog, hcs, append_assoc] at hbs
      exact (List.cons.inj (List.append_cancel_left hbs)).2
    rw [hpost] at ha
    exact (mem_append.mp ha).elim (fun ha => hsilent a ha hid) fun ha => hrest a ha hid

/-- A unit binds an object to a name, and is loaded again with code that reads a field of it. -/
def revisit : List Request :=
  [.load "main" "a = Ball \x7b x: 1 \x7d", .step false, .load "main" "a.x", .step false]

/-- The host is told to dispose of the object, and then that a field of it is read. -/
theorem reads_destroyed : ∃ pre post name, (History.after (new {}) revisit).log = pre ++ .destruct 1 :: post ∧
    .loadField 1 name ∈ post :=
  ⟨[.construct 1 "Ball", .storeField 1 "x" (some (.int 1)), .quit], [.loadField 1 "x"], "x", rfl, .head _⟩

/-- There code gets to the object because it is still bound to its name. -/
theorem destroyed_stays_silent_revisit : ∃ before r after, revisit = before ++ r :: after ∧
    [.construct 1 "Ball", .storeField 1 "x" (some (.int 1)), .quit, .destruct 1] <+:
      (History.after (new {}) (before ++ [r])).log ∧ (History.after (new {}) (before ++ [r])).machine.GetsTo 1 := by
  have hlog : (History.after (new {}) revisit).log =
      [.construct 1 "Ball", .storeField 1 "x" (some (.int 1)), .quit] ++ .destruct 1 :: [.loadField 1 "x"] := rfl
  have hplain : ∀ r ∈ revisit, ∀ v, r ≠ .resume v := by simp [revisit]
  obtain ⟨-, before, r, after, hsplit, -, hpre, hmention⟩ := destroyed_stays_silent (.new {})
    (fun before r after e => by
      cases r with
      | resume v => exact absurd rfl (hplain _ (by rw [e]; simp) v)
      | _ => trivial) hlog
  refine ⟨before, r, after, hsplit, hpre, ?_⟩
  rcases hmention ⟨.loadField 1 "x", .head _, rfl⟩ with hgets | ⟨mid, q, late, e, hq⟩
  · exact hgets
  · cases q with
    | resume v => exact absurd rfl (hplain _ (by rw [hsplit, e]; simp) v)
    | _ => cases hq

end Machine

end Scriptlet

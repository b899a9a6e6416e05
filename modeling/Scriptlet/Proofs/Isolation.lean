/-
  Scriptlet.Proofs.Isolation — who binds names in which scope.

  A function is called in a new scope, and binds in that scope only. Functions that were made there
  keep the scope when the call is over, and may be called at any time, also while other calls of the
  same function are under way. Of a machine only its scopes and its frames matter here (`Stage`).

  (1) Whatever is asked of a machine, scopes and frames change in five small ways (`Shifts`).
  (2) Calls have scopes of their own: scopes are numbered in the order in which they are made, and a
      call has a later scope than all frames below it (`Apart`).
  (3) While a call is under way, no scope that was there before it changes, unless a unit is loaded
      meanwhile and binds global names (`Under`).
  (4) When the frame of a call is gone, nothing binds in its scope again (`Left`).
  (5) The scopes around a function are earlier than those of its calls, if the host replies with
      functions that it got from the machine (`Rooted`).
-/

import Mathlib.Logic.Relation
import Scriptlet.Proofs.Reloading
import Scriptlet.Proofs.Rooting

namespace Scriptlet

open List (forall_mem_cons pairwise_cons)

variable {j : Nat}

namespace Scopes

variable {s : Scopes}

theorem lt_size_of_get? {c : Scope} (h : s.get? j = some c) : j < s.list.size :=
  (Array.getElem?_eq_some_iff.mp h).1

/-- A name is looked up in a scope that is around another one, if it is not bound further inside. -/
theorem resolve?_outer {i : Nat} {id : Int} {tag : Tag} {pre post : List Nat} (hc : s.chain i = pre ++ j :: post)
    (hpre : ∀ k ∈ pre, (s.table k).resolve? id = none) (htag : (s.table j).resolve? id = some tag) :
    s.resolve? i id = some (tag, j) := by
  unfold resolve? resolveIn?
  rw [hc, List.findSome?_append]
  have hnone : pre.findSome? (fun i => ((s.table i).resolve? id).map (·, i)) = none := by
    rw [List.findSome?_eq_none_iff]
    intro k hk
    rw [hpre k hk]
    rfl
  rw [hnone, List.findSome?_cons, htag]
  rfl

end Scopes

/-! ## (1) Scopes and frames -/

namespace Machine

structure Stage where
  scopes : Scopes
  frames : List Frame

def stage (m : Machine) : Stage := ⟨m.scopes, m.frames⟩

/-- What changes. Units may be loaded or not, and at least `n` frames stay. -/
inductive Shifts (loads : Prop) (n : Nat) : Stage → Stage → Prop
  | touch {s : Scopes} {f g : Frame} {rest : List Frame} : g.scope = f.scope → g.returns = f.returns →
      Shifts loads n ⟨s, f :: rest⟩ ⟨s, g :: rest⟩
  | bind {s : Scopes} {f : Frame} {rest : List Frame} (id : Int) (name : Text) (v : Option Value) :
      Shifts loads n ⟨s, f :: rest⟩ ⟨s.bind f.scope id name v, f :: rest⟩
  | call {s s' : Scopes} {fs : List Frame} {callee : Frame} : s'.list.size = s.list.size + 1 →
      (∀ j, j < s.list.size → s'.get? j = s.get? j) → callee.scope = s.list.size → callee.returns = true →
      Shifts loads n ⟨s, fs⟩ ⟨s', callee :: fs⟩
  | load {s : Scopes} {fs : List Frame} {f : Frame} : loads → f.scope = globals → f.returns = false →
      Shifts loads n ⟨s, fs⟩ ⟨s, f :: fs⟩
  | drop {s : Scopes} {f : Frame} {rest : List Frame} : n ≤ rest.length → Shifts loads n ⟨s, f :: rest⟩ ⟨s, rest⟩

abbrev Path (loads : Prop) (n : Nat) : Stage → Stage → Prop := Relation.ReflTransGen (Shifts loads n)

variable {f : Frame} {rest : List Frame} {loads : Prop} {allowed : Machine → Request → Prop}

section

variable {n : Nat} {m m' : Machine} {c : Signals}

theorem Does.path {stop pc : Nat} {i : Instr} (h : Does m f rest stop pc i m') :
    Path loads n ⟨m.scopes, f :: rest⟩ m'.stage := by
  have touched {g : Frame} (hs : g.scope = f.scope) (hr : g.returns = f.returns) :
      Path loads n ⟨m.scopes, f :: rest⟩ ⟨m.scopes, g :: rest⟩ := .single (.touch hs hr)
  cases h with
  | @store _ _ _ _ _ os => exact (touched (g := setOperands f os) rfl rfl).tail (.bind _ _ _)
  | createStruct id => exact .single (.bind _ _ _)
  | construct id =>
    refine touched ?_ ?_ <;>
    · unfold Frame.closeGroup
      split <;> rfl
  | storeField id =>
    refine touched ?_ ?_ <;>
    · unfold Frame.addField
      split <;> rfl
  | @invoke _ os =>
    refine (touched (g := setOperands f os) rfl rfl).tail (.call (size_callScope _ _ _) ?_ rfl rfl)
    intro j hj
    exact get?_callScope hj _ _ _
  | _ => exact touched rfl rfl

theorem stage_terminate (m : Machine) : m.terminate.stage = m.stage := by
  unfold terminate
  split <;> rfl

theorem leave_stage (h : m.leave f rest = .ok m') :
    m'.stage = ⟨m.scopes, rest⟩ ∨ ∃ v, m'.stage = ⟨m.scopes, deliver v rest⟩ := by
  obtain ⟨fs, hfs, rfl⟩ := leave_ok.mp h
  have hstage : (if fs.isEmpty then (m.withFrames fs).terminate else m.withFrames fs).stage = ⟨m.scopes, fs⟩ := by
    split
    · exact stage_terminate _
    · rfl
  rw [hstage]
  rcases hfs with ⟨-, rfl⟩ | ⟨-, v, -, rfl⟩
  · exact .inl rfl
  · exact .inr ⟨v, rfl⟩

theorem Spent.touches {g : Frame} {pc : Nat} (h : Spent { f with pc := pc } g) (s : Scopes) :
    Shifts loads n ⟨s, f :: rest⟩ ⟨s, g :: rest⟩ := by
  cases h
  exact .touch rfl rfl

/-- A step never gets to fewer frames than it ends with. -/
theorem ticks_path (k : Nat) (hn : n ≤ (ticks c k m).2.frames.length) :
    Path loads n m.stage (ticks c k m).2.stage := by
  induction k generalizing m c with
  | zero => exact .refl
  | succ k ih =>
    unfold ticks at hn ⊢
    cases ht : m.tick (c 0) with
    | go m' =>
      rw [ht] at hn
      cases turns_of_tick ht with
      | went _ _ hf _ _ he _ =>
        have hnext : Path loads n m.stage m'.stage := by
          rw [stage, hf]
          exact (Relation.ReflTransGen.single (.touch rfl rfl)).trans (exec_ok he).path
        exact hnext.trans (ih hn)
    | pause m' =>
      rw [ht] at hn
      cases turns_of_tick ht with
      | idle => exact stage_terminate m ▸ .refl
      | asked _ _ hf _ _ he _ =>
        rw [stage, hf]
        exact (Relation.ReflTransGen.single (.touch rfl rfl)).trans (exec_ok he).path
      | @left f rest _ _ _ _ hf _ _ hl =>
        have hdropped : Path loads n m.stage ⟨m.scopes, rest⟩ := by
          rw [stage, hf]
          exact .single (.drop (Nat.le_trans hn (Nat.le_of_eq (leave_length hl))))
        change Path loads n m.stage m'.stage
        rcases leave_stage hl with hstage | ⟨v, hstage⟩
        · rw [hstage]
          exact hdropped
        · rw [hstage]
          cases rest with
          | nil => exact hdropped
          | cons g rest => exact hdropped.tail (.touch rfl rfl)
    | stop m' h =>
      rw [ht] at hn
      cases turns_of_tick ht with
      | lost _ _ hf =>
        change Path loads n m.stage ⟨m.scopes, _⟩
        rw [stage, hf]
        exact .single (.drop hn)
      | failed _ _ hf _ _ he =>
        change Path loads n m.stage ⟨m.scopes, _⟩
        rw [stage, hf]
        exact .single ((exec_error he).touches m.scopes)
      | _ => exact .refl

def Request.isLoad : Request → Bool
  | .load _ _ | .loadNodes _ _ => true
  | _ => false

theorem Becomes.path {name : Text} {ns : List Node} (h : Becomes m name ns m') (hl : loads) :
    Path loads n m.stage m'.stage := by
  cases h with
  | refused | failedAgain | failedNew => exact .refl
  | again | new => exact .single (.load hl rfl rfl)

theorem path_clear (s : Scopes) (fs : List Frame) : Path loads 0 ⟨s, fs⟩ ⟨s, []⟩ := by
  induction fs with
  | nil => exact .refl
  | cons f rest ih => exact .head (.drop (Nat.zero_le _)) ih

theorem Request.path {r : Request} (hl : r.isLoad = true → loads) (hn : n ≤ (r.apply m).frames.length) :
    Path loads n m.stage (r.apply m).stage := by
  generalize hk : r.apply m = k at hn ⊢
  cases r.changes hk with
  | read hb | loaded hb => exact hb.path (hl rfl)
  | stepped c =>
    unfold Machine.step at hn ⊢
    cases hh : m.halted with
    | some h => exact .refl
    | none =>
      rw [hh] at hn
      cases hw : m.awaiting with
      | true => exact .refl
      | false =>
        rw [hw] at hn
        exact ticks_path _ hn
  | @resumed v =>
    change Path loads n ⟨m.scopes, m.frames⟩ ⟨m.scopes, deliver (v.getD .none) m.frames⟩
    cases m.frames with
    | nil => exact .refl
    | cons f rest => exact .single (.touch rfl rfl)
  | reset =>
    obtain rfl : n = 0 := Nat.le_zero.mp hn
    exact path_clear m.scopes m.frames
  | _ => exact .refl

inductive Visits (allowed : Machine → Request → Prop) (m : Machine) : Machine → Prop
  | refl : Visits allowed m m
  | tick {k : Machine} {c : Signals} : Visits allowed m k → k.halted = none → k.awaiting = false →
      Visits allowed m (ticks c 1 k).2
  | request {k : Machine} {r : Request} : Visits allowed m k → allowed k r → Visits allowed m (r.apply k)

variable {k : Machine}

theorem Visits.path (h : Visits allowed m k) : Path True 0 m.stage k.stage := by
  induction h with
  | refl => exact .refl
  | tick _ _ _ ih => exact ih.trans (ticks_path 1 (Nat.zero_le _))
  | request _ _ ih => exact ih.trans (Request.path (fun _ => trivial) (Nat.zero_le _))

theorem ticks_one {k' : Machine} {s : Signal} (h : k.tick s = .go k' ∨ k.tick s = .pause k') :
    (ticks (fun _ => s) 1 k).2 = k' := by
  rcases h with h | h
  · simp only [ticks, h]
  · simp only [ticks, h]

theorem Stays.path {d : Nat} (h : Stays d allowed m k) :
    Path (∃ k r, allowed k r ∧ r.isLoad = true) (d + 1) m.stage k.stage := by
  induction h with
  | refl => exact .refl
  | tick _ _ _ ht hd ih =>
    rw [← ticks_one ht] at hd ⊢
    exact ih.trans (ticks_path 1 hd)
  | request _ hr hd ih => exact ih.trans (Request.path (fun hl => ⟨_, _, hr, hl⟩) hd)

end

/-! ## (2) Calls have scopes of their own -/

/-- A unit runs in the global scope. A call runs in a scope that is later than those of all frames below it. -/
structure Apart (s : Stage) : Prop where
  there : globals < s.scopes.list.size
  inside : ∀ f ∈ s.frames, f.scope < s.scopes.list.size
  units : ∀ f ∈ s.frames, f.returns = false → f.scope = globals
  calls : ∀ f ∈ s.frames, f.returns = true → globals < f.scope
  above : s.frames.Pairwise fun f g => f.returns = true → g.scope < f.scope

section

variable {n : Nat} {s s' : Stage}

theorem Apart.shifts (h : Apart s) (hs : Shifts loads n s s') : Apart s' := by
  obtain ⟨there, inside, units, calls, above⟩ := h
  cases hs with
  | touch hscope hreturns =>
    simp only [forall_mem_cons, pairwise_cons] at inside units calls above
    refine ⟨there, ?_, ?_, ?_, ?_⟩ <;>
    · simp only [forall_mem_cons, pairwise_cons, hscope, hreturns]
      assumption
  | bind id name v =>
    refine ⟨?_, ?_, units, calls, above⟩
    · rwa [Scopes.size_bind]
    · rwa [Scopes.size_bind]
  | @call t t' fs callee hsize _ hscope hreturns =>
    have hlater : ∀ f ∈ fs, f.scope < callee.scope := hscope ▸ inside
    have hinside : ∀ f ∈ callee :: fs, f.scope < t'.list.size := by
      rw [hsize, ← hscope]
      exact forall_mem_cons.mpr ⟨Nat.lt_succ_self _, fun f hf => Nat.lt_succ_of_lt (hlater f hf)⟩
    refine ⟨?_, hinside, ?_, ?_, .cons (fun g hg _ => hlater g hg) above⟩
    · exact Nat.lt_of_lt_of_le there (hsize ▸ Nat.le_succ _)
    · refine forall_mem_cons.mpr ⟨fun hr => ?_, units⟩
      rw [hreturns] at hr
      cases hr
    · exact forall_mem_cons.mpr ⟨fun _ => hscope ▸ there, calls⟩
  | load _ hscope hreturns =>
    have hno {P : Prop} (hr : _ = true) : P := absurd (hreturns.symm.trans hr) Bool.false_ne_true
    refine ⟨there, ?_, ?_, ?_, .cons (fun _ _ hr => hno hr) above⟩
    · exact forall_mem_cons.mpr ⟨hscope ▸ there, inside⟩
    · exact forall_mem_cons.mpr ⟨fun _ => hscope, units⟩
    · exact forall_mem_cons.mpr ⟨fun hr => hno hr, calls⟩
  | drop =>
    simp only [forall_mem_cons, pairwise_cons] at inside units calls above
    exact ⟨there, inside.2, units.2, calls.2, above.2⟩

theorem Apart.path (h : Apart s) (hs : Path loads n s s') : Apart s' := by
  induction hs with
  | refl => exact h
  | tail _ hs ih => exact ih.shifts hs

theorem Initial.apart {m : Machine} (h : Initial m) : Apart m.stage := by
  have hnested := h.nested
  have hframes : ∀ f ∈ m.frames, f.returns = false ∧ f.scope = globals := by
    cases h with
    | new o =>
      rw [Machine.new, ofProgram_eq]
      exact List.forall_mem_nil _
    | @ofImage i o _ h =>
      obtain ⟨p, -, rfl⟩ := ofImage_ok h
      rw [ofProgram_eq]
      exact List.forall_mem_singleton.mpr ⟨rfl, rfl⟩
  refine ⟨hnested.there, hnested.inside, fun f hf _ => (hframes f hf).2, fun f hf hr => ?_, ?_⟩
  · rw [(hframes f hf).1] at hr
    cases hr
  · refine List.pairwise_of_forall_mem_list ?_
    intro f hf g _ hr
    rw [(hframes f hf).1] at hr
    cases hr

theorem Visits.apart {allowed : Machine → Request → Prop} {m₀ m : Machine} (h₀ : Initial m₀) (h : Visits allowed m₀ m) :
    Apart m.stage := h₀.apart.path h.path

end

/-! ## (3) While a call is under way -/

/-- A call is under way: its frame, which runs in a scope, is there, with later calls above it, and with units if any
    were loaded. The scopes that are earlier than its own are what they were. -/
structure Under (loads : Prop) (scope : Nat) (below : List Frame) (before : Scopes) (s : Stage) : Prop where
  frames : ∃ pre g, s.frames = pre ++ g :: below ∧ g.scope = scope ∧
    ∀ h ∈ pre, scope < h.scope ∨ loads ∧ h.scope = globals
  there : scope < s.scopes.list.size
  same : ∀ j, j < scope → (j = globals → ¬ loads) → s.scopes.get? j = before.get? j

section

variable {scope : Nat} {below : List Frame} {before : Scopes} {s s' : Stage}

/-- The frame that runs does not run in an earlier scope. -/
theorem Under.top (h : Under loads scope below before s) (hf : s.frames = f :: rest)
    (hj : j < scope) (hg : j = globals → ¬ loads) : j ≠ f.scope := by
  obtain ⟨pre, g, hframes, hscope, hpre⟩ := h.frames
  rw [hf] at hframes
  rintro rfl
  cases pre with
  | nil =>
    cases hframes
    omega
  | cons p pre =>
    cases hframes
    rcases hpre f List.mem_cons_self with hlt | ⟨hl, he⟩
    · omega
    · exact hg he hl

theorem Under.shifts (h : Under loads scope below before s) (hs : Shifts loads (below.length + 1) s s') :
    Under loads scope below before s' := by
  obtain ⟨pre, g, hframes, hscope, hpre⟩ := h.frames
  cases hs with
  | @touch t f f' rest hs hr =>
    refine ⟨?_, h.there, h.same⟩
    cases pre with
    | nil =>
      cases hframes
      exact ⟨[], f', rfl, hs.trans hscope, hpre⟩
    | cons p pre =>
      cases hframes
      obtain ⟨hp, hpre⟩ := forall_mem_cons.mp hpre
      exact ⟨f' :: pre, g, rfl, hscope, forall_mem_cons.mpr ⟨by rwa [hs], hpre⟩⟩
  | bind id name v =>
    refine ⟨⟨pre, g, hframes, hscope, hpre⟩, ?_, ?_⟩
    · rw [Scopes.size_bind]
      exact h.there
    · intro j hj hg
      rw [Scopes.get?_bind_ne (h.top rfl hj hg)]
      exact h.same j hj hg
  | @call t t' fs callee hsize hsame hs hr =>
    have hthere : scope < t.list.size := h.there
    refine ⟨⟨callee :: pre, g, ?_, hscope, ?_⟩, ?_, ?_⟩
    · exact congrArg (callee :: ·) hframes
    · exact forall_mem_cons.mpr ⟨.inl (hs ▸ hthere), hpre⟩
    · exact hsize ▸ Nat.lt_succ_of_lt hthere
    · intro j hj hg
      rw [hsame j (Nat.lt_trans hj hthere)]
      exact h.same j hj hg
  | @load t fs f hl hs hr =>
    refine ⟨⟨f :: pre, g, congrArg (f :: ·) hframes, hscope, ?_⟩, h.there, h.same⟩
    exact forall_mem_cons.mpr ⟨.inr ⟨hl, hs⟩, hpre⟩
  | drop hn =>
    refine ⟨?_, h.there, h.same⟩
    cases pre with
    | nil =>
      cases hframes
      omega
    | cons p pre =>
      cases hframes
      exact ⟨pre, g, rfl, hscope, (forall_mem_cons.mp hpre).2⟩

theorem Under.path (h : Under loads scope below before s) (hs : Path loads (below.length + 1) s s') :
    Under loads scope below before s' := by
  induction hs with
  | refl => exact h
  | tail _ hs ih => exact ih.shifts hs

end

/-! ## (4) When a call is over -/

structure Left (j : Nat) (c : Scope) (s : Stage) : Prop where
  called : j ≠ globals
  same : s.scopes.get? j = some c
  left : ∀ f ∈ s.frames, f.scope ≠ j

/-- No frame runs in the scope but perhaps the one with `d` frames below it. -/
def SoleAt (j d : Nat) : List Frame → Prop
  | [] => True
  | f :: rest => (f.scope = j → rest.length = d) ∧ SoleAt j d rest

section

variable {n d : Nat} {c : Scope} {s s' : Stage}

theorem Left.shifts (h : Left j c s) (hs : Shifts loads n s s') : Left j c s' := by
  obtain ⟨hcalled, hsame, hleft⟩ := h
  cases hs with
  | touch hs hr =>
    rw [forall_mem_cons] at hleft
    exact ⟨hcalled, hsame, forall_mem_cons.mpr ⟨hs ▸ hleft.1, hleft.2⟩⟩
  | bind id name v =>
    have hne := hleft _ List.mem_cons_self
    exact ⟨hcalled, by rwa [Scopes.get?_bind_ne hne.symm], hleft⟩
  | call _ hold hs _ =>
    have hlt := Scopes.lt_size_of_get? hsame
    exact ⟨hcalled, (hold j hlt).trans hsame, forall_mem_cons.mpr ⟨hs ▸ Nat.ne_of_gt hlt, hleft⟩⟩
  | load _ hs _ => exact ⟨hcalled, hsame, forall_mem_cons.mpr ⟨hs ▸ hcalled.symm, hleft⟩⟩
  | drop => exact ⟨hcalled, hsame, fun f hf => hleft f (List.mem_cons_of_mem _ hf)⟩

theorem Left.path (h : Left j c s) (hs : Path loads n s s') : Left j c s' := by
  induction hs with
  | refl => exact h
  | tail _ hs ih => exact ih.shifts hs

theorem Apart.soleAt (h : Apart s) (hf : s.frames.reverse[d]? = some f) (hr : f.returns = true) :
    SoleAt f.scope d s.frames := by
  obtain ⟨-, -, units, calls, above⟩ := h
  generalize s.frames = fs at *
  -- the frames below, when the frame itself is the first one
  have hbelow : ∀ gs : List Frame, (∀ g ∈ gs, g.scope < f.scope) → SoleAt f.scope d gs := by
    intro gs
    induction gs with
    | nil => exact fun _ => trivial
    | cons g gs ih =>
      intro h
      rw [forall_mem_cons] at h
      exact ⟨fun he => absurd he (Nat.ne_of_lt h.1), ih h.2⟩
  induction fs with
  | nil => trivial
  | cons g rest ih =>
    rw [forall_mem_cons] at units calls
    rw [pairwise_cons] at above
    by_cases hd : d < rest.length
    · rw [reverse_cons_lt hd] at hf
      refine ⟨fun he => ?_, ih hf units.2 calls.2 above.2⟩
      have hmem : f ∈ rest := List.mem_reverse.mp (List.mem_of_getElem? hf)
      cases hg : g.returns with
      | true => exact absurd he (Nat.ne_of_gt (above.1 f hmem hg))
      | false =>
        rw [units.1 hg] at he
        exact absurd he (Nat.ne_of_lt (calls.2 f hmem hr))
    · have hlt : d < (g :: rest).length := by simpa using (List.getElem?_eq_some_iff.mp hf).1
      obtain rfl : d = rest.length := by
        rw [List.length_cons] at hlt
        omega
      obtain rfl : g = f := by simpa using hf
      exact ⟨fun _ => rfl, hbelow rest fun k hk => above.1 k hk hr⟩

theorem SoleAt.shifts (h : SoleAt j d s.frames) (hj : j ≠ globals) (hlt : j < s.scopes.list.size)
    (hs : Shifts loads n s s') : SoleAt j d s'.frames ∧ j < s'.scopes.list.size := by
  cases hs with
  | touch hs hr => exact ⟨⟨hs ▸ h.1, h.2⟩, hlt⟩
  | bind id name v => exact ⟨h, by rwa [Scopes.size_bind]⟩
  | call hsize _ hs _ =>
    refine ⟨⟨fun he => ?_, h⟩, hsize ▸ Nat.lt_succ_of_lt hlt⟩
    exact absurd (he.symm.trans hs) (Nat.ne_of_lt hlt)
  | load _ hs _ => exact ⟨⟨fun he => absurd (he.symm.trans hs) hj, h⟩, hlt⟩
  | drop => exact ⟨h.2, hlt⟩

theorem SoleAt.path (h : SoleAt j d s.frames) (hj : j ≠ globals) (hlt : j < s.scopes.list.size)
    (hs : Path loads n s s') : SoleAt j d s'.frames ∧ j < s'.scopes.list.size := by
  induction hs with
  | refl => exact ⟨h, hlt⟩
  | tail _ hs ih => exact ih.1.shifts hj ih.2 hs

theorem SoleAt.left {fs : List Frame} (h : SoleAt j d fs) (hd : fs.length ≤ d) : ∀ f ∈ fs, f.scope ≠ j := by
  induction fs with
  | nil => exact List.forall_mem_nil _
  | cons f rest ih =>
    rw [List.length_cons] at hd
    refine forall_mem_cons.mpr ⟨fun he => ?_, ih h.2 (by omega)⟩
    have := h.1 he
    omega

end

/-! ## Isolation -/

section

variable {m m' m₀ k : Machine} {c : Signals}

/-- An instruction binds in the scope of its frame, and in the one that it makes. -/
theorem Does.get?_scopes {stop pc : Nat} {i : Instr} (h : Does m f rest stop pc i m') (hlt : j < m.scopes.list.size)
    (hj : j ≠ f.scope) : m'.scopes.get? j = m.scopes.get? j := by
  cases h with
  | store | createStruct => exact Scopes.get?_bind_ne hj _ _ _
  | invoke => exact get?_callScope hlt _ _ _
  | _ => rfl

theorem tick_get?_scopes (hf : m.frames = f :: rest) (hlt : j < m.scopes.list.size) (hj : j ≠ f.scope) :
    (ticks c 1 m).2.scopes.get? j = m.scopes.get? j := by
  unfold ticks
  cases ht : m.tick (c 0) with
  | go m' =>
    cases turns_of_tick ht with
    | went _ _ hf' _ _ he _ =>
      cases hf.symm.trans hf'
      exact (exec_ok he).get?_scopes hlt hj
  | pause m' =>
    cases turns_of_tick ht with
    | idle _ _ hf' => cases hf.symm.trans hf'
    | asked _ _ hf' _ _ he _ =>
      cases hf.symm.trans hf'
      exact (exec_ok he).get?_scopes hlt hj
    | left _ _ _ _ _ hl =>
      rcases leave_stage hl with hstage | ⟨v, hstage⟩
      · exact congrArg (fun s => s.scopes.get? j) hstage
      · exact congrArg (fun s => s.scopes.get? j) hstage
  | stop m' h =>
    cases turns_of_tick ht <;> rfl

theorem Visits.rooted (h₀ : Initial m₀) (h : Visits allowed m₀ m) (hp : ∀ k r, allowed k r → r.Proper k) : Rooted m := by
  induction h with
  | refl => exact h₀.rooted
  | tick _ _ hw ih => exact kept_rooted.ticks 1 ih hw
  | request _ hr ih => exact ih.apply (hp _ _ hr)

/-- The scopes that were there when a function was called stay what they are as long as the call is under way, and in
    the tick that ends it. -/
theorem Apart.during (h : Apart m.stage) (hf : m.frames = f :: rest) (hk : Stays rest.length allowed m k) (hj : j < f.scope)
    (hg : j = globals → ∀ n r, allowed n r → r.isLoad = false) :
    k.scopes.get? j = m.scopes.get? j ∧ (ticks c 1 k).2.scopes.get? j = m.scopes.get? j := by
  have hmem : f ∈ m.frames := by
    rw [hf]
    exact List.mem_cons_self
  have hthere : f.scope < m.scopes.list.size := h.inside f hmem
  have hstart : Under (∃ k r, allowed k r ∧ r.isLoad = true) f.scope rest m.scopes m.stage :=
    ⟨⟨[], f, hf, rfl, List.forall_mem_nil _⟩, hthere, fun _ _ _ => rfl⟩
  have hend := hstart.path hk.path
  have hno : j = globals → ¬ ∃ k r, allowed k r ∧ r.isLoad = true := by
    rintro he ⟨k, r, hr, hl⟩
    rw [hg he k r hr] at hl
    cases hl
  have hsame := hend.same j hj hno
  refine ⟨hsame, ?_⟩
  obtain ⟨pre, g, hframes, -⟩ := hend.frames
  cases hk : k.frames with
  | nil =>
    replace hframes : k.frames = pre ++ g :: rest := hframes
    simp [hk] at hframes
  | cons top below =>
    exact (tick_get?_scopes hk (Nat.lt_trans hj hend.there) (hend.top hk hj hno)).trans hsame

/-- When the frame of a call is not there any more, its scope stays what it is. -/
theorem Apart.after {d : Nat} {n : Machine} (h : Apart m.stage) (hf : m.frameAt d = some f) (hr : f.returns = true)
    (hn : Visits allowed m n) (hd : n.frames.length ≤ d) {allowed' : Machine → Request → Prop}
    (hk : Visits allowed' n k) : k.scopes.get? f.scope = n.scopes.get? f.scope := by
  have hmem : f ∈ m.frames := List.mem_reverse.mp (List.mem_of_getElem? hf)
  have hcalled : f.scope ≠ globals := Nat.ne_of_gt (h.calls f hmem hr)
  obtain ⟨hsole, hlt⟩ := (h.soleAt hf hr).path hcalled (h.inside f hmem) hn.path
  obtain ⟨c, hc⟩ : ∃ c, n.scopes.get? f.scope = some c := ⟨_, Array.getElem?_eq_getElem hlt⟩
  have hleft : Left f.scope c n.stage := ⟨hcalled, hc, hsole.left hd⟩
  exact (hleft.path hk.path).same.trans hc.symm

/-- Code binds names in its own scope only. An instruction changes at most the scope of its frame. Calls on the stack have
    scopes of their own, none of which is the global one. While a call is under way, and in the tick that ends it, the
    scopes that were there before stay what they are: those around the function, which are earlier ones, and the global
    one unless a unit is loaded meanwhile. Once its frame is gone, the scope of a call is never changed again,
    so that whatever is looked up through it later is found as it was then. -/
theorem scopes_isolated (h₀ : Initial m₀) (hm : Visits allowed m₀ m) :
    (∀ c f rest j, m.frames = f :: rest → j < m.scopes.list.size → j ≠ f.scope →
        (ticks c 1 m).2.scopes.get? j = m.scopes.get? j) ∧
      (m.frames.Pairwise (fun f g => f.returns = true → g.returns = true → f.scope ≠ g.scope) ∧
        ∀ f ∈ m.frames, f.returns = true → f.scope ≠ globals) ∧
      (∀ f rest, m.frames = f :: rest → f.returns = true → ∀ asked k j, Stays rest.length asked m k → j < f.scope →
        (j = globals → ∀ n r, asked n r → r.isLoad = false) →
        k.scopes.get? j = m.scopes.get? j ∧ ∀ c, (ticks c 1 k).2.scopes.get? j = m.scopes.get? j) ∧
      ((∀ k r, allowed k r → r.Proper k) →
        ∀ f ∈ m.frames, ∀ j ∈ m.scopes.chain f.scope, j = f.scope ∨ j < f.scope) ∧
      ∀ d f, m.frameAt d = some f → f.returns = true → ∀ n, Visits (fun _ _ => True) m n → n.frames.length ≤ d →
        ∀ k, Visits (fun _ _ => True) n k → k.scopes.get? f.scope = n.scopes.get? f.scope ∧
          ∀ i id tag pre post, k.scopes.chain i = pre ++ f.scope :: post →
            (∀ p ∈ pre, (k.scopes.table p).resolve? id = none) → (n.scopes.table f.scope).resolve? id = some tag →
            k.scopes.resolve? i id = some (tag, f.scope) := by
  have hapart := hm.apart h₀
  refine ⟨?_, ⟨?_, ?_⟩, ?_, ?_, ?_⟩
  · intro c f rest j hf hlt hj
    exact tick_get?_scopes hf hlt hj
  · exact hapart.above.imp fun hlt hr _ => Nat.ne_of_gt (hlt hr)
  · intro f hf hr
    exact Nat.ne_of_gt (hapart.calls f hf hr)
  · intro f rest hf _ asked k j hk hj hg
    exact ⟨(hapart.during (c := false) hf hk hj hg).1, fun c => (hapart.during hf hk hj hg).2⟩
  · intro hp f hf j hj
    have hrooted := hm.rooted h₀ hp
    have hle := hrooted.older f.scope (hrooted.nested.inside f hf) j hj
    omega
  · intro d f hf hr n hn hd k hk
    have hsame := hapart.after hf hr hn hd hk
    refine ⟨hsame, ?_⟩
    intro i id tag pre post hchain hpre htag
    refine Scopes.resolve?_outer hchain hpre ?_
    rwa [Scopes.table, hsame]

end

/-- A function is called and asks the host. It makes another function, which is to be called when the first one has
    been left. -/
def inCall : Machine :=
  Request.apply (Request.apply (new { hostNames := ["ask"] })
    (.load "main" "mk = x => \x7b ask(x) y => \x7b ask(y) x \x7d \x7d g = mk(1) g(2)")) (.step false)

def behindCall (m : Machine) : Machine := Request.apply (Request.apply m (.resume none)) (.step false)

/-- The variable of the first call is found from the second one, with the value that it had when the first one was left. -/
theorem scopes_isolated_captured :
    ∃ (f : Frame) (tag : Tag), inCall.frameAt 1 = some f ∧ f.returns = true ∧ f.scope ≠ globals ∧ tag.name = ("x" : Text) ∧
      ((behindCall inCall).scopes.table f.scope).resolve? 3 = some tag ∧
      (Request.apply (behindCall inCall) (.step false)).scopes.chain 2 = [2, f.scope, globals] ∧
      (Request.apply (behindCall inCall) (.step false)).scopes.resolve? 2 3 = some (tag, f.scope) := by
  have hframe : (inCall.frameAt 1).map (fun f => (f.returns, f.scope)) = some (true, 1) := by decide +kernel
  have hgone : (behindCall inCall).frames.length = 1 := by decide +kernel
  have hbound : (((behindCall inCall).scopes.table 1).resolve? 3).map (·.name) = some "x" := by decide +kernel
  have hchain : (Request.apply (behindCall inCall) (.step false)).scopes.chain 2 = [2, 1, 0] := by decide +kernel
  have hfree : (((Request.apply (behindCall inCall) (.step false)).scopes.table 2).resolve? 3).isNone = true := by
    decide +kernel
  have hvisits : Visits (fun _ _ => True) (new { hostNames := ["ask"] }) inCall := .request (.request .refl trivial) trivial
  -- from here on nothing is evaluated
  generalize inCall = m at *
  obtain ⟨f, hf, hshape⟩ := Option.map_eq_some_iff.mp hframe
  obtain ⟨hr, hscope⟩ := Prod.mk.inj hshape
  obtain ⟨tag, htag, hname⟩ := Option.map_eq_some_iff.mp hbound
  rw [← hscope] at htag hchain
  obtain ⟨-, ⟨-, hglobal⟩, -, -, hlater⟩ := scopes_isolated (.new _) hvisits
  have hmem : f ∈ m.frames := List.mem_reverse.mp (List.mem_of_getElem? hf)
  have hleft : Visits (fun _ _ => True) m (behindCall m) := .request (.request .refl trivial) trivial
  obtain ⟨-, hfound⟩ := hlater 1 f hf hr _ hleft (Nat.le_of_eq hgone) _ (.request .refl trivial)
  refine ⟨f, tag, hf, hr, hglobal f hmem hr, hname, htag, hchain, hfound 2 3 tag [2] [0] hchain ?_ htag⟩
  exact List.forall_mem_singleton.mpr (Option.isNone_iff_eq_none.mp hfree)

end Machine

end Scriptlet

/-
  Scriptlet.Proofs.Reach — what code can get to.

  Code finds values in the places of its frames and in the scopes around them (`Machine.Root`). From
  there it gets to what is inside of them, and through functions to the variables of the scopes that
  are around those (`Value.Leads`).

  (1) Frames run in scopes that are there, since a scope is made before a frame runs in it (`Nested`).
  (2) What code cannot get to is behind a fence: a set of scopes that code does not leave, and in
      which no place leads to it (`getsTo_iff`). An instruction moves the fence by the scope that it
      makes, if any, and brings nothing inside but the object that it makes (`Does.fenced`).
-/

import Scriptlet.Proofs.Requests
import Scriptlet.Proofs.Mirror

namespace Scriptlet

/-! ## What code can get to -/

/-- From the first value code can get to the second one: it is an item, a field, the receiver of a method, or the value
    of a variable of a function, or inside of one of these. -/
inductive Value.Leads (s : Scopes) : Value → Value → Prop
  | self (v : Value) : Leads s v v
  | item {items : List (Option Value)} {v w : Value} : some v ∈ items → Leads s v w → Leads s (.array items) w
  | field {o : Object} {fd : Field} {v w : Value} : fd ∈ o.fields → fd.value = some v → Leads s v w → Leads s (.object o) w
  | receiver {symbol : Int} {name : Text} {o : Object} {w : Value} : Leads s (.object o) w →
      Leads s (.host symbol name (some o)) w
  | captured {c : Closure} {k : Nat} {t : Tag} {v w : Value} : k ∈ c.scopes → t ∈ (s.table k).tags → t.value = some v →
      Leads s v w → Leads s (.closure c) w

inductive Machine.Root (m : Machine) : Option Value → Prop
  | global {t : Tag} : t ∈ (m.scopes.table globals).tags → Root m t.value
  | bound {f : Frame} {k : Nat} {t : Tag} : f ∈ m.frames → k ∈ m.scopes.chain f.scope → t ∈ (m.scopes.table k).tags →
      Root m t.value
  | operand {f : Frame} {o : Operand} : f ∈ m.frames → o ∈ f.operands → Root m o.value
  | field {f : Frame} {g : List Field} {fd : Field} : f ∈ m.frames → g ∈ f.groups → fd ∈ g → Root m fd.value
  | result {f : Frame} : f ∈ m.frames → Root m f.result

def Value.LeadsTo (s : Scopes) (u : Value) (id : Int) : Prop := ∃ o, u.Leads s (.object o) ∧ o.id = id

def Machine.GetsTo (m : Machine) (id : Int) : Prop := ∃ u, m.Root (some u) ∧ u.LeadsTo m.scopes id

variable {s : Scopes}

namespace Value

variable {u v w : Value} {o : Object}

theorem Leads.trans (huv : Leads s u v) (hvw : Leads s v w) : Leads s u w := by
  induction huv with
  | self => exact hvw
  | item hv _ ih => exact .item hv (ih hvw)
  | field hfd hv _ ih => exact .field hfd hv (ih hvw)
  | receiver _ ih => exact .receiver (ih hvw)
  | captured hk ht hv _ ih => exact .captured hk ht hv (ih hvw)

theorem Contains.leads (h : u.Contains o) : u.Leads s (.object o) := by
  induction h with
  | self => exact .self _
  | field hfd hv _ ih => exact .field hfd hv ih
  | item hv _ ih => exact .item hv ih
  | receiver _ ih => exact .receiver ih

/-- An object that is not inside of a value is reached through a function. -/
theorem Leads.contains_or (h : u.Leads s (.object o)) :
    u.Contains o ∨ ∃ c, u.Leads s (.closure c) ∧ (Value.closure c).Leads s (.object o) := by
  generalize hw : Value.object o = w at h
  induction h with
  | self =>
    subst hw
    exact .inl .self
  | item hv _ ih =>
    rcases ih hw with h | ⟨c, hc, ho⟩
    · exact .inl (.item hv h)
    · exact .inr ⟨c, .item hv hc, ho⟩
  | field hfd hv _ ih =>
    rcases ih hw with h | ⟨c, hc, ho⟩
    · exact .inl (.field hfd hv h)
    · exact .inr ⟨c, .field hfd hv hc, ho⟩
  | receiver _ ih =>
    rcases ih hw with h | ⟨c, hc, ho⟩
    · exact .inl (.receiver h)
    · exact .inr ⟨c, .receiver hc, ho⟩
  | captured hk ht hv h _ => exact .inr ⟨_, .self _, .captured hk ht hv (hw ▸ h)⟩

section

variable {Q : Closure → Prop}

mutual

theorem every_of_leads : ∀ {v : Value}, (∀ c, v.Leads s (.closure c) → Q c) → v.Every Q
  | .array _ => fun h => everyItem_of_leads fun _ hv c hc => h c (.item hv hc)
  | .closure c => fun h => h c (.self _)
  | .object _ => fun h => everyObject_of_leads h
  | .host _ _ Option.none => fun _ => trivial
  | .host _ _ (some _) => fun h => everyObject_of_leads fun c hc => h c (.receiver hc)
  | .none | .int _ | .float _ | .str _ | .bool _ | .proto _ | .structType _ | .builtin _ => fun _ => trivial

theorem everyItem_of_leads : ∀ {vs : List (Option Value)}, (∀ v, some v ∈ vs → ∀ c, v.Leads s (.closure c) → Q c) →
    EveryItem Q vs
  | [] => fun _ => trivial
  | Option.none :: _ => fun h => ⟨trivial, everyItem_of_leads fun v hv => h v (.tail _ hv)⟩
  | some v :: _ => fun h => ⟨every_of_leads (h v (.head _)), everyItem_of_leads fun v hv => h v (.tail _ hv)⟩

theorem everyObject_of_leads : ∀ {o : Object}, (∀ c, (Value.object o).Leads s (.closure c) → Q c) → EveryObject Q o
  | ⟨_, _, _, _, _⟩ => fun h => everyField_of_leads fun _ hfd _ hv c hc => h c (.field hfd hv hc)

theorem everyField_of_leads : ∀ {fs : List Field},
    (∀ fd ∈ fs, ∀ v, fd.value = some v → ∀ c, v.Leads s (.closure c) → Q c) → EveryField Q fs
  | [] => fun _ => trivial
  | ⟨_, _, Option.none⟩ :: _ => fun h => ⟨trivial, everyField_of_leads fun fd hfd => h fd (.tail _ hfd)⟩
  | ⟨_, _, some v⟩ :: _ => fun h =>
    ⟨every_of_leads (h _ (.head _) v rfl), everyField_of_leads fun fd hfd => h fd (.tail _ hfd)⟩

end

end

end Value

/-! ## Scopes -/

namespace Scopes

structure Within (s s' : Scopes) : Prop where
  size : s.list.size ≤ s'.list.size
  chain : ∀ i, i < s.list.size → s'.chain i = s.chain i

namespace Within

variable {s' s'' : Scopes}

theorem refl (s : Scopes) : s.Within s := ⟨Nat.le_refl _, fun _ _ => rfl⟩

theorem trans (h : s.Within s') (h' : s'.Within s'') : s.Within s'' :=
  ⟨Nat.le_trans h.size h'.size, fun i hi => (h'.chain i (Nat.lt_of_lt_of_le hi h.size)).trans (h.chain i hi)⟩

theorem bind (s : Scopes) (i : Nat) (id : Int) (name : Text) (v : Option Value) : s.Within (s.bind i id name v) := by
  refine ⟨by simp [Scopes.bind, update], fun j _ => ?_⟩
  unfold Scopes.bind update Scopes.chain get?
  rw [Array.getElem?_modify]
  by_cases h : i = j
  · subst h
    cases s.list[i]? <;> simp
  · simp [h]

theorem add (s : Scopes) (name : Text) (outer : List Nat) : s.Within (s.add name outer).2 := by
  refine ⟨by simp [Scopes.add], fun j hj => ?_⟩
  have hne : j ≠ s.list.size := Nat.ne_of_lt hj
  simp [Scopes.add, Scopes.chain, get?, Array.getElem?_push, hne]

end Within

theorem chain_add (s : Scopes) (name : Text) (outer : List Nat) :
    (s.add name outer).2.chain s.list.size = s.list.size :: outer := by
  simp [Scopes.add, Scopes.chain, get?]

end Scopes

namespace Machine

theorem within_callScope (m : Machine) (name : Text) (c : Closure) (args : List Value) :
    (m.scopes.add name c.scopes).2.Within (m.callScope name c args).2 :=
  List.foldlRecOn (motive := fun s : Scopes => (m.scopes.add name c.scopes).2.Within s) _ _ (.refl _)
    fun _ hs _ _ => hs.trans (.bind _ _ _ _ _)

section

variable {m m' : Machine} {f : Frame} {rest : List Frame} {stop pc : Nat} {i : Instr}

theorem Does.within_scopes (h : Does m f rest stop pc i m') : m.scopes.Within m'.scopes := by
  cases h with
  | store | createStruct => exact .bind _ _ _ _ _
  | invoke => exact (Scopes.Within.add _ _ _).trans (within_callScope m _ _ _)
  | _ => exact .refl _

/-- A frame runs in the scope in which it ran before, or is a function's, in a scope inside of those of the function. -/
theorem Does.scope_cases (h : Does m f rest stop pc i m') : ∀ g ∈ m'.frames,
    (∃ k ∈ f :: rest, g.scope = k.scope) ∨
      g.scope < m'.scopes.list.size ∧ ∃ c j, ⟨some (.closure c), j⟩ ∈ f.operands ∧
        m'.scopes.chain g.scope = m.scopes.list.size :: c.scopes := by
  have top {g : Frame} {P : Frame → Prop} (hg : g.scope = f.scope) :
      ∀ k ∈ g :: rest, (∃ j ∈ f :: rest, k.scope = j.scope) ∨ P k := by
    intro k hk
    left
    rcases List.mem_cons.mp hk with rfl | hk
    · exact ⟨f, List.mem_cons_self, hg⟩
    · exact ⟨k, List.mem_cons_of_mem _ hk, rfl⟩
  cases h with
  | construct id =>
    refine top ?_
    unfold Frame.closeGroup
    split <;> rfl
  | storeField id =>
    refine top ?_
    unfold Frame.addField
    split <;> rfl
  | @invoke as os vs c j ho =>
    intro g hg
    rcases List.mem_cons.mp hg with rfl | hg
    · right
      have hw := within_callScope m ((j.map m.name).getD "<anonymous>") c vs
      have hlt : m.scopes.list.size < (m.scopes.add ((j.map m.name).getD "<anonymous>") c.scopes).2.list.size := by
        simp [Scopes.add]
      refine ⟨Nat.lt_of_lt_of_le hlt hw.size, c, j, by simp [ho], ?_⟩
      exact (hw.chain _ hlt).trans (Scopes.chain_add _ _ _)
    · left
      rcases List.mem_cons.mp hg with rfl | hg
      · exact ⟨f, List.mem_cons_self, rfl⟩
      · exact ⟨g, List.mem_cons_of_mem _ hg, rfl⟩
  | _ => exact top rfl

end

/-! ## (1) Where frames run -/

structure Nested (m : Machine) : Prop where
  outermost : m.scopes.chain globals = [globals]
  there : globals < m.scopes.list.size
  inside : ∀ f ∈ m.frames, f.scope < m.scopes.list.size

theorem scopes_deliver {P : Nat → Prop} {v : Value} {fs : List Frame} (h : ∀ f ∈ fs, P f.scope) :
    ∀ f ∈ deliver v fs, P f.scope := by
  cases fs with
  | nil => exact h
  | cons g gs =>
    simp only [deliver, List.forall_mem_cons] at h ⊢
    exact ⟨h.1, h.2⟩

theorem kept_nested : Kept Nested where
  exec {m m' f rest code i} h _ hf _ _ hd := by
    have hw := hd.within_scopes
    have hinside : ∀ g ∈ f :: rest, g.scope < m.scopes.list.size := hf ▸ h.inside
    refine ⟨(hw.chain _ h.there).trans h.outermost, Nat.lt_of_lt_of_le h.there hw.size, fun g hg => ?_⟩
    rcases hd.scope_cases g hg with ⟨k, hk, e⟩ | ⟨hlt, -⟩
    · refine e ▸ Nat.lt_of_lt_of_le ?_ hw.size
      rcases List.mem_cons.mp hk with rfl | hk
      · exact hinside f List.mem_cons_self
      · exact hinside k (List.mem_cons_of_mem _ hk)
    · exact hlt
  spend {m f g rest} h hf hg := by
    have hinside : ∀ k ∈ f :: rest, k.scope < m.scopes.list.size := hf ▸ h.inside
    rw [List.forall_mem_cons] at hinside
    refine ⟨h.outermost, h.there, List.forall_mem_cons.mpr ⟨?_, hinside.2⟩⟩
    cases hg
    exact hinside.1
  drop {m f rest} h hf := ⟨h.outermost, h.there, fun g hg => h.inside g (hf ▸ List.mem_cons_of_mem _ hg)⟩
  deliver {m f rest v} h hf _ := ⟨h.outermost, h.there, scopes_deliver (P := (· < m.scopes.list.size))
    fun g hg => h.inside g (by simp [hf, hg])⟩
  terminate {m} h := by
    unfold Machine.terminate
    split
    · exact h
    · exact ⟨h.outermost, h.there, h.inside⟩
  abort h := ⟨h.outermost, h.there, h.inside⟩
  halt _ h _ := ⟨h.outermost, h.there, h.inside⟩

section

variable {m m' : Machine}

/-- Code that is loaded runs in the global scope. -/
theorem Nested.enter (h : Nested m) (hs : m'.scopes = m.scopes) (hf : m'.frames = m.frames) (name : Text) (block : Int) :
    Nested (m'.enter name block) := by
  refine ⟨hs ▸ h.outermost, hs ▸ h.there, ?_⟩
  simp only [Machine.enter, List.forall_mem_cons, hf, hs]
  exact ⟨h.there, h.inside⟩

theorem Nested.becomes {name : Text} {ns : List Node} (h : Nested m) (hb : Becomes m name ns m') : Nested m' := by
  cases hb with
  | refused => exact h
  | failedAgain | failedNew => exact ⟨h.outermost, h.there, h.inside⟩
  | again | new => refine h.enter ?_ ?_ _ _ <;> rfl

theorem Nested.apply (h : Nested m) (r : Request) : Nested (r.apply m) := by
  generalize hk : r.apply m = k
  cases r.changes hk with
  | unread | unawaited => exact h
  | read hb | loaded hb => exact h.becomes hb
  | stepped c => exact kept_nested.step h
  | drained | aborted => exact ⟨h.outermost, h.there, h.inside⟩
  | resumed => exact ⟨h.outermost, h.there, scopes_deliver (P := (· < m.scopes.list.size)) h.inside⟩
  | reset => exact ⟨h.outermost, h.there, List.forall_mem_nil _⟩

theorem Initial.nested (h : Initial m) : Nested m := by
  have start (ids : Text → Int) (names : List Text) :
      (⟨#[{ name := "globals" }]⟩ : Scopes).Within (Scopes.initial ids names) :=
    (Scopes.Within.bind _ _ _ _ _).trans
      (List.foldlRecOn (motive := fun s : Scopes => Scopes.Within _ s) _ _ (.refl _) fun _ hs _ _ => hs.trans (.bind _ _ _ _ _))
  have empty (p : Program) (o : Options) : Nested (ofProgram p o) := by
    rw [ofProgram_eq]
    exact ⟨(start _ _).chain 0 (by decide), Nat.lt_of_lt_of_le (by decide) (start _ _).size, by simp⟩
  cases h with
  | new o => exact empty {} o
  | @ofImage i o _ h =>
    obtain ⟨p, -, rfl⟩ := ofImage_ok h
    refine (empty p o).enter ?_ ?_ _ _ <;> rfl

theorem nested_after (h : Initial m) (rs : List Request) : Nested (History.after m rs).machine := by
  induction rs using List.reverseRecOn with
  | nil => exact h.nested
  | append_singleton rs r ih =>
    rw [History.after_snoc]
    exact ih.apply r

end

end Machine

/-! ## (2) Out of reach -/

namespace Value

/-- The place has no object with the number inside, and only scopes in `S` are around its functions. -/
def Spares (S : Nat → Prop) (id : Int) (v : Option Value) : Prop :=
  Within (· ≠ id) v ∧ EveryPlace (fun c => ∀ k ∈ c.scopes, S k) v

variable {S S' : Nat → Prop} {id : Int}

theorem Spares.mono (h : ∀ k, S k → S' k) (v : Option Value) (hv : Spares S id v) : Spares S' id v :=
  ⟨hv.1, hv.2.mono fun _ hc k hk => h k (hc k hk)⟩

theorem inherited_spares (S : Nat → Prop) (id : Int) : Inherited (Spares S id) where
  none := ⟨(inherited_within _).none, (inherited_every _).none⟩
  flat h := ⟨(inherited_within _).flat h, (inherited_every _).flat h⟩
  array h := ⟨(inherited_within _).array fun v hv => (h v hv).1, (inherited_every _).array fun v hv => (h v hv).2⟩
  member h := ⟨(inherited_within _).member h.1, (inherited_every _).member h.2⟩

/-- Nothing outside of `S` can be reached from such a place, nor an object with the number. -/
theorem Spares.leads {u w : Value} (hs : s.AllIn S (Spares S id)) (h : u.Leads s w) (hu : Spares S id (some u)) :
    Spares S id (some w) := by
  induction h with
  | self => exact hu
  | item hv _ ih =>
    refine ih ⟨fun x o hx ho => ?_, everyItem_iff.mp hu.2 _ hv⟩
    cases hx
    exact hu.1 _ o rfl (.item hv ho)
  | @field o fd v w hfd hv _ ih =>
    have hevery := everyObject_iff.mp hu.2 fd hfd
    rw [hv] at hevery
    refine ih ⟨fun x o hx ho => ?_, hevery⟩
    cases hx
    exact hu.1 _ o rfl (.field hfd hv ho)
  | receiver _ ih =>
    refine ih ⟨fun x o hx ho => ?_, hu.2⟩
    cases hx
    exact hu.1 _ o rfl (.receiver ho)
  | captured hk ht hv _ ih => exact ih (hv ▸ hs _ (hu.2 _ hk) _ ht)

/-- What does not lead to the object is spared, if `S` has all scopes that it leads to. -/
theorem spares_of_leads {u : Value} (hid : ¬ u.LeadsTo s id)
    (hS : ∀ c, u.Leads s (.closure c) → ∀ k ∈ c.scopes, S k) : Spares S id (some u) := by
  refine ⟨fun x o hx ho hoid => ?_, every_of_leads hS⟩
  cases hx
  exact hid ⟨o, ho.leads, hoid⟩

end Value

namespace Machine

/-- Code stays in the scopes of `S`, and there is no object with the number in any of their places. -/
structure Fenced (S : Nat → Prop) (id : Int) (m : Machine) : Prop where
  global : S globals
  chains : ∀ f ∈ m.frames, ∀ k ∈ m.scopes.chain f.scope, S k
  scopes : m.scopes.AllIn S (Value.Spares S id)
  frames : ∀ f ∈ m.frames, f.All (Value.Spares S id)

section

variable {S : Nat → Prop} {id : Int} {m m' : Machine}

theorem Fenced.root (h : Fenced S id m) {v : Option Value} (hv : m.Root v) : Value.Spares S id v := by
  cases hv with
  | global ht => exact h.scopes _ h.global _ ht
  | bound hf hk ht => exact h.scopes _ (h.chains _ hf _ hk) _ ht
  | operand hf ho => exact (h.frames _ hf).operands _ ho
  | field hf hg hfd => exact (h.frames _ hf).groups _ hg _ hfd
  | result hf => exact (h.frames _ hf).result

/-- Code gets to the object exactly if nothing fences it off. -/
theorem getsTo_iff : m.GetsTo id ↔ ¬ ∃ S, Fenced S id m := by
  constructor
  · rintro ⟨u, hu, o, ho, rfl⟩ ⟨S, h⟩
    exact ((h.root hu).leads h.scopes ho).1 _ o rfl .self rfl
  · intro h
    by_contra hno
    -- The fence is around all scopes that code gets to.
    let S : Nat → Prop := fun k => k = globals ∨ (∃ f ∈ m.frames, k ∈ m.scopes.chain f.scope) ∨
      ∃ u c, m.Root (some u) ∧ u.Leads m.scopes (.closure c) ∧ k ∈ c.scopes
    have hroot {v : Option Value} (hv : m.Root v) : Value.Spares S id v := by
      cases v with
      | none => exact (Value.inherited_spares S id).none
      | some u =>
        refine Value.spares_of_leads (fun hu => hno ⟨u, hv, hu⟩) fun c hc k hk => ?_
        exact .inr (.inr ⟨u, c, hv, hc, hk⟩)
    refine h ⟨S, .inl rfl, fun f hf k hk => .inr (.inl ⟨f, hf, hk⟩), ?_, ?_⟩
    · intro k hk t ht
      rcases hk with rfl | ⟨f, hf, hk⟩ | ⟨u, c, hu, hc, hk⟩
      · exact hroot (.global ht)
      · exact hroot (.bound hf hk ht)
      · cases hv : t.value with
        | none => exact (Value.inherited_spares S id).none
        | some v =>
          have hlead {w : Value} (hw : v.Leads m.scopes w) : u.Leads m.scopes w := hc.trans (.captured hk ht hv hw)
          refine Value.spares_of_leads ?_ fun d hd j hj => .inr (.inr ⟨u, d, hu, hlead hd, hj⟩)
          rintro ⟨o, ho, hoid⟩
          exact hno ⟨u, hu, o, hlead ho, hoid⟩
    · intro f hf
      exact ⟨fun o ho => hroot (.operand hf ho), fun g hg fd hfd => hroot (.field hf hg hfd), hroot (.result hf)⟩

/-- Other frames, which have nothing new, do not change the fence. -/
theorem Fenced.withFrames (h : Fenced S id m) {fs : List Frame} (hc : ∀ f ∈ fs, ∀ k ∈ m.scopes.chain f.scope, S k)
    (hfs : ∀ f ∈ fs, f.All (Value.Spares S id)) : Fenced S id (m.withFrames fs) := ⟨h.global, hc, h.scopes, hfs⟩

/-- An instruction gets to nothing but what it makes, and to the scope of the function that it calls. -/
theorem Does.fenced {f : Frame} {rest : List Frame} {stop pc : Nat} {i : Instr} (hd : Does m f rest stop pc i m')
    (hconst : ∀ v ∈ m.program.consts, v.IsConstant m.program) (hn : ∀ g ∈ f :: rest, g.scope < m.scopes.list.size)
    (hid : id ≤ m.registry.last) (h : Fenced S id (m.withFrames (f :: rest))) :
    Fenced (fun k => S k ∨ k = m.scopes.list.size) id m' := by
  have grow : ∀ v, Value.Spares S id v → Value.Spares (fun k => S k ∨ k = m.scopes.list.size) id v :=
    Value.Spares.mono fun _ => .inl
  have hscopes : m.scopes.AllIn S (Value.Spares (fun k => S k ∨ k = m.scopes.list.size) id) :=
    fun k hk t ht => grow _ (h.scopes k hk t ht)
  have hframes : ∀ g ∈ f :: rest, g.All (Value.Spares S id) := h.frames
  have hchains : ∀ g ∈ f :: rest, ∀ k ∈ m.scopes.chain g.scope, S k := h.chains
  have hf := hframes f List.mem_cons_self
  obtain ⟨hscopes', hframes'⟩ := hd.allIn (Value.inherited_spares _ id) hscopes (hchains f List.mem_cons_self)
    (hf.mono grow) (fun g hg => (hframes g (List.mem_cons_of_mem _ hg)).mono grow)
    ⟨fun v _ hv => (Value.inherited_spares _ id).flat (hconst v (Program.mem_of_const? hv)).isFlat,
    (by
      intro p i' as os ids _ _ _ _ _
      refine ⟨fun u o hu ho => ?_, fun k hk => .inl (hchains f List.mem_cons_self k hk)⟩
      cases hu
      cases ho),
    by
      intro _ _ hfields
      refine ⟨Value.within_newObject (by omega) fun fd hfd => (hfields fd hfd).1, ?_⟩
      exact every_newObject fun fd hfd => (hfields fd hfd).2⟩
  refine ⟨.inl h.global, fun g hg k hk => ?_, hscopes', hframes'⟩
  rcases hd.scope_cases g hg with ⟨j, hj, e⟩ | ⟨-, c, j, hc, e⟩
  · rw [e, hd.within_scopes.chain _ (hn j hj)] at hk
    exact .inl (hchains j hj k hk)
  · rw [e] at hk
    rcases List.mem_cons.mp hk with rfl | hk
    · exact .inr rfl
    · exact .inl ((hf.operands _ hc).2 k hk)

/-- A value that does not lead to the object may be brought inside of the fence. -/
theorem Fenced.learn (h : Fenced S id m) {v : Value} (hv : ¬ v.LeadsTo m.scopes id) :
    ∃ S', Fenced S' id m ∧ Value.Spares S' id (some v) := by
  let S' : Nat → Prop := fun k => S k ∨ ∃ c, v.Leads m.scopes (.closure c) ∧ k ∈ c.scopes
  have grow : ∀ v, Value.Spares S id v → Value.Spares S' id v := Value.Spares.mono fun _ => .inl
  have hled {w : Value} (hw : v.Leads m.scopes w) : Value.Spares S' id (some w) := by
    refine Value.spares_of_leads ?_ fun c hc k hk => .inr ⟨c, hw.trans hc, hk⟩
    rintro ⟨o, ho, hoid⟩
    exact hv ⟨o, hw.trans ho, hoid⟩
  refine ⟨S', ⟨.inl h.global, fun f hf k hk => .inl (h.chains f hf k hk), ?_, fun f hf => (h.frames f hf).mono grow⟩,
    hled (.self v)⟩
  intro k hk t ht
  rcases hk with hk | ⟨c, hc, hk⟩
  · exact grow _ (h.scopes k hk t ht)
  · cases hw : t.value with
    | none => exact (Value.inherited_spares S' id).none
    | some w => exact hled (hc.trans (.captured hk ht hw (.self w)))

/-- Code that is loaded starts with the global scope. -/
theorem Fenced.enter (h : Fenced S id m) (hn : Nested m) (hs : m'.scopes = m.scopes) (hf : m'.frames = m.frames)
    (name : Text) (block : Int) : Fenced S id (m'.enter name block) := by
  have hframes : (m'.enter name block).frames = ⟨name, name, block, 0, globals, [], false, none, []⟩ :: m.frames := by
    rw [← hf]
    rfl
  refine ⟨h.global, ?_, ?_, ?_⟩
  · rw [hframes]
    intro f hf k hk
    change k ∈ m'.scopes.chain f.scope at hk
    rw [hs] at hk
    rcases List.mem_cons.mp hf with rfl | hf
    · rw [hn.outermost] at hk
      exact List.mem_singleton.mp hk ▸ h.global
    · exact h.chains f hf k hk
  · change m'.scopes.AllIn S _
    exact hs ▸ h.scopes
  · rw [hframes]
    intro f hf
    rcases List.mem_cons.mp hf with rfl | hf
    · exact ⟨by simp, by simp, (Value.inherited_spares S id).none⟩
    · exact h.frames f hf

end

end Machine

end Scriptlet

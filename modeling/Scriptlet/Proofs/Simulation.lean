/-
  Scriptlet.Proofs.Simulation — a machine that runs the code of a tree goes along with its evaluation.

  A machine mirrors a realm if it has bound, made and reported the same, but for the blocks of its
  functions (`Mirrors`). It follows an evaluation if the rest of its run is that from where the
  evaluation ended, or fails as the evaluation does (`Follows`). Evaluations that follow one another
  are followed by a machine that follows each (`Follows.bind`), so that every kind of node is a chain
  of such steps, down to single instructions.

  (1) Instructions that only move operands (`Mirrors.move`), and those that fail (`Mirrors.fails`).
  (2) Objects, arithmetic, functions and questions to the host (`make_follows`, `construct_follows`,
      `member_follows`, `arith_follows`, `close_follows`, `ask_follows`, `apply_follows`).
  (3) Expressions leave one operand and statements none, whatever lies below (`expr_follows`,
      `statement_follows`, `statements_follow`). Calls of functions are a hypothesis here
      (`CallsFollow`); it is met one frame after the other in `Preservation`.
-/

import Scriptlet.Proofs.Driving
import Scriptlet.Proofs.Inside
import Scriptlet.Proofs.Meaning
import Scriptlet.Proofs.Shapes

namespace Scriptlet

open Eval
open List (append_nil append_assoc map_cons map_map forall_mem_cons)

/-! ## Evaluation, step by step -/

namespace Eval

variable {α β : Type}

def result (x : Eval α) (w : Realm) : Except FaultClass α × Realm := x.run.run w

theorem result_bind (x : Eval α) (k : α → Eval β) (w : Realm) :
    result (x >>= k) w = match result x w with
      | (.ok a, v) => result (k a) v
      | (.error e, v) => (.error e, v) := by
  simp only [result, Bind.bind, ExceptT.bind, ExceptT.mk, ExceptT.run, StateT.bind, StateT.run]
  rcases x w with ⟨_ | _, r⟩ <;> rfl

theorem result_forM_emit {γ : Type} (g : γ → Action) (l : List γ) (w : Realm) :
    result (l.forM fun x => emit (g x)) w = (.ok ⟨⟩, { w with log := w.log ++ l.map g }) := by
  induction l generalizing w with
  | nil =>
    change (Except.ok PUnit.unit, w) = (.ok ⟨⟩, { w with log := w.log ++ [] })
    rw [append_nil]
  | cons x l ih =>
    change result (l.forM fun x => emit (g x)) { w with log := w.log ++ [g x] } = _
    rw [ih]
    simp

theorem result_make (σ : Setting) (type : Text) (fields : List Field) (w : Realm) :
    let o : Object := fields.foldl (fun o f => o.setField f.id f.name f.value)
      ⟨.inner w.fresh, w.lastObject + 1, σ.ids type, type, []⟩
    result (make σ type fields) w = (.ok (.object o),
      { w with
        lastObject := w.lastObject + 1
        fresh := w.fresh + 1
        log := w.log ++ .construct o.id type :: fields.map fun f => .storeField o.id f.name f.value }) := by
  intro o
  change result (fields.forM (fun f => emit (.storeField o.id f.name f.value)) >>= _)
    { w with log := w.log ++ [.construct o.id type] } = _
  rw [result_bind, result_forM_emit (fun f : Field => Action.storeField o.id f.name f.value)]
  simp only [append_assoc]
  rfl

theorem mapM_the_some (vs : List Value) : (vs.map some).mapM the = (pure vs : Eval (List Value)) := by
  induction vs with
  | nil => rfl
  | cons v vs ih =>
    rw [map_cons, List.mapM_cons, ih]
    rfl

theorem result_mapM_the {os : List (Option Value)} (h : none ∈ os) (w : Realm) :
    result (os.mapM the) w = (.error .unknownIdent, w) := by
  induction os with
  | nil => cases h
  | cons o os ih =>
    rw [List.mapM_cons, result_bind]
    cases o with
    | none => rfl
    | some v =>
      change result (os.mapM the >>= _) w = _
      rw [result_bind, ih (by simpa using h)]

end Eval

variable {Q : Closure → Prop}

namespace Value

mutual

/-- There are no functions inside of plain data. -/
theorem every_plain : ∀ {v : Value}, v.isPlain = true → v.Every Q
  | .array _, h => everyItem_plain h
  | .none, _ | .int _, _ | .float _, _ | .str _, _ | .bool _, _ => trivial

theorem everyPlace_plain : ∀ {v}, isPlainPlace v = true → EveryPlace Q v
  | Option.none, _ => trivial
  | some _, h => every_plain h

theorem everyItem_plain : ∀ {vs}, arePlain vs = true → EveryItem Q vs
  | [], _ => trivial
  | v :: vs, h => by
    simp only [arePlain, Bool.and_eq_true] at h
    exact ⟨everyPlace_plain h.1, everyItem_plain h.2⟩

end

end Value

/-! ## Code ahead -/

def Program.Ahead (p : Program) (block : Int) (pc : Nat) (c : Marked) : Prop :=
  ∃ (b : Nat) (s : Slot), block = b ∧ p.slots[b]? = some s ∧ s.marked.drop pc = c

namespace Program.Ahead

variable {p : Program} {block : Int} {pc : Nat} {k : Marked}

theorem fetch {i : Instr} {site : Bool} (h : p.Ahead block pc ((i, site) :: k)) :
    ∃ code, p.block? block = some code ∧ code[pc]? = some i ∧ p.isConstructor block pc = site ∧
      p.Ahead block (pc + 1) k ∧ p.Ahead block code.length [] := by
  obtain ⟨b, s, rfl, hs, hd⟩ := h
  have hi : s.marked[pc]? = some (i, site) := by
    rw [← Nat.add_zero pc, ← List.getElem?_drop, hd]
    rfl
  have hk : s.marked.drop (pc + 1) = k := by
    rw [← List.drop_drop, hd]
    rfl
  rw [Slot.marked_getElem?] at hi
  obtain ⟨j, hj, e⟩ := Option.map_eq_some_iff.mp hi
  simp only [Prod.mk.injEq] at e
  refine ⟨_, block?_of_slot hs, e.1 ▸ hj, ?_, ⟨b, s, rfl, hs, hk⟩, b, s, rfl, hs, ?_⟩
  · rw [isConstructor_of_slot hs, e.2]
  · exact List.drop_eq_nil_of_le (by simp [Slot.marked])

theorem ended (h : p.Ahead block pc []) : ∃ code, p.block? block = some code ∧ code[pc]? = none := by
  obtain ⟨b, s, rfl, hs, hd⟩ := h
  refine ⟨_, block?_of_slot hs, List.getElem?_eq_none ?_⟩
  simpa [Slot.marked] using List.drop_eq_nil_iff.mp hd

end Program.Ahead

/-- The frame at another place, with other operands and groups. -/
abbrev Frame.placed (f : Frame) (pc : Nat) (os : List Operand) (gs : List (List Field)) : Frame :=
  { f with pc := pc, operands := os, groups := gs }

namespace Machine

/-! ## Machines and realms -/

section

variable (keep : Nat → Prop) (p : Program) (σ : Setting)

/-- The machine runs the frame `f` above others, with this code ahead and these operands and groups. -/
def Standing (f : Frame) (rest : List Frame) (c : Marked) (os : List Operand) (gs : List (List Field)) (m : Machine) :
    Prop :=
  ∃ pc, m.frames = f.placed pc os gs :: rest ∧ p.Ahead f.block pc c

/-- A function of the machine that has a body in the realm, and runs the code of this body. -/
def Known (w : Realm) (c : Closure) : Prop :=
  ∃ (f : FunctionBody) (i b : Nat) (ids : List Nat), i < w.fresh ∧ c.ref = .inner i ∧
    w.functions.lookup (.inner i) = some f ∧ c.proto.block = b ∧ p.Numbers f.params ids ∧
    c.params = ids.map (fun id : Nat => (id : Int)) ∧ Node.everyNode Node.isRegular f.body = true ∧ p.Holds keep b f.body

/-- The machine, together with what was handed over so far, is in the state of the realm. Its frames are
    not part of this, but all functions inside of them are known. -/
structure Mirrors (m : Machine) (seen : List Action) (w : Realm) : Prop where
  program : m.program = p
  numbers : ∀ name id, p.idents.lookup? name = some id → σ.ids name = id
  fallback : m.fallback = σ.fallback
  limit : m.limit = σ.limit
  ready : m.IsReady
  running : m.aborted = false
  quitting : m.quitting = false
  declared : m.declared = []
  scopes : m.scopes.rename .anyBlock = w.scopes
  lastObject : m.registry.last = w.lastObject
  fresh : m.fresh = w.fresh
  log : (seen ++ m.queue).map (Action.rename .anyBlock) = w.log
  quiet : ∀ a ∈ m.queue, a.isQuiet = true
  known : m.Every (Known keep p w)

/-- The run from a machine on, with what was handed over so far. -/
def onwards (m : Machine) (seen : List Action) : Option RunError × Machine × List Action :=
  m.run (.answering σ.host) false seen

end

/-- The actions and the global variables at the end of a run are those of the realm. -/
def EndsIn (w : Realm) (r : Option RunError × Machine × List Action) : Prop :=
  (r.2.2 ++ r.2.1.queue).map (Action.rename .anyBlock) = w.log ∧
    (r.2.1.scopes.table globals).rename .anyBlock = w.scopes.table globals

def FailsWith (c : FaultClass) (w : Realm) (r : Option RunError × Machine × List Action) : Prop :=
  (∃ b pc i f, r.1 = some (.machine (.failed (.fault b pc i f))) ∧ f.toClass = c) ∧ EndsIn w r

variable {m' : Machine}

section

variable {α β : Type} (σ : Setting)

/-- The machine goes along with an evaluation: it comes to where `Q` holds, or fails as the evaluation does. -/
def Follows (x : Eval α) (w : Realm) (m : Machine) (s : List Action)
    (Q : α → Realm → Machine → List Action → Prop) : Prop :=
  match Eval.result x w with
  | (.ok a, v) => ∃ m' s', m.onwards σ s = m'.onwards σ s' ∧ Q a v m' s'
  | (.error c, v) => FailsWith c v (m.onwards σ s)

variable {σ} {w : Realm} {m : Machine} {s s' : List Action} {Q : α → Realm → Machine → List Action → Prop}
  {R : β → Realm → Machine → List Action → Prop}

theorem Follows.pure {a : α} (h : Q a w m s) : Follows σ (pure a) w m s Q := ⟨m, s, rfl, h⟩

theorem Follows.throw {c : FaultClass} (h : FailsWith c w (m.onwards σ s)) : Follows σ (throw c) w m s Q := h

theorem Follows.from {x : Eval α} (e : m.onwards σ s = m'.onwards σ s') (h : Follows σ x w m' s' Q) :
    Follows σ x w m s Q := by
  unfold Follows at h ⊢
  rw [e]
  exact h

theorem Follows.bind {x : Eval α} {k : α → Eval β} (hx : Follows σ x w m s Q)
    (hk : ∀ a v m' s', Q a v m' s' → Follows σ (k a) v m' s' R) : Follows σ (x >>= k) w m s R := by
  unfold Follows at hx
  rw [Follows, result_bind]
  rcases hr : result x w with ⟨c | a, v⟩
  · rw [hr] at hx
    exact hx
  · rw [hr] at hx
    obtain ⟨m', s', e, hq⟩ := hx
    exact (hk a v m' s' hq).from e

theorem Follows.map {x : Eval α} {g : α → β} (h : Follows σ x w m s fun a => R (g a)) : Follows σ (g <$> x) w m s R := by
  rw [map_eq_pure_bind]
  exact h.bind fun a v m' s' hq => .pure hq

theorem Follows.imp {x : Eval α} {Q' : α → Realm → Machine → List Action → Prop} (h : Follows σ x w m s Q)
    (hq : ∀ a v m' s', Q a v m' s' → Q' a v m' s') : Follows σ x w m s Q' := by
  have := h.bind (k := Pure.pure) fun a v m' s' h => .pure (hq a v m' s' h)
  rwa [bind_pure] at this

theorem Follows.get {k : Realm → Eval β} (h : Follows σ (k w) w m s R) : Follows σ (get >>= k) w m s R := h

/-- The value of an operand is needed. -/
theorem Follows.the {o : Operand} {v : Option Value} {k : Value → Eval β} (hv : o.value.map (Value.rename .anyBlock) = v)
    (hk : ∀ u, o.value = some u → Follows σ (k (u.rename .anyBlock)) w m s R)
    (hn : o.value = none → FailsWith .unknownIdent w (m.onwards σ s)) : Follows σ (Eval.the v >>= k) w m s R := by
  subst hv
  cases ho : o.value with
  | none => exact hn ho
  | some u => exact hk u ho

theorem valued_or (as : List Operand) : (∃ us, Valued as us) ∨ none ∈ as.map (·.value) := by
  induction as with
  | nil => exact .inl ⟨[], rfl⟩
  | cons o as ih =>
    obtain ⟨v, i⟩ := o
    cases v with
    | none => exact .inr (by simp)
    | some v =>
      rcases ih with ⟨us, h⟩ | h
      · exact .inl ⟨v :: us, by simpa [Valued] using h⟩
      · exact .inr (by simp_all)

/-- The values of operands are needed. -/
theorem Follows.mapM_the {as : List Operand} {vs : List (Option Value)} {k : List Value → Eval β}
    (hv : as.map (fun o => o.value.map (Value.rename .anyBlock)) = vs)
    (hk : ∀ us, Valued as us → Follows σ (k (us.map (Value.rename .anyBlock))) w m s R)
    (hn : none ∈ as.map (·.value) → FailsWith .unknownIdent w (m.onwards σ s)) :
    Follows σ (vs.mapM Eval.the >>= k) w m s R := by
  have hv : (as.map (·.value)).map (Option.map (Value.rename .anyBlock)) = vs := by rw [← hv, map_map]; rfl
  subst hv
  rcases valued_or as with ⟨us, hu⟩ | hu
  · rw [hu, map_map]
    have : (us.map (Option.map (Value.rename .anyBlock) ∘ some)) = (us.map (Value.rename .anyBlock)).map some := by
      rw [map_map]
      rfl
    rw [this, mapM_the_some, pure_bind]
    exact hk us hu
  · have : none ∈ (as.map (·.value)).map (Option.map (Value.rename .anyBlock)) := List.mem_map.mpr ⟨none, hu, rfl⟩
    rw [Follows, result_bind, result_mapM_the this]
    exact hn hu

end

/-! ## Instructions -/

section

variable {keep : Nat → Prop} {p : Program} {σ : Setting} {w : Realm} {m : Machine} {s : List Action} {f : Frame}
  {rest : List Frame} {k : Marked} {i : Instr} {site : Bool} {os : List Operand} {gs : List (List Field)}

theorem Mirrors.endsIn (h : Mirrors keep p σ m s w) {e : Option RunError} (hs : m'.scopes = m.scopes)
    (hq : m'.queue = m.queue) : EndsIn w (e, m', s) := by
  refine ⟨?_, ?_⟩
  · rw [← h.log, hq]
  · rw [← h.scopes, Scopes.table_rename, hs]

theorem Standing.every (hs : Standing p f rest k os gs m) (h : m.Every Q) (pc : Nat) :
    (f.placed pc os gs).Every Q ∧ ∀ g ∈ rest, g.Every Q := by
  obtain ⟨pc', hf, -⟩ := hs
  have hall := h.frames
  rw [hf, forall_mem_cons] at hall
  exact ⟨⟨hall.1.operands, hall.1.groups, hall.1.result⟩, hall.2⟩

/-- An instruction that succeeds without asking leaves the run as it is. -/
theorem Standing.goes (hs : Standing p f rest ((i, site) :: k) os gs m) (hp : m.program = p) (hr : m.IsReady)
    (ha : m.aborted = false) {next : Nat → Nat → Machine}
    (hd : ∀ stop pc : Nat, m.program.isConstructor f.block pc = site →
      Does m (f.placed (pc + 1) os gs) rest stop pc i (next stop pc))
    (hw : ∀ stop pc, (next stop pc).awaiting = m.awaiting) :
    ∃ stop pc, m.onwards σ s = (next stop pc).onwards σ s ∧ p.Ahead f.block (pc + 1) k ∧ p.Ahead f.block stop [] ∧
      Does m (f.placed (pc + 1) os gs) rest stop pc i (next stop pc) := by
  obtain ⟨pc, hf, hc⟩ := hs
  obtain ⟨code, hb, hi, hc, hk, hend⟩ := hc.fetch
  rw [← hp] at hb hc
  have does := hd code.length pc hc
  have ht := tick_instr ha hf hb hi
  rw [does.exec] at ht
  simp only [hw, hr.2, Bool.false_eq_true, if_false] at ht
  have ready : (next code.length pc).IsReady := ⟨does.halted.trans hr.1, (hw _ _).trans hr.2⟩
  exact ⟨code.length, pc, run_go hr ht ready s, hk, hend, does⟩

/-- Functions are known behind an instruction that loads no constant and makes no function. -/
theorem Mirrors.still_known {stop pc : Nat} (h : Mirrors keep p σ m s w)
    (hs : Standing p f rest ((i, site) :: k) os gs m) (hd : Does m (f.placed (pc + 1) os gs) rest stop pc i m')
    (hi : i.op ∉ [.loadConst, .makeFn]) : m'.Every (Known keep p w) := by
  obtain ⟨hf, hrest⟩ := hs.every h.known (pc + 1)
  obtain ⟨hc, hfn⟩ : i.op ≠ .loadConst ∧ i.op ≠ .makeFn := by simpa using hi
  exact hd.every h.known.scopes hf hrest (fun _ ho => absurd ho hc) fun _ _ _ _ _ ho => absurd ho hfn

/-- An instruction that fails ends the run. -/
theorem Mirrors.fails (h : Mirrors keep p σ m s w) (hs : Standing p f rest ((i, site) :: k) os gs m) {c : FaultClass}
    (he : ∀ stop pc : Nat, m.program.isConstructor f.block pc = site →
      ∃ e, m.exec (f.placed (pc + 1) os gs) rest stop pc i = .error e ∧ e.fault.toClass = c) :
    FailsWith c w (m.onwards σ s) := by
  obtain ⟨pc, hf, ha⟩ := hs
  obtain ⟨code, hb, hi, hc, -, -⟩ := ha.fetch
  rw [← h.program] at hb hc
  obtain ⟨e, he, hcl⟩ := he code.length pc hc
  have ht := tick_instr h.running hf hb hi
  rw [he] at ht
  have hr : m.onwards σ s = _ := run_stop h.ready ht s
  rw [hr]
  exact ⟨⟨_, _, _, _, rfl, hcl⟩, h.endsIn rfl rfl⟩

/-- An instruction that only changes the frame. -/
theorem Mirrors.move (h : Mirrors keep p σ m s w) (hs : Standing p f rest ((i, site) :: k) os gs m) (os' : List Operand)
    (gs' : List (List Field))
    (hd : ∀ stop pc : Nat, m.program.isConstructor f.block pc = site →
      Does m (f.placed (pc + 1) os gs) rest stop pc i (m.withFrames (f.placed (pc + 1) os' gs' :: rest)))
    (hfn : i.op ≠ .makeFn)
    (hc : ∀ v, i.op = .loadConst → m.program.const? i.arg = some v → v.Every fun _ => False) :
    ∃ m', m.onwards σ s = m'.onwards σ s ∧ Mirrors keep p σ m' s w ∧ Standing p f rest k os' gs' m' := by
  obtain ⟨stop, pc, hr, hk, -, does⟩ := hs.goes h.program h.ready h.running hd fun _ _ => rfl
  obtain ⟨hf, hrest⟩ := hs.every h.known (pc + 1)
  have every := does.every h.known.scopes hf hrest (fun v ho hv => (hc v ho hv).mono fun _ => False.elim)
    (fun _ _ _ _ _ ho => absurd ho hfn)
  exact ⟨_, hr, { h with known := every }, pc + 1, rfl, hk⟩

theorem loaded_nat (v : Option Value) (id : Nat) : Operand.loaded v id = ⟨v, some id⟩ := by
  unfold Operand.loaded Operand.noIdent
  rw [if_neg (by omega)]

variable {id : Nat} {g : Frame} {o : Operand} {as : List Operand} {v : Option Value} {fields : List Field}
  {below : List (List Field)} {us : List Value}

section

variable (h : Mirrors keep p σ m s w)

include h

/-- An identifier is loaded. -/
theorem Mirrors.ident
    (hs : Standing p f rest (Marked.op .loadIdent id ++ k) os gs m) :
    ∃ m', m.onwards σ s = m'.onwards σ s ∧ Mirrors keep p σ m' s w ∧
      Standing p f rest k (⟨m.scopes.value? f.scope id, some id⟩ :: os) gs m' := by
  refine h.move hs _ _ (fun stop pc hc => ?_) (by simp) (by simp)
  rw [← loaded_nat]
  exact .loadIdent (id : Int) hc

/-- A constant is loaded. -/
theorem Mirrors.const {n : Nat} {v : Value}
    (hs : Standing p f rest (Marked.op .loadConst n ++ k) os gs m) (hv : p.consts[n]? = some v)
    (h0 : v.Every fun _ => False) :
    ∃ m', m.onwards σ s = m'.onwards σ s ∧ Mirrors keep p σ m' s w ∧ Standing p f rest k (⟨some v, none⟩ :: os) gs m' := by
  have hc : m.program.const? (n : Nat) = some v := h.program ▸ hv
  refine h.move hs _ _ (fun stop pc _ => .loadConst hc) (by simp) (fun u _ hu => ?_)
  cases hc.symm.trans hu
  exact h0

/-- What an identifier is bound to in the machine is what it is bound to in the realm. -/
theorem Mirrors.value? {name : Text} (hn : p.idents.lookup? name = some id)
    (scope : Nat) : (m.scopes.value? scope id).map (Value.rename .anyBlock) = w.scopes.value? scope (σ.ids name) := by
  rw [h.numbers name id hn, ← h.scopes]
  exact (Scopes.value?_rename Renaming.anyBlock_faithful m.scopes scope id).symm

theorem Mirrors.ids {names : List Text} {ids : List Nat} (hn : p.Numbers names ids) :
    names.map σ.ids = ids.map fun id : Nat => (id : Int) := by
  unfold Program.Numbers at hn
  induction names generalizing ids with
  | nil => cases ids <;> simp at hn ⊢
  | cons name names ih =>
    cases ids with
    | nil => simp at hn
    | cons id ids =>
      simp only [map_cons, List.cons.injEq] at hn ⊢
      exact ⟨h.numbers name id hn.1, ih hn.2⟩

theorem Mirrors.name {name : Text} (hn : p.idents.lookup? name = some id) : m.name id = name := by
  unfold Machine.name Program.name
  rw [h.program]
  exact Idents.name_of_lookup? hn

end

/-! ## Taking operands that have no value -/

theorem bind_error {ε α β : Type} {x : Except ε α} {g : α → Except ε β} {e : ε} (h : x = .error e) :
    x >>= g = .error e := by
  rw [h]
  rfl

theorem bind_fails {ε α β : Type} {x : Except ε α} {g : α → Except ε β} {a : α} {e : ε} (h : x = .ok a)
    (hg : g a = .error e) : x >>= g = .error e := by
  rw [h]
  exact hg

theorem popValue_unbound (hf : g.operands = o :: os) (ho : o.value = none) :
    m.popValue g = .error ⟨.unbound (m.identName o.ident), setOperands g os⟩ := by
  refine bind_fails (popOperand_ok.mpr ⟨os, hf, rfl⟩) (bind_error ?_)
  unfold resolved
  rw [ho]
  rfl

theorem popValues_unbound (hf : g.operands = as.reverse ++ os)
    (h : none ∈ as.map (·.value)) : ∃ name, m.popValues g as.length = .error ⟨.unbound name, setOperands g os⟩ := by
  have go {bs : List Operand} (hb : none ∈ bs.map (·.value)) : ∃ name, bs.mapM m.resolved = .error (.unbound name) := by
    induction bs with
    | nil => cases hb
    | cons o bs ih =>
      rw [List.mapM_cons]
      cases ho : o.value with
      | none => exact ⟨m.identName o.ident, bind_error (by unfold resolved; rw [ho])⟩
      | some v =>
        obtain ⟨name, e⟩ := ih (by simpa [ho] using hb)
        exact ⟨name, bind_fails (resolved_ok.mpr ho) (bind_error e)⟩
  obtain ⟨name, e⟩ := go h
  exact ⟨name, bind_fails (popOperands_ok.mpr ⟨rfl, os, hf, rfl⟩) (bind_error (by rw [e]; rfl))⟩

/-! ## Objects, arithmetic and functions -/

section

variable (keep p σ f rest k os gs)

def Gives (v : Value) (w : Realm) (m : Machine) (s : List Action) : Prop :=
  Mirrors keep p σ m s w ∧ ∃ u : Value, u.rename .anyBlock = v ∧ Standing p f rest k (⟨some u, none⟩ :: os) gs m

end

theorem arith_follows {op : Operator} {o : Op} (ho : op.op? = some o) {x y : Operand} {u : Option Value}
    (h : Mirrors keep p σ m s w) (hs : Standing p f rest (Marked.op o ++ k) (y :: x :: os) gs m)
    (hx : x.value.map (Value.rename .anyBlock) = u) (hy : y.value.map (Value.rename .anyBlock) = v) :
    Follows σ (do Eval.arith op (← Eval.the u) (← Eval.the v)) w m s (Gives keep p σ f rest k os gs) := by
  obtain ⟨a, ha, rfl⟩ : ∃ a : Arith, op.arith? = some a ∧ a.op = o := by
    cases op with
    | other b => cases ho
    | add => exact ⟨.add, rfl, Option.some.inj ho⟩
    | sub => exact ⟨.sub, rfl, Option.some.inj ho⟩
    | mul => exact ⟨.mul, rfl, Option.some.inj ho⟩
    | div => exact ⟨.div, rfl, Option.some.inj ho⟩
  -- the machine takes the right operand first, but either failure is the same
  have lacking (hn : x.value = none ∨ y.value = none) : FailsWith .unknownIdent w (m.onwards σ s) := by
    refine h.fails hs fun stop pc _ => ?_
    rw [exec_arith]
    unfold Machine.arith
    cases hyv : y.value with
    | none => exact ⟨_, bind_error (popValue_unbound rfl hyv), rfl⟩
    | some z =>
      obtain ⟨yv, yi⟩ := y
      simp only at hyv
      subst hyv
      have hx : x.value = none := by simpa using hn
      exact ⟨_, bind_fails (popValue_ok.mpr ⟨yi, x :: os, rfl, rfl⟩) (bind_error (popValue_unbound rfl hx)), rfl⟩
  refine .the hx (fun x' hx' => .the hy (fun y' hy' => ?_) fun hn => lacking (.inr hn)) fun hn => lacking (.inl hn)
  obtain ⟨xv, xi⟩ := x
  obtain ⟨yv, yi⟩ := y
  simp only at hx' hy'
  subst hx' hy'
  unfold Eval.arith
  simp only [ha, Arith.apply_rename]
  cases hr : a.apply x' y' with
  | error e =>
    refine .throw (h.fails hs fun stop pc _ => ⟨⟨e, f.placed (pc + 1) os gs⟩, ?_, rfl⟩)
    rw [exec_arith]
    refine bind_fails (popValue_ok.mpr ⟨yi, _, rfl, rfl⟩) (bind_fails (popValue_ok.mpr ⟨xi, os, rfl, rfl⟩) (bind_error ?_))
    rw [hr]
    rfl
  | ok r =>
    obtain ⟨m', e, h', hs'⟩ := h.move hs (⟨some r, none⟩ :: os) gs (fun stop pc _ => .arith a 0 rfl rfl hr)
      (by cases a <;> simp [Arith.op]) (by cases a <;> simp [Arith.op])
    exact .from e (.pure ⟨h', r, rfl, hs'⟩)

section

variable (keep p σ f rest k os gs)

/-- The machine stands behind code that left an operand, loaded by a name or not. -/
def Leaves (name : Option Text) (v : Option Value) (w : Realm) (m : Machine) (s : List Action) : Prop :=
  Mirrors keep p σ m s w ∧ ∃ o : Operand, o.value.map (Value.rename .anyBlock) = v ∧ o.ident = name.map σ.ids ∧
    Standing p f rest k (o :: os) gs m

end

theorem member_rename {o : Object} {name : Text} (h : Mirrors keep p σ m s w)
    (hn : p.idents.lookup? name = some id) :
    (m.member o id).map (Value.rename .anyBlock) = ((Value.renameObject .anyBlock o).field? (σ.ids name)).getD
      (some (.host (σ.ids name) name (some (Value.renameObject .anyBlock o)))) := by
  have hf := Value.field?_rename Renaming.anyBlock_faithful o id
  change (Value.renameObject .anyBlock o).field? (id : Int) = _ at hf
  rw [h.numbers name id hn, hf]
  unfold member
  cases o.field? id with
  | none => rw [h.name hn]; rfl
  | some v => exact (Value.renamePlace_eq v).symm

theorem member_follows {name : Text} (h : Mirrors keep p σ m s w)
    (hs : Standing p f rest (Marked.op .loadField id ++ k) (o :: os) gs m) (hn : p.idents.lookup? name = some id)
    (ho : o.value.map (Value.rename .anyBlock) = v) :
    Follows σ (do Eval.member σ (← Eval.the v) name) w m s (Leaves keep p σ f rest k os gs none) := by
  obtain ⟨value, ident⟩ := o
  refine .the ho (fun u hu => ?_) fun hv => h.fails hs fun stop pc _ => ⟨_, bind_error (popValue_unbound rfl hv), rfl⟩
  simp only at hu
  subst hu
  have other (hk : ∀ o, u ≠ .object o) : FailsWith .typeMismatch w (m.onwards σ s) := by
    refine h.fails hs fun stop pc _ => ⟨⟨.noFields (m.name id) u.kind, f.placed (pc + 1) os gs⟩, ?_, rfl⟩
    refine bind_fails (popValue_ok.mpr ⟨ident, os, rfl, rfl⟩) ?_
    cases u with
    | object o => exact absurd rfl (hk o)
    | _ => rfl
  cases u with
  | object o =>
    obtain ⟨stop, pc, e, ha, -, does⟩ := hs.goes h.program h.ready h.running
      (fun stop pc _ => .loadField (id : Int) rfl) fun _ _ => rfl
    have every := h.still_known hs does (by simp)
    refine ⟨_, s, e, { h with log := ?_, quiet := ?_, known := every }, ⟨m.member o id, none⟩, member_rename h hn, rfl, pc + 1,
      rfl, ha⟩
    · change (s ++ (m.queue ++ [_])).map _ = _
      rw [← append_assoc, List.map_append, h.log, h.name hn]
      simp only [map_cons, List.map_nil, Action.rename, Value.renameObject_id]
    · intro a ha
      rcases List.mem_append.mp ha with ha | ha
      · exact h.quiet a ha
      · rw [List.mem_singleton.mp ha]
        rfl
  | _ => exact .throw (other fun o => by simp)

/-- The fields that are collected for a struct instance, and the groups below them. Where no group was opened
    and no field was added yet, there is no group at all. -/
def Grouped (gs : List (List Field)) (fields : List Field) (below : List (List Field)) : Prop :=
  gs = fields :: below ∨ gs = [] ∧ fields = [] ∧ below = []

theorem Grouped.close (h : Grouped gs fields below) (pc : Nat) :
    (f.placed pc os gs).closeGroup = (fields, f.placed pc os below) := by
  rcases h with rfl | ⟨rfl, rfl, rfl⟩ <;> rfl

theorem Grouped.add (h : Grouped gs fields below) (fd : Field) :
    ∃ gs', Grouped gs' (fields ++ [fd]) below ∧ ∀ pc, (f.placed pc os gs).addField fd = f.placed pc os gs' := by
  refine ⟨(fields ++ [fd]) :: below, .inl rfl, fun pc => ?_⟩
  rcases h with rfl | ⟨rfl, rfl, rfl⟩ <;> rfl

/-- The group for the fields of a struct instance is opened, where the code does so. -/
theorem Mirrors.opening {d : Nat} {fs : List (Text × Node)} (h : Mirrors keep p σ m s w)
    (hs : Standing p f rest (Marked.opening d fs ++ k) os gs m) (hd : d = 0 → gs = []) :
    ∃ m' gs', m.onwards σ s = m'.onwards σ s ∧ Grouped gs' [] gs ∧ Mirrors keep p σ m' s w ∧
      Standing p f rest k os gs' m' := by
  unfold Marked.opening at hs
  split at hs
  · rename_i hz
    simp only [Bool.and_eq_true, decide_eq_true_eq] at hz
    obtain rfl := hd hz.1
    exact ⟨m, [], rfl, .inr ⟨rfl, rfl, rfl⟩, h, hs⟩
  · obtain ⟨m', e, h', hs'⟩ := h.move hs os ([] :: gs) (fun stop pc _ => .beginStruct 0) (by simp) (by simp)
    exact ⟨m', _, e, .inl rfl, h', hs'⟩

/-- Functions stay known while the realm grows. -/
theorem Known.mono {v : Realm} {c : Closure} (h : Known keep p w c) (hf : w.fresh ≤ v.fresh)
    (hl : ∀ i < w.fresh, v.functions.lookup (.inner i) = w.functions.lookup (.inner i)) : Known keep p v c := by
  obtain ⟨f, i, b, ids, hi, hr, hb, h⟩ := h
  exact ⟨f, i, b, ids, Nat.lt_of_lt_of_le hi hf, hr, (hl i hi).trans hb, h⟩

theorem make_follows {type : Text}
    (h : Mirrors keep p σ m s w) (hs : Standing p f rest (Marked.site id ++ k) os gs m)
    (hn : p.idents.lookup? type = some id) (hg : Grouped gs fields below) (ha : ∀ pc, m.Admits (f.placed pc os gs) id) :
    Follows σ (make σ type (fields.map (Value.renameField .anyBlock))) w m s (Gives keep p σ f rest k os below) := by
  obtain ⟨stop, pc, e, hk, -, does⟩ := hs.goes h.program h.ready h.running
    (fun stop pc hc => .construct (id : Int) hc (ha (pc + 1))) fun _ _ => rfl
  have every := h.still_known hs does (by simp)
  rw [hg.close] at e every
  obtain ⟨o, ho⟩ : ∃ o, (m.registry.newObject (.inner m.fresh) id (m.name id) fields).1 = o := ⟨_, rfl⟩
  have hobj : (fields.map (Value.renameField .anyBlock)).foldl
      (fun (o : Object) (f : Field) => o.setField f.id f.name f.value)
        ⟨.inner w.fresh, w.lastObject + 1, σ.ids type, type, []⟩ = Value.renameObject .anyBlock o := by
    rw [← ho, ← Registry.newObject_rename (s := { last := w.lastObject }) Renaming.anyBlock_faithful h.lastObject.symm,
      h.numbers type id hn, ← h.fresh, h.name hn]
    rfl
  have hq : (m.newObject (f.placed (pc + 1) os below) rest id fields).queue
      = m.queue ++ .construct o.id type :: fields.map fun fd => .storeField o.id fd.name fd.value := by
    have name := Registry.newObject_typeName m.registry (.inner m.fresh) id (m.name id) fields
    rw [ho, h.name hn] at name
    rw [← name, ← ho]
    rfl
  unfold Follows
  rw [result_make, hobj]
  refine ⟨_, s, e, { h with lastObject := ?_, fresh := ?_, log := ?_, quiet := ?_, known := ?_ }, .object o, rfl, pc + 1,
    by rw [← ho]; rfl, hk⟩
  · exact congrArg (· + 1) h.lastObject
  · exact congrArg (· + 1) h.fresh
  · rw [hq, ← append_assoc, List.map_append, h.log, Value.renameObject_id]
    simp only [map_cons, map_map, Action.rename]
    rfl
  · rw [hq]
    intro a ha
    rcases List.mem_append.mp ha with ha | ha
    · exact h.quiet a ha
    · rcases List.mem_cons.mp ha with rfl | ha
      · rfl
      · obtain ⟨fd, -, rfl⟩ := List.mem_map.mp ha
        rfl
  · exact every.mono fun c hc => hc.mono (Nat.le_succ _) fun _ _ => rfl

theorem construct_error {id : Int} (h : ¬ m.Admits g id) :
    ∃ e, m.construct g rest id = .error e ∧ e.fault.toClass = .typeMismatch := by
  cases hr : m.construct g rest id with
  | ok m' => exact absurd (construct_ok.mp hr).1 h
  | error e =>
    refine ⟨e, rfl, ?_⟩
    unfold construct at hr
    simp only at hr
    split at hr
    · split at hr <;> cases hr
      rfl
    · cases hr
      rfl
    · cases hr

/-- A struct instance is complete: the machine checks its type as the evaluation does, and makes the object. -/
theorem construct_follows {type : Text}
    (h : Mirrors keep p σ m s w) (hs : Standing p f rest (Marked.site id ++ k) os gs m)
    (hn : p.idents.lookup? type = some id) (hg : Grouped gs fields below) :
    Follows σ (Eval.construct σ f.scope type (fields.map (Value.renameField .anyBlock))) w m s
      (Gives keep p σ f rest k os below) := by
  have made := make_follows h hs hn hg
  have refused (hne : ∀ pc, ¬ m.Admits (f.placed pc os gs) id) : FailsWith .typeMismatch w (m.onwards σ s) := by
    refine h.fails hs fun stop pc hc => ?_
    simp only [exec, hc, if_true]
    exact construct_error (hne (pc + 1))
  simp only [Admits, hg.close] at made refused
  refine .get ?_
  rw [← h.value? hn]
  cases hv : m.scopes.value? f.scope id with
  | none => exact made fun _ => by simp only [hv]
  | some v =>
    cases v with
    | structType t =>
      simp only [hv] at made refused
      have all : ((fields.map (Value.renameField .anyBlock)).all fun fd => (t.rename .anyBlock).hasField fd.id) = true
          ↔ ∀ fd ∈ fields, t.hasField fd.id = true := by
        rw [List.all_map, List.all_eq_true]
        exact forall₂_congr fun fd _ => by
          rw [← StructType.hasField_rename Renaming.anyBlock_faithful t fd.id]
          rfl
      change Follows σ (if _ then _ else _) _ _ _ _
      split
      · rename_i hall
        exact made fun _ => all.mp hall
      · rename_i hall
        exact .throw (refused fun _ hf => hall (all.mpr hf))
    | _ =>
      simp only [hv] at refused
      exact .throw (refused fun _ => not_false)

/-- Identifiers are loaded one after the other. -/
theorem Mirrors.idents {ids : List Nat} (h : Mirrors keep p σ m s w)
    (hs : Standing p f rest (Marked.ops .loadIdent ids ++ k) os gs m) :
    ∃ (m' : Machine) (as : List Operand), m.onwards σ s = m'.onwards σ s ∧ Mirrors keep p σ m' s w ∧
      as.map (·.ident) = ids.map (fun id : Nat => some (id : Int)) ∧ Standing p f rest k (as.reverse ++ os) gs m' := by
  induction ids generalizing m os with
  | nil => exact ⟨m, [], rfl, h, rfl, hs⟩
  | cons id ids ih =>
    obtain ⟨m₁, e₁, h₁, hs₁⟩ := h.ident hs
    obtain ⟨m₂, as, e₂, h₂, has, hs₂⟩ := ih h₁ hs₁
    refine ⟨m₂, ⟨m.scopes.value? f.scope id, some id⟩ :: as, e₁.trans e₂, h₂, by simp [has], ?_⟩
    simpa using hs₂

theorem close_follows {params : List Text} {body : List Node} {ids : List Nat} {n b : Nat} (h : Mirrors keep p σ m s w)
    (hs : Standing p f rest (Marked.ops .loadIdent ids ++ (Marked.op .loadConst n ++ (Marked.op .makeFn params.length ++ k)))
      os gs m)
    (hids : p.Numbers params ids) (hp : p.consts[n]? = some (.proto ⟨b, params.length⟩)) (hb : p.Holds keep b body)
    (hr : Node.everyNode Node.isRegular body = true) :
    Follows σ (close σ f.scope params body) w m s (Gives keep p σ f rest k os gs) := by
  obtain ⟨m₁, as, e₁, h₁, has, hs₁⟩ := h.idents hs
  obtain ⟨m₂, e₂, h₂, hs₂⟩ := h₁.const hs₁ hp trivial
  have hlen : params.length = as.length := by
    have h1 := congrArg List.length has
    have h2 := congrArg List.length hids
    simp only [List.length_map] at h1 h2
    omega
  have hnames : as.map (·.ident) = (ids.map fun id : Nat => (id : Int)).map some := by rw [has, map_map]; rfl
  rw [hlen] at hs₂ hp
  obtain ⟨stop, pc, e, ha, -, does⟩ := hs₂.goes h₂.program h₂.ready h₂.running
    (fun stop pc _ => .makeFn rfl rfl hnames) fun _ _ => rfl
  -- the new function gets an identity that no function had before
  obtain ⟨v, hv⟩ : ∃ v : Realm, v = { w with
    fresh := w.fresh + 1, functions := (.inner w.fresh, ⟨params, body⟩) :: w.functions } := ⟨_, rfl⟩
  have grown {c : Closure} (hc : Known keep p w c) : Known keep p v c := by
    refine hc.mono (hv ▸ Nat.le_succ _) fun i hi => ?_
    have : (Ref.inner i == Ref.inner w.fresh) = false := by simp; omega
    simp only [hv, List.lookup_cons, this]
  have known₂ := h₂.known.mono fun c => grown
  obtain ⟨hf, hrest⟩ := hs₂.every known₂ (pc + 1)
  have every := does.every known₂.scopes hf hrest (fun _ ho => by cases ho) fun q i' as' os' ids' _ hop hq hlen' hi => by
    simp only [List.cons.injEq, Operand.mk.injEq, Option.some.injEq, Value.proto.injEq] at hop
    obtain ⟨⟨rfl, -⟩, hop⟩ := hop
    have hlen' : as.reverse.length = as'.reverse.length := by simpa using Int.ofNat_inj.mp hlen'
    have has' : as = as' := List.reverse_injective (List.append_inj hop hlen').1
    subst has'
    have hids' : ids' = ids.map fun id : Nat => (id : Int) :=
      (List.map_inj_right fun _ _ => Option.some.inj).mp (hi.symm.trans hnames)
    subst hids' hv
    exact ⟨⟨params, body⟩, w.fresh, b, ids, Nat.lt_succ_self _, by rw [h₂.fresh], by simp, rfl, hids, rfl, hr, hb⟩
  refine .from (e₁.trans (e₂.trans e)) ?_
  subst hv
  refine ⟨_, s, rfl, { h₂ with fresh := congrArg (· + 1) h₂.fresh, known := every }, .closure _, ?_, pc + 1, rfl, ha⟩
  rw [h₂.ids hids, hlen, ← h₂.fresh, ← h₂.scopes, Scopes.chain_rename]
  simp only [Value.rename, Closure.rename, Proto.rename, Renaming.anyBlock, List.map_id_fun, id_eq]

/-! ## Calls -/

/-- The host is asked, and the machine goes on with its answer. -/
theorem ask_follows (hp : ∀ log, (σ.host log).isPlain = true) {callee : Operand}
    {a : Action} (h : Mirrors keep p σ m s w)
    (hs : Standing p f rest (Marked.op .call as.length ++ k) (as.reverse ++ callee :: os) gs m) (hv : Valued as us)
    (ha : m.asks callee us = some a) :
    Follows σ (ask σ (a.rename .anyBlock)) w m s (Gives keep p σ f rest k os gs) := by
  obtain ⟨pc, hf, hc⟩ := id hs
  obtain ⟨code, hb, hi, -, hk, -⟩ := hc.fetch
  rw [← h.program] at hb
  have does : Does m (f.placed (pc + 1) (as.reverse ++ callee :: os) gs) rest code.length pc ⟨.call, as.length⟩ _ :=
    .ask rfl hv ha
  have ht := tick_instr h.running hf hb hi
  rw [does.exec] at ht
  have hr : m.onwards σ s = _ := run_ask h.ready ht rfl rfl h.quiet (asks_awaitsReply ha)
  have every := h.still_known hs does (by simp)
  have log : (s ++ (m.queue ++ [a])).map (Action.rename .anyBlock) = w.log ++ [a.rename .anyBlock] := by
    rw [← append_assoc, List.map_append, h.log]
    rfl
  refine ⟨_, _, hr, { h with
    ready := ⟨h.ready.1, rfl⟩, quitting := rfl, log := ?_, quiet := (by simp [drain]),
    known := ⟨every.scopes, ?_⟩ }, σ.host _, ?_, pc + 1, rfl, hk⟩
  · change (s ++ (m.queue ++ [a]) ++ []).map _ = _
    rw [append_nil]
    exact log
  · have hall := every.frames
    simp only [await, forall_mem_cons] at hall
    simp only [await, deliver, forall_mem_cons]
    exact ⟨hall.1.push (Value.every_plain (hp _)), hall.2⟩
  · rw [Value.rename_plain (hp _)]
    exact congrArg σ.host log

section

variable (keep p σ f rest)

/-- The machine goes along when functions are called from a frame. -/
def CallsFollow (invoke : Closure → Text → List Value → Eval Value) : Prop :=
  ∀ (w : Realm) (m : Machine) (s : List Action) (k : Marked) (os : List Operand) (gs : List (List Field))
    (as : List Operand) (us : List Value) (c : Closure) (i : Option Int), Mirrors keep p σ m s w →
    Standing p f rest (Marked.op .call as.length ++ k) (as.reverse ++ ⟨some (.closure c), i⟩ :: os) gs m → Valued as us →
    Follows σ (invoke (c.rename .anyBlock) ((i.map m.name).getD "<anonymous>") (us.map (Value.rename .anyBlock))) w m s
      (Gives keep p σ f rest k os gs)

end

variable {invoke : Closure → Text → List Value → Eval Value}

theorem builtin_follows (hp : ∀ log, (σ.host log).isPlain = true) {b : Text}
    {i : Option Int} {name : Option Text} (h : Mirrors keep p σ m s w)
    (hs : Standing p f rest (Marked.op .call as.length ++ k) (as.reverse ++ ⟨some (.builtin b), i⟩ :: os) gs m)
    (hv : Valued as us) :
    Follows σ (apply σ invoke (some (.builtin b)) name (us.map (Value.rename .anyBlock))) w m s
      (Gives keep p σ f rest k os gs) := by
  have refused {c : FaultClass} (he : ∀ g : Frame, ∃ e, m.callBuiltin g rest b us = .error e ∧ e.fault.toClass = c) :
      FailsWith c w (m.onwards σ s) := by
    refine h.fails hs fun stop pc _ => ?_
    obtain ⟨e, he, hc⟩ := he (f.placed (pc + 1) os gs)
    exact ⟨e, bind_fails (popValues_ok.mpr ⟨as, _, rfl, rfl, hv, rfl⟩) (bind_fails (popOperand_ok.mpr ⟨os, rfl, rfl⟩) he), hc⟩
  unfold apply
  by_cases hb : b = importName
  · subst hb
    rcases us with _ | ⟨u, _ | ⟨v, us⟩⟩
    · exact .throw (refused fun g => ⟨_, rfl, rfl⟩)
    · cases u with
      | str path => exact ask_follows hp h hs hv rfl
      | _ => exact .throw (refused fun g => ⟨_, rfl, rfl⟩)
    · cases u <;> exact .throw (refused fun g => ⟨_, rfl, rfl⟩)
  · have hb' : b ≠ Text.ofString "import" := hb
    simp only [hb', if_false]
    refine .throw (refused fun g => ⟨⟨.unknownBuiltin b, g⟩, ?_, rfl⟩)
    unfold callBuiltin
    rw [if_pos hb]

theorem apply_follows (hp : ∀ log, (σ.host log).isPlain = true) (hcall : CallsFollow keep p σ f rest invoke)
    {name : Option Text} (h : Mirrors keep p σ m s w)
    (hs : Standing p f rest (Marked.op .call as.length ++ k) (as.reverse ++ ⟨v, name.map σ.ids⟩ :: os) gs m)
    (hv : Valued as us) (hn : ∀ n ∈ name, ∃ id, p.idents.lookup? n = some id) :
    Follows σ (apply σ invoke (v.map (Value.rename .anyBlock)) name (us.map (Value.rename .anyBlock))) w m s
      (Gives keep p σ f rest k os gs) := by
  have asked {a : Action} (ha : m.asks ⟨v, name.map σ.ids⟩ us = some a) := ask_follows hp h hs hv ha
  have named (n : Text) (hm : n ∈ name) : m.name (σ.ids n) = n := by
    obtain ⟨id, hid⟩ := hn n hm
    rw [h.numbers n id hid]
    exact h.name hid
  cases v with
  | none =>
    cases name with
    | none =>
      exact .throw (h.fails hs fun stop pc _ => ⟨_, bind_fails (popValues_ok.mpr ⟨as, _, rfl, rfl, hv, rfl⟩)
        (bind_fails (popOperand_ok.mpr ⟨os, rfl, rfl⟩) rfl), rfl⟩)
    | some n =>
      by_cases hfb : σ.fallback = true
      · have ha : m.asks ⟨none, some (σ.ids n)⟩ us = some (.call (σ.ids n) n us) := by
          simp only [asks, h.fallback, hfb, if_true, named n rfl]
        have := asked ha
        simp only [apply, Option.map_none, hfb, if_true]
        exact this
      · simp only [apply, Option.map_none, hfb]
        refine .throw (h.fails hs fun stop pc _ => ⟨⟨.unbound (m.name (σ.ids n)), f.placed (pc + 1) os gs⟩,
          bind_fails (popValues_ok.mpr ⟨as, _, rfl, rfl, hv, rfl⟩) (bind_fails (popOperand_ok.mpr ⟨os, rfl, rfl⟩) ?_), rfl⟩)
        simp only [Option.map_some, h.fallback, hfb]
        rfl
  | some v =>
    cases v with
    | closure c =>
      have called := hcall w m s k os gs as us c (name.map σ.ids) h hs hv
      have hname : ((name.map σ.ids).map m.name).getD "<anonymous>" = name.getD "<anonymous>" := by
        cases name with
        | none => rfl
        | some n => exact named n rfl
      rw [hname] at called
      exact called
    | host symbol hname receiver =>
      cases receiver with
      | none => exact asked rfl
      | some o => exact asked rfl
    | builtin b => exact builtin_follows hp h hs hv
    | _ =>
      exact .throw (h.fails hs fun stop pc _ => ⟨_, bind_fails (popValues_ok.mpr ⟨as, _, rfl, rfl, hv, rfl⟩)
        (bind_fails (popOperand_ok.mpr ⟨os, rfl, rfl⟩) rfl), rfl⟩)

/-! ## Expressions -/

theorem Gives.leaves {v : Value} (h : Gives keep p σ f rest k os gs v w m s) :
    Leaves keep p σ f rest k os gs none (some v) w m s := by
  obtain ⟨h, u, hu, hs⟩ := h
  exact ⟨h, ⟨some u, none⟩, congrArg some hu, rfl, hs⟩

theorem Follows.leaves {x : Eval Value} (h : Follows σ x w m s (Gives keep p σ f rest k os gs)) :
    Follows σ (some <$> x) w m s (Leaves keep p σ f rest k os gs none) :=
  .map (h.imp fun _ _ _ _ => Gives.leaves)

theorem isPlaced_of_isRegular (n : Node) (h : n.isRegular = true) : n.isPlaced = true := by
  simp only [Node.isRegular, Bool.and_eq_true] at h
  exact h.1.1

section

variable (keep p σ f rest invoke)

/-- The machine goes along with an expression, wherever it comes to its code. -/
def ExprFollows (n : Node) : Prop :=
  ∀ {d c k os gs w m s}, Lowered keep p d n c → (d = 0 → gs = []) → Mirrors keep p σ m s w →
    Standing p f rest (c ++ k) os gs m →
    Follows σ (Eval.expr σ invoke f.scope n) w m s (Leaves keep p σ f rest k os gs (Eval.calledAs n))

end

variable {d : Nat} {c : Marked}

theorem exprs_follow {ns : List Node} (hns : ∀ n ∈ ns, ExprFollows keep p σ f rest invoke n) (hl : LoweredAll keep p d ns c)
    (hd : d = 0 → gs = []) (h : Mirrors keep p σ m s w) (hs : Standing p f rest (c ++ k) os gs m) :
    Follows σ (exprs σ invoke f.scope ns) w m s fun vs w' m' s' => ∃ as : List Operand,
      as.map (fun o => o.value.map (Value.rename .anyBlock)) = vs ∧ as.length = ns.length ∧ Mirrors keep p σ m' s' w' ∧
        Standing p f rest k (as.reverse ++ os) gs m' := by
  induction ns generalizing c os w m s with
  | nil =>
    obtain rfl := hl
    exact .pure ⟨[], rfl, rfl, h, hs⟩
  | cons n ns ih =>
    rw [forall_mem_cons] at hns
    obtain ⟨a, b, ha, hb, rfl⟩ := hl
    rw [append_assoc] at hs
    refine .bind (hns.1 ha hd h hs) fun v w₁ m₁ s₁ ⟨h₁, o, ho, _, hs₁⟩ => ?_
    refine .bind (ih hns.2 hb h₁ hs₁) fun vs w₂ m₂ s₂ ⟨as, has, hlen, h₂, hs₂⟩ => .pure ?_
    refine ⟨o :: as, by rw [map_cons, ho, has], congrArg (· + 1) hlen, h₂, ?_⟩
    rw [List.reverse_cons, append_assoc]
    exact hs₂

theorem exprFields_follow {fs : List (Text × Node)} (hfs : ∀ n ∈ fs.map (·.2), ExprFollows keep p σ f rest invoke n)
    (hl : LoweredFields keep p (d + 1) fs c) (hg : Grouped gs fields below) (h : Mirrors keep p σ m s w)
    (hs : Standing p f rest (c ++ k) os gs m) :
    Follows σ (exprFields σ invoke f.scope fs) w m s fun fds w' m' s' => ∃ new gs',
      new.map (Value.renameField .anyBlock) = fds ∧ Grouped gs' (fields ++ new) below ∧ Mirrors keep p σ m' s' w' ∧
        Standing p f rest k os gs' m' := by
  induction fs generalizing c gs fields w m s with
  | nil =>
    obtain rfl := hl
    exact .pure ⟨[], gs, rfl, by rwa [append_nil], h, hs⟩
  | cons field fs ih =>
    obtain ⟨name, n⟩ := field
    rw [map_cons, forall_mem_cons] at hfs
    obtain ⟨a, b, id, ha, hn, hb, rfl⟩ := hl
    rw [append_assoc, append_assoc] at hs
    rw [exprFields]
    refine .bind (hfs.1 ha (by simp) h hs) fun v w₁ m₁ s₁ ⟨h₁, o, ho, _, hs₁⟩ => ?_
    obtain ⟨ov, oi⟩ := o
    refine .the ho (fun u hu => ?_) fun hv => h₁.fails hs₁ fun stop pc _ => ⟨_, bind_error (popValue_unbound rfl hv), rfl⟩
    simp only at hu
    subst hu
    obtain ⟨gs₁, hg₁, add⟩ := hg.add ⟨id, name, some u⟩
    have moved (stop pc : Nat) : Does m₁ (f.placed (pc + 1) (⟨some u, oi⟩ :: os) gs) rest stop pc ⟨.storeField, id⟩
        (m₁.withFrames (f.placed (pc + 1) os gs₁ :: rest)) := by
      rw [← add, ← h₁.name hn]
      exact .storeField (id : Int) rfl
    obtain ⟨m₂, e, h₂, hs₂⟩ := h₁.move hs₁ os gs₁ (fun stop pc _ => moved stop pc) (by simp) (by simp)
    refine .from e (.bind (ih hfs.2 hb hg₁ h₂ hs₂) fun fds w₃ m₃ s₃ ⟨new, gs₃, hf, hg₃, h₃, hs₃⟩ => ?_)
    refine .pure ⟨⟨id, name, some u⟩ :: new, gs₃, ?_, ?_, h₃, hs₃⟩
    · rw [map_cons, hf, h.numbers name id hn]
      rfl
    · rwa [append_assoc] at hg₃

section

variable (hp : ∀ log, (σ.host log).isPlain = true) (hcall : CallsFollow keep p σ f rest invoke)
include hp hcall

theorem expr_follows : ∀ n : Node, n.isValued Node.isRegular = true → ExprFollows keep p σ f rest invoke n := by
  refine Node.induction_operands isPlaced_of_isRegular fun n hn ih d c k os gs w m s hl hd h hs => ?_
  cases n with
  | ident name =>
    obtain ⟨id, hn, rfl⟩ := hl
    obtain ⟨m', e, h', hs'⟩ := h.ident hs
    refine .from e (.get (.pure ⟨h', _, ?_, ?_, hs'⟩))
    · exact h.value? hn f.scope
    · exact congrArg some (h.numbers name id hn).symm
  | construct type fs =>
    obtain ⟨a, id, ha, hn, rfl⟩ := hl
    rw [append_assoc, append_assoc] at hs
    obtain ⟨m', gs', e, hg, h', hs'⟩ := h.opening hs hd
    refine .from e (.bind (exprFields_follow ih ha hg h' hs')
      fun fields v m₂ s₂ ⟨new, gs₂, hf, hg₂, h₂, hs₂⟩ => ?_)
    rw [List.nil_append] at hg₂
    subst hf
    exact (construct_follows h₂ hs₂ hn hg₂).leaves
  | array items =>
    obtain ⟨a, ha, rfl⟩ := hl
    rw [append_assoc] at hs
    refine .bind (exprs_follow ih ha hd h hs) fun vs v m₂ s₂ ⟨as, hv, hlen, h₂, hs₂⟩ => ?_
    rw [← hlen] at hs₂
    refine .mapM_the hv (fun us hu => ?_) fun hn => h₂.fails hs₂ fun stop pc _ => ?_
    · obtain ⟨m₃, e, h₃, hs₃⟩ := h₂.move hs₂ (⟨some (.array (us.map some)), none⟩ :: os) gs
        (fun stop pc _ => .makeArray rfl hu) (by simp) (by simp)
      refine .from e (.pure ⟨h₃, _, ?_, rfl, hs₃⟩)
      simp only [Option.map_some, Value.rename, Value.renameItems_eq, map_map]
      rfl
    · obtain ⟨name, hn⟩ := popValues_unbound (m := m₂) (g := f.placed (pc + 1) (as.reverse ++ os) gs) rfl hn
      exact ⟨_, bind_error hn, rfl⟩
  | call callee args =>
    obtain ⟨a, b, ha, hb, rfl⟩ := hl
    rw [append_assoc, append_assoc] at hs
    refine .bind (ih callee (.head _) ha hd h hs) fun fn v m₁ s₁ ⟨h₁, o, ho, hi, hs₁⟩ => ?_
    refine .bind (exprs_follow (fun n hn => ih n (.tail _ hn)) hb hd h₁ hs₁)
      fun vs v m₂ s₂ ⟨as, hv, hlen, h₂, hs₂⟩ => ?_
    rw [← hlen] at hs₂
    refine .mapM_the hv (fun us hu => ?_) fun hn => h₂.fails hs₂ fun stop pc _ => ?_
    · obtain ⟨ov, oi⟩ := o
      simp only at ho hi
      subst ho hi
      refine (apply_follows hp hcall h₂ hs₂ hu fun n hn => ?_).leaves
      cases callee with
      | ident name =>
        obtain ⟨id, hid, -⟩ := ha
        cases hn
        exact ⟨id, hid⟩
      | _ => cases hn
    · obtain ⟨name, hn⟩ := popValues_unbound (m := m₂) (g := f.placed (pc + 1) (as.reverse ++ o :: os) gs) rfl hn
      exact ⟨_, bind_error hn, rfl⟩
  | property object name =>
    obtain ⟨a, id, ha, hn, rfl⟩ := hl
    rw [append_assoc] at hs
    refine .bind (ih object (.head _) ha hd h hs) fun v w₁ m₁ s₁ ⟨h₁, o, ho, _, hs₁⟩ => ?_
    exact member_follows h₁ hs₁ hn ho
  | binary op l r =>
    obtain ⟨a, b, o, ha, hb, ho, rfl⟩ := hl
    rw [append_assoc, append_assoc] at hs
    refine .bind (ih l (.head _) ha hd h hs) fun u w₁ m₁ s₁ ⟨h₁, x, hx, _, hs₁⟩ => ?_
    refine .bind (ih r (.tail _ (.head _)) hb hd h₁ hs₁) fun v w₂ m₂ s₂ ⟨h₂, y, hy, _, hs₂⟩ => ?_
    have follows := (arith_follows ho h₂ hs₂ hx hy).leaves
    simp only [map_bind] at follows
    exact follows
  | function params body =>
    simp only [Node.isValued, Node.every, Bool.and_eq_true] at hn
    obtain ⟨ids, n, b, sl, hids, hc, hb, hsl, hf, hbody, rfl⟩ := hl
    rw [append_assoc, append_assoc] at hs
    exact (close_follows h hs hids hc ⟨hb, sl, hsl, hf, hbody⟩ hn.1.2).leaves
  | int | float | str =>
    obtain ⟨n, hn, rfl⟩ := hl
    obtain ⟨m', e, h', hs'⟩ := h.const hs hn trivial
    exact .from e (.pure ⟨h', _, rfl, rfl, hs'⟩)
  | hole => cases hl
  | _ => simp [Node.isValued, Node.isStatement] at hn

end

/-! ## Statements -/

/-- A value is stored. -/
theorem bind_follows {name : Text} {u : Value} {i : Option Int} {t : Option Value} (h : Mirrors keep p σ m s w)
    (hs : Standing p f rest (Marked.op .store ++ k) (⟨some u, i⟩ :: ⟨t, some (id : Int)⟩ :: os) gs m)
    (hn : p.idents.lookup? name = some id) :
    Follows σ (bind σ f.scope name (u.rename .anyBlock)) w m s fun _ w' m' s' =>
      Mirrors keep p σ m' s' w' ∧ Standing p f rest k os gs m' := by
  obtain ⟨stop, pc, e, ha, -, does⟩ := hs.goes h.program h.ready h.running (fun stop pc _ => .store 0 rfl) fun _ _ => rfl
  have every := h.still_known hs does (by simp)
  refine ⟨_, s, e, { h with scopes := ?_, known := every }, pc + 1, rfl, ha⟩
  rw [Scopes.bind_rename Renaming.anyBlock_faithful, h.scopes, h.name hn, h.numbers name id hn]
  rfl

theorem Standing.addFields {ids : List Nat} (hs : Standing p f rest (Marked.ops .addField ids ++ k) os gs m)
    (hp : m.program = p) (hr : m.IsReady) (ha : m.aborted = false) :
    ∃ pc, p.Ahead f.block pc k ∧ m.onwards σ s = { m with
      declared := m.declared ++ ids.map (fun id : Nat => (id : Int))
      frames := f.placed pc os gs :: rest }.onwards σ s := by
  induction ids generalizing m with
  | nil =>
    obtain ⟨pc, hf, hk⟩ := hs
    refine ⟨pc, hk, ?_⟩
    rw [List.map_nil, append_nil, ← hf]
  | cons id ids ih =>
    obtain ⟨stop, pc, e, hk, -, -⟩ := hs.goes hp hr ha (fun stop pc _ => .addField (id : Int)) fun _ _ => rfl
    obtain ⟨pc', hk', e'⟩ := ih (m := { m with declared := m.declared ++ [(id : Int)], frames := _ })
      ⟨pc + 1, rfl, hk⟩ hp hr ha
    refine ⟨pc', hk', (e.trans e').trans ?_⟩
    simp

/-- A struct type is declared. -/
theorem declare_follows {name : Text} {fs : List Text} {ids : List Nat} (h : Mirrors keep p σ m s w)
    (hs : Standing p f rest (Marked.ops .addField ids ++ (Marked.op .createStruct id ++ k)) os gs m)
    (hids : p.Numbers fs ids) (hn : p.idents.lookup? name = some id) :
    Follows σ (declare σ f.scope name fs) w m s fun _ w' m' s' =>
      Mirrors keep p σ m' s' w' ∧ Standing p f rest k os gs m' := by
  obtain ⟨pc, hk, e⟩ := hs.addFields (σ := σ) (s := s) h.program h.ready h.running
  have hs' : Standing p f rest (Marked.op .createStruct id ++ k) os gs { m with
    declared := m.declared ++ ids.map (fun id : Nat => (id : Int)), frames := f.placed pc os gs :: rest } := ⟨pc, rfl, hk⟩
  obtain ⟨stop, pc', e', ha, -, does⟩ := hs'.goes h.program h.ready h.running
    (fun stop pc _ => .createStruct (id : Int)) fun _ _ => rfl
  obtain ⟨hf, hrest⟩ := hs.every h.known (pc' + 1)
  have every := does.every h.known.scopes hf hrest (fun _ ho => by cases ho) (fun _ _ _ _ _ ho => by cases ho)
  have bound : (m.scopes.bind f.scope id (m.name id)
      (some (.structType ⟨.inner m.fresh, id, m.name id, m.declared ++ ids.map fun id : Nat => (id : Int)⟩))).rename .anyBlock
      = w.scopes.bind f.scope (σ.ids name) name
        (some (.structType ⟨.inner w.fresh, σ.ids name, name, fs.map σ.ids⟩)) := by
    rw [Scopes.bind_rename Renaming.anyBlock_faithful, h.scopes, h.name hn, h.declared, List.nil_append, h.fresh, h.ids hids,
      h.numbers name id hn]
    simp only [Option.map_some, Value.rename, StructType.rename, Renaming.anyBlock, id_eq, List.map_id_fun]
  exact ⟨_, s, e.trans e', { h with
    declared := rfl, scopes := bound, fresh := congrArg (· + 1) h.fresh,
    known := every.mono fun c hc => hc.mono (Nat.le_succ _) fun _ _ => rfl }, pc' + 1, rfl, ha⟩

section

variable (keep p σ f rest k os)

/-- Where the machine stands behind a statement. A return sets the result of the frame, and nothing is ahead. -/
def Passed : Eval.Flow → Realm → Machine → List Action → Prop
  | .done, w, m, s => Mirrors keep p σ m s w ∧ Standing p f rest k os [] m
  | .value v, w, m, s =>
    Mirrors keep p σ m s w ∧ ∃ o : Operand, o.value.map (Value.rename .anyBlock) = v ∧ Standing p f rest k (o :: os) [] m
  | .returned v, w, m, s =>
    Mirrors keep p σ m s w ∧ ∃ (u : Value) (os' : List Operand), u.rename .anyBlock = v ∧
      Standing p { f with result := some u } rest [] os' [] m

end

theorem return_follows {k' : Marked} {os' : List Operand} (h : Mirrors keep p σ m s w)
    (hs : Standing p f rest (Marked.op .ret ++ k) (o :: os) [] m) (ho : o.value.map (Value.rename .anyBlock) = v) :
    Follows σ (do return .returned (← Eval.the v)) w m s (Passed keep p σ f rest k' os') := by
  obtain ⟨ov, oi⟩ := o
  refine .the ho (fun u hu => ?_) fun hv => h.fails hs fun stop pc _ => ?_
  · simp only at hu
    subst hu
    obtain ⟨stop, pc, e, -, hend, does⟩ := hs.goes h.program h.ready h.running (fun stop pc _ => .ret 0 rfl) fun _ _ => rfl
    have every := h.still_known hs does (by simp)
    exact .from e (.pure ⟨{ h with known := every }, u, os, rfl, stop, rfl, hend⟩)
  · simp only at hv
    subst hv
    exact ⟨⟨.unbound (m.identName oi), f.placed (pc + 1) os []⟩, rfl, rfl⟩

theorem rename_initial (ρ : Renaming) (type : Text) : (Lower.initial type).rename ρ = Lower.initial type := by
  unfold Lower.initial
  repeat' split
  all_goals rfl

theorem statement_follows (hp : ∀ log, (σ.host log).isPlain = true) (hcall : CallsFollow keep p σ f rest invoke)
    {n : Node} (hr : n.every Node.isRegular = true) (hl : Lowered keep p 0 n c) (h : Mirrors keep p σ m s w)
    (hs : Standing p f rest (c ++ k) os [] m) :
    Follows σ (statement σ invoke f.scope n) w m s (Passed keep p σ f rest k os) := by
  have hops := Node.isValued_operands isPlaced_of_isRegular hr
  cases n with
  | assign l r =>
    have assigns := Node.check_of_every hr
    simp only [Node.isRegular, Bool.and_eq_true] at assigns
    obtain ⟨a, b, ha, hb, rfl⟩ := hl
    cases l with
    | ident name =>
      obtain ⟨id, hn, rfl⟩ := ha
      rw [append_assoc, append_assoc] at hs
      obtain ⟨m₁, e, h₁, hs₁⟩ := h.ident hs
      refine .from e (.bind (expr_follows hp hcall r (hops r (.tail _ (.head _))) hb (fun _ => rfl) h₁ hs₁)
        fun v w₂ m₂ s₂ left => ?_)
      obtain ⟨h₂, ⟨ov, oi⟩, ho, -, hs₂⟩ := left
      refine .the ho (fun u hu => ?_) fun hv => h₂.fails hs₂ fun stop pc _ => ⟨_, bind_error (popValue_unbound rfl hv), rfl⟩
      simp only at hu
      subst hu
      exact .bind (bind_follows h₂ hs₂ hn) fun _ w₃ m₃ s₃ done => .pure done
    | _ => cases assigns.1.2
  | «variable» type name =>
    obtain ⟨id, n, hn, hv, rfl⟩ := hl
    rw [append_assoc, append_assoc] at hs
    obtain ⟨m₁, e₁, h₁, hs₁⟩ := h.ident hs
    obtain ⟨m₂, e₂, h₂, hs₂⟩ := h₁.const hs₁ hv (every_initial _ type)
    have bound := bind_follows h₂ hs₂ hn
    rw [rename_initial] at bound
    exact .from (e₁.trans e₂) (.bind bound fun _ w₃ m₃ s₃ done => .pure done)
  | structDef name fs =>
    obtain ⟨ids, id, hids, hn, rfl⟩ := hl
    rw [append_assoc] at hs
    exact .bind (declare_follows h hs hids hn) fun _ w₃ m₃ s₃ done => .pure done
  | ret v =>
    cases v with
    | none =>
      obtain ⟨n, hv, rfl⟩ := hl
      rw [append_assoc] at hs
      obtain ⟨m₁, e, h₁, hs₁⟩ := h.const hs hv trivial
      exact .from e (return_follows h₁ hs₁ rfl)
    | some v =>
      obtain ⟨a, ha, rfl⟩ := hl
      rw [append_assoc] at hs
      refine .bind (expr_follows hp hcall v (hops v (.head _)) ha (fun _ => rfl) h hs) fun x w₁ m₁ s₁ left => ?_
      obtain ⟨h₁, o, ho, -, hs₁⟩ := left
      exact return_follows h₁ hs₁ ho
  | _ =>
    refine .bind (expr_follows hp hcall _ (by simp [Node.isValued, Node.isStatement, hr]) hl (fun _ => rfl) h hs)
      fun x w₁ m₁ s₁ left => ?_
    obtain ⟨h₁, o, ho, -, hs₁⟩ := left
    exact .pure ⟨h₁, o, ho, hs₁⟩

/-- The operand on top, if there is any, is what the last expression left. -/
def Top : Option (Option Value) → List Operand → Prop
  | none, os => os = []
  | some v, os => ∃ o os', os = o :: os' ∧ o.value.map (Value.rename .anyBlock) = v

section

variable (keep p σ f rest)

def AtEnd : Eval.Ended → Realm → Machine → List Action → Prop
  | .fell last, w, m, s => Mirrors keep p σ m s w ∧ ∃ os, Top last os ∧ Standing p f rest [] os [] m
  | .returned v, w, m, s =>
    Mirrors keep p σ m s w ∧ ∃ (u : Value) (os : List Operand), u.rename .anyBlock = v ∧
      Standing p { f with result := some u } rest [] os [] m

end

theorem statements_follow (hp : ∀ log, (σ.host log).isPlain = true) (hcall : CallsFollow keep p σ f rest invoke)
    {ns : List Node} {last : Option (Option Value)} (hr : Node.everyNode Node.isRegular ns = true)
    (hl : LoweredAll keep p 0 ns c) (htop : Top last os) (h : Mirrors keep p σ m s w)
    (hs : Standing p f rest c os [] m) :
    Follows σ (statements σ invoke f.scope last ns) w m s (AtEnd keep p σ f rest) := by
  induction ns generalizing c last os m s w with
  | nil =>
    obtain rfl := hl
    exact .pure ⟨h, os, htop, hs⟩
  | cons n ns ih =>
    simp only [Node.everyNode, Bool.and_eq_true] at hr
    obtain ⟨a, b, ha, hb, rfl⟩ := hl
    refine .bind (statement_follows hp hcall hr.1 ha h hs) fun flow w₁ m₁ s₁ passed => ?_
    cases flow with
    | done => exact ih hr.2 hb htop passed.1 passed.2
    | value v =>
      obtain ⟨h₁, o, ho, hs₁⟩ := passed
      exact ih hr.2 hb ⟨o, os, rfl, ho⟩ h₁ hs₁
    | returned v => exact .pure passed

end

end Machine

end Scriptlet

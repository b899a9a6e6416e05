/-
  Scriptlet.Proofs.Instruction — what a single instruction does, case by case.

  `Machine.exec` takes operands from the frame one after the other and may fail at each of them.
  `Does` lists the ways in which an instruction succeeds, each with the operands it needs and the
  machine it leaves. An instruction succeeds in exactly these ways (`exec_ok_iff`), so that proofs
  about all instructions are case splits over `Does`, and proofs that run a known instruction
  give the case. One that fails has taken operands and at most a group of fields from its frame,
  and nothing else (`exec_error`).
-/

import Mathlib.Data.List.Forall2
import Scriptlet.Machine.Step

namespace Scriptlet

namespace Value

mutual

theorem copy_eq : ∀ v : Value, v.copy = v
  | .array items => by rw [copy, copyAll_eq items]
  | .none | .int _ | .float _ | .str _ | .bool _ | .proto _ | .closure _ | .structType _ | .object _
  | .host .. | .builtin _ => rfl

theorem copyPlace_eq : ∀ v : Option Value, copyPlace v = v
  | Option.none => rfl
  | some v => by rw [copyPlace, copy_eq v]

theorem copyAll_eq : ∀ vs : List (Option Value), copyAll vs = vs
  | [] => rfl
  | v :: vs => by rw [copyAll, copyPlace_eq v, copyAll_eq vs]

end

end Value

namespace Machine

/-! ## Taking operands -/

abbrev setOperands (f : Frame) (os : List Operand) : Frame := { f with operands := os }

theorem bind_ok {ε α β : Type} {x : Except ε α} {k : α → Except ε β} {b : β} :
    x >>= k = .ok b ↔ ∃ a, x = .ok a ∧ k a = .ok b := by
  cases x <;> simp [bind, Except.bind]

theorem pure_ok {ε α : Type} {a b : α} : (pure a : Except ε α) = .ok b ↔ a = b := by
  simp [pure, Except.pure]

variable {f g : Frame} {m : Machine} {v : Value}

theorem inFrame_ok {α : Type} {x : Except Fault α} {a : α} : inFrame f x = .ok a ↔ x = .ok a := by
  cases x <;> simp [inFrame, Except.mapError]

theorem popOperand_ok {o : Operand} :
    popOperand f = .ok (o, g) ↔ ∃ os, f.operands = o :: os ∧ g = setOperands f os := by
  unfold popOperand Frame.pop?
  cases hf : f.operands with
  | nil => simp
  | cons a as =>
    simp only [Except.ok.injEq, Prod.mk.injEq, List.cons.injEq]
    constructor
    · rintro ⟨rfl, rfl⟩
      exact ⟨as, ⟨rfl, rfl⟩, rfl⟩
    · rintro ⟨os, ⟨rfl, rfl⟩, rfl⟩
      exact ⟨rfl, rfl⟩

theorem resolved_ok {o : Operand} : m.resolved o = .ok v ↔ o.value = some v := by
  unfold resolved
  cases o.value <;> simp

theorem popValue_ok : m.popValue f = .ok (v, g) ↔ ∃ i os, f.operands = ⟨some v, i⟩ :: os ∧ g = setOperands f os := by
  unfold popValue
  simp only [bind_ok, Prod.exists, popOperand_ok, pure_ok, Prod.mk.injEq, inFrame_ok, resolved_ok]
  constructor
  · rintro ⟨⟨w, i⟩, k, ⟨os, hf, rfl⟩, u, rfl, rfl, rfl⟩
    exact ⟨i, os, hf, rfl⟩
  · rintro ⟨i, os, hf, rfl⟩
    exact ⟨_, _, ⟨os, hf, rfl⟩, v, rfl, rfl, rfl⟩

theorem popOperands_ok {n : Int} {as : List Operand} :
    popOperands f n = .ok (as, g) ↔
      n = as.length ∧ ∃ os, f.operands = as.reverse ++ os ∧ g = setOperands f os := by
  unfold popOperands Frame.popN?
  constructor
  · intro h
    split at h
    · rename_i p hp
      split at hp
      · cases hp
      · rename_i hn
        simp only [Bool.or_eq_true, decide_eq_true_eq, not_or, Int.not_lt] at hn
        simp only [Option.some.injEq] at hp
        subst hp
        simp only [Except.ok.injEq, Prod.mk.injEq] at h
        obtain ⟨rfl, rfl⟩ := h
        refine ⟨?_, f.operands.drop n.toNat, by simp, rfl⟩
        simp only [List.length_reverse, List.length_take]
        omega
    · cases h
  · rintro ⟨rfl, os, hf, rfl⟩
    have hn : ¬ ((as.length : Int) < 0 || (f.operands.length : Int) < as.length) = true := by
      rw [Bool.or_eq_true, decide_eq_true_eq, decide_eq_true_eq, hf, List.length_append, List.length_reverse]
      omega
    rw [if_neg hn]
    simp [hf]

theorem mapM_ok {ε α β : Type} {k : α → Except ε β} {as : List α} {bs : List β} :
    as.mapM k = .ok bs ↔ List.Forall₂ (fun a b => k a = .ok b) as bs := by
  induction as generalizing bs with
  | nil => simp [List.mapM_nil, pure, Except.pure, eq_comm]
  | cons a as ih =>
    simp only [List.mapM_cons, bind_ok, pure_ok, ih]
    constructor
    · rintro ⟨b, hb, bs, hbs, rfl⟩
      exact .cons hb hbs
    · intro h
      cases h with
      | cons hb hbs => exact ⟨_, hb, _, hbs, rfl⟩

def Valued (as : List Operand) (vs : List Value) : Prop := as.map (·.value) = vs.map some

theorem popValues_ok {n : Int} {vs : List Value} :
    m.popValues f n = .ok (vs, g) ↔
      ∃ as os, n = as.length ∧ f.operands = as.reverse ++ os ∧ Valued as vs ∧ g = setOperands f os := by
  have valued {as : List Operand} : List.Forall₂ (fun o v => m.resolved o = .ok v) as vs ↔ Valued as vs := by
    simp only [resolved_ok, Valued]
    induction as generalizing vs with
    | nil => cases vs <;> simp
    | cons a as ih => cases vs <;> simp [ih]
  unfold popValues
  simp only [bind_ok, Prod.exists, popOperands_ok, pure_ok, Prod.mk.injEq, inFrame_ok, mapM_ok]
  constructor
  · rintro ⟨as, k, ⟨hn, os, hf, rfl⟩, us, hv, rfl, rfl⟩
    exact ⟨as, os, hn, hf, valued.mp hv, rfl⟩
  · rintro ⟨as, os, hn, hf, hv, rfl⟩
    exact ⟨as, _, ⟨hn, os, hf, rfl⟩, vs, valued.mpr hv, rfl, rfl⟩

/-! ## The ways to succeed -/

section

variable (m : Machine) (f : Frame) (rest : List Frame)

/-- May a struct instance with the fields of the innermost group be made here? -/
def Admits (id : Int) : Prop :=
  match m.scopes.value? f.scope id with
  | some (.structType t) => ∀ fd ∈ f.closeGroup.1, t.hasField fd.id = true
  | some _ => False
  | none => True

/-- The action by which a call is handed to the host, if it is one that the host answers. -/
def asks (callee : Operand) (args : List Value) : Option Action :=
  match callee.value, callee.ident with
  | some (.host symbol name none), _ => some (.call symbol name args)
  | some (.host symbol name (some o)), _ => some (.call symbol name (.object o :: args))
  | some (.builtin name), _ =>
    match args with
    | [.str path] => if name = importName then some (.importModule path) else none
    | _ => none
  | none, some id => if m.fallback then some (.call id (m.name id) args) else none
  | _, _ => none

def invoked (c : Closure) (ident : Option Int) (args : List Value) : Machine :=
  let name := (ident.map m.name).getD "<anonymous>"
  let callee : Frame :=
    { name := name, unit := f.unit, block := c.proto.block, scope := (m.callScope name c args).1, returns := true }
  { m with scopes := (m.callScope name c args).2, frames := callee :: f :: rest }

/-- What an object gives for a name: its field, or a method of the host. -/
def member (o : Object) (id : Int) : Option Value :=
  match o.field? id with
  | some v => v
  | none => some (.host id (m.name id) (some o))

/-- The ways in which an instruction succeeds in the frame `f`, which is already set behind it. -/
inductive Does (stop pc : Nat) : Instr → Machine → Prop
  | loadIdent (id : Int) : m.program.isConstructor f.block pc = false →
      Does stop pc ⟨.loadIdent, id⟩ (m.loadIdent f rest id)
  | construct (id : Int) : m.program.isConstructor f.block pc = true → m.Admits f id →
      Does stop pc ⟨.loadIdent, id⟩ (m.newObject f.closeGroup.2 rest id f.closeGroup.1)
  | store (n : Int) {v : Value} {i : Option Int} {t : Option Value} {id : Int} {os : List Operand} :
      f.operands = ⟨some v, i⟩ :: ⟨t, some id⟩ :: os →
      Does stop pc ⟨.store, n⟩
        { m with scopes := m.scopes.bind f.scope id (m.name id) (some v), frames := setOperands f os :: rest }
  | loadConst {id : Int} {v : Value} : m.program.const? id = some v →
      Does stop pc ⟨.loadConst, id⟩ (m.withFrames (f.pushValue v :: rest))
  | createStruct (id : Int) : Does stop pc ⟨.createStruct, id⟩ (m.createStruct f rest id)
  | addField (id : Int) :
      Does stop pc ⟨.addField, id⟩ { m with declared := m.declared ++ [id], frames := f :: rest }
  | storeField (id : Int) {v : Value} {i : Option Int} {os : List Operand} : f.operands = ⟨some v, i⟩ :: os →
      Does stop pc ⟨.storeField, id⟩ (m.withFrames ((setOperands f os).addField ⟨id, m.name id, some v⟩ :: rest))
  | makeArray {as os : List Operand} {vs : List Value} : f.operands = as.reverse ++ os → Valued as vs →
      Does stop pc ⟨.makeArray, as.length⟩
        (m.withFrames ((setOperands f os).pushValue (.array (vs.map some)) :: rest))
  | makeFn {p : Proto} {i : Option Int} {as os : List Operand} {ids : List Int} : p.params = as.length →
      f.operands = ⟨some (.proto p), i⟩ :: (as.reverse ++ os) → as.map (·.ident) = ids.map some →
      Does stop pc ⟨.makeFn, as.length⟩
        { m with
          fresh := m.fresh + 1
          frames :=
            (setOperands f os).pushValue (.closure ⟨.inner m.fresh, p, ids, m.scopes.chain f.scope⟩) :: rest }
  | invoke {as os : List Operand} {vs : List Value} {c : Closure} {i : Option Int} :
      f.operands = as.reverse ++ ⟨some (.closure c), i⟩ :: os → Valued as vs → vs.length = c.params.length →
      rest.length + 1 < m.limit → Does stop pc ⟨.call, as.length⟩ (m.invoked (setOperands f os) rest c i vs)
  | ask {as os : List Operand} {vs : List Value} {callee : Operand} {a : Action} :
      f.operands = as.reverse ++ callee :: os → Valued as vs → m.asks callee vs = some a →
      Does stop pc ⟨.call, as.length⟩ (m.await (setOperands f os) rest a)
  | arith (a : Arith) {o : Op} (n : Int) {u v r : Value} {i j : Option Int} {os : List Operand} : a.op = o →
      f.operands = ⟨some v, i⟩ :: ⟨some u, j⟩ :: os → a.apply u v = .ok r →
      Does stop pc ⟨o, n⟩ (m.withFrames ((setOperands f os).pushValue r :: rest))
  | beginStruct (n : Int) : Does stop pc ⟨.beginStruct, n⟩ (m.withFrames (f.openGroup :: rest))
  | loadField (id : Int) {o : Object} {i : Option Int} {os : List Operand} : f.operands = ⟨some (.object o), i⟩ :: os →
      Does stop pc ⟨.loadField, id⟩
        ((m.put (.loadField o.id (m.name id))).withFrames ((setOperands f os).push ⟨m.member o id, none⟩ :: rest))
  | retNone (n : Int) : f.operands = [] →
      Does stop pc ⟨.ret, n⟩ (m.withFrames ({ f with result := some .none, pc := stop } :: rest))
  | ret (n : Int) {v : Value} {i : Option Int} {os : List Operand} : f.operands = ⟨some v, i⟩ :: os →
      Does stop pc ⟨.ret, n⟩ (m.withFrames ({ setOperands f os with result := some v, pc := stop } :: rest))

end

section

variable {m m' : Machine} {f : Frame} {rest : List Frame} {stop pc : Nat}

theorem asks_awaitsReply {callee : Operand} {us : List Value} {a : Action} (h : m.asks callee us = some a) :
    a.awaitsReply = true := by
  unfold asks at h
  split at h
  · cases h; rfl
  · cases h; rfl
  · split at h
    · split at h <;> cases h
      rfl
    · cases h
  · split at h <;> cases h
    rfl
  · cases h

theorem construct_ok {id : Int} :
    m.construct f rest id = .ok m' ↔ m.Admits f id ∧ m' = m.newObject f.closeGroup.2 rest id f.closeGroup.1 := by
  unfold construct Admits
  simp only
  cases hv : m.scopes.value? f.scope id with
  | none => simp [eq_comm]
  | some v =>
    cases v with
    | structType t =>
      simp only
      cases hf : f.closeGroup.1.find? (fun fd => !t.hasField fd.id) with
      | none =>
        simp only [List.find?_eq_none, Bool.not_eq_true', Bool.not_eq_false] at hf
        simp only [Except.ok.injEq, eq_comm (b := m')]
        exact ⟨fun h => ⟨hf, h⟩, fun h => h.2⟩
      | some fd =>
        have hm := List.mem_of_find?_eq_some hf
        have hp := List.find?_some hf
        simp only [Bool.not_eq_true'] at hp
        simp only [reduceCtorEq, false_iff, not_and]
        intro h
        exact absurd (h fd hm) (by simp [hp])
    | _ => simp

variable {n : Int} {i : Instr}

theorem store_ok : m.store f rest = .ok m' → Does m f rest stop pc ⟨.store, n⟩ m' := by
  unfold store
  simp only [bind_ok, Prod.exists, popValue_ok, popOperand_ok]
  rintro ⟨v, g, ⟨i, os, hf, rfl⟩, ⟨t, j⟩, k, ⟨os', hg, rfl⟩, h⟩
  cases j with
  | none => cases h
  | some id =>
    simp only [pure_ok, Value.copy_eq] at h
    subst h
    simp only at hg
    exact .store n (hg ▸ hf)

theorem makeFn_ok : m.makeFn f rest n = .ok m' → Does m f rest stop pc ⟨.makeFn, n⟩ m' := by
  unfold makeFn
  simp only [bind_ok, Prod.exists, popValue_ok]
  rintro ⟨v, g, ⟨i, os, hf, rfl⟩, h⟩
  cases v with
  | proto p =>
    simp only at h
    split at h
    · cases h
    · rename_i hp
      simp only [bind_ok, Prod.exists, popOperands_ok, inFrame_ok, mapM_ok, pure_ok] at h
      obtain ⟨as, k, ⟨rfl, os', hg, rfl⟩, ids, hids, rfl⟩ := h
      have named : as.map (·.ident) = ids.map some := by
        clear hf hg hp
        induction hids with
        | nil => rfl
        | @cons o id as ids ho _ ih =>
          unfold param at ho
          cases hi : o.ident with
          | none => simp [hi] at ho
          | some j =>
            simp only [hi, Except.ok.injEq] at ho
            simp [hi, ho, ih]
      simp only [ne_eq, not_not] at hp
      exact .makeFn hp (hg ▸ hf) named
  | _ => cases h

theorem callClosure_ok {c : Closure} {i : Option Int} {args : List Value} :
    m.callClosure f rest c i args = .ok m' ↔
      args.length = c.params.length ∧ rest.length + 1 < m.limit ∧ m' = m.invoked f rest c i args := by
  unfold callClosure invoked
  by_cases ha : args.length = c.params.length
  · by_cases hl : m.limit ≤ rest.length + 1
    · have : ¬ rest.length + 1 < m.limit := Nat.not_lt_of_le hl
      simp [ha, hl, this]
    · simp [ha, hl, eq_comm, Nat.lt_of_not_le hl]
  · simp [ha]

theorem callBuiltin_ok {name : Text} {i : Option Int} {args : List Value} :
    m.callBuiltin f rest name args = .ok m' ↔
      ∃ a, m.asks ⟨some (.builtin name), i⟩ args = some a ∧ m' = m.await f rest a := by
  unfold callBuiltin asks
  by_cases hn : name = importName
  · simp only [hn, ne_eq, not_true_eq_false, if_false, if_true]
    split
    · simp [eq_comm]
    · rename_i v hv
      split
      · rename_i path e
        simp only [List.cons.injEq, and_true] at e
        exact absurd e (hv path)
      · simp
    · rename_i h1 h2
      split
      · exact absurd rfl (h1 _)
      · simp
  · simp only [hn, ne_eq, not_false_eq_true, if_true, if_false]
    split <;> simp

theorem call_ok : m.call f rest n = .ok m' → Does m f rest stop pc ⟨.call, n⟩ m' := by
  unfold call
  simp only [bind_ok, Prod.exists, popValues_ok, popOperand_ok]
  rintro ⟨vs, g, ⟨as, os, rfl, hf, hv, rfl⟩, callee, k, ⟨os', hg, rfl⟩, h⟩
  simp only at hg
  subst hg
  have ask {a : Action} (ha : m.asks callee vs = some a) (e : m' = m.await (setOperands f os') rest a) :
      Does m f rest stop pc ⟨.call, as.length⟩ m' := e ▸ .ask hf hv ha
  obtain ⟨value, ident⟩ := callee
  simp only at h
  split at h
  · obtain ⟨hl, hr, rfl⟩ := callClosure_ok.mp h
    exact .invoke hf hv hl hr
  · simp only [pure_ok] at h
    exact ask rfl h.symm
  · simp only [pure_ok] at h
    exact ask rfl h.symm
  · obtain ⟨a, ha, rfl⟩ := callBuiltin_ok (i := ident).mp h
    exact ask ha rfl
  · cases h
  · split at h
    · rename_i hb
      simp only [pure_ok] at h
      exact ask (by simp [asks, hb]) h.symm
    · cases h
  · cases h

theorem loadField_ok {id : Int} : m.loadField f rest id = .ok m' → Does m f rest stop pc ⟨.loadField, id⟩ m' := by
  unfold loadField
  simp only [bind_ok, Prod.exists, popValue_ok]
  rintro ⟨v, g, ⟨i, os, hf, rfl⟩, h⟩
  cases v with
  | object o =>
    have hd : Does m f rest stop pc ⟨.loadField, id⟩ _ := .loadField id hf
    simp only [member] at hd
    simp only [pure_ok] at h
    rw [← h]
    cases hi : o.field? id <;> simp only [hi, Value.copyPlace_eq] at hd ⊢ <;> exact hd
  | _ => cases h

theorem arith_ok {a : Arith} : m.arith f rest a = .ok m' → Does m f rest stop pc ⟨a.op, n⟩ m' := by
  unfold arith
  simp only [bind_ok, Prod.exists, popValue_ok, inFrame_ok, pure_ok]
  rintro ⟨v, g, ⟨i, os, hf, rfl⟩, u, k, ⟨j, os', hg, rfl⟩, r, hr, rfl⟩
  simp only at hg
  exact .arith a n rfl (hg ▸ hf) hr

theorem ret_ok : m.ret f rest stop = .ok m' → Does m f rest stop pc ⟨.ret, n⟩ m' := by
  unfold ret popResult Frame.pop?
  cases hf : f.operands with
  | nil =>
    simp only [bind, Except.bind, pure_ok]
    rintro rfl
    exact .retNone n hf
  | cons o os =>
    simp only [bind_ok, Prod.exists, inFrame_ok, resolved_ok, pure_ok, Prod.mk.injEq]
    rintro ⟨v, g, ⟨u, hu, rfl, rfl⟩, rfl⟩
    obtain ⟨value, i⟩ := o
    simp only at hu
    subst hu
    exact .ret n hf

/-- An instruction succeeds in no other way. -/
theorem exec_ok (h : m.exec f rest stop pc i = .ok m') : Does m f rest stop pc i m' := by
  obtain ⟨op, n⟩ := i
  cases op with
  | loadIdent =>
    simp only [exec] at h
    split at h
    · rename_i hc
      obtain ⟨ha, rfl⟩ := construct_ok.mp h
      exact .construct n hc ha
    · rename_i hc
      cases h
      exact .loadIdent n (by simpa using hc)
  | store => exact store_ok h
  | loadConst =>
    simp only [exec, loadConst] at h
    split at h
    · rename_i v hv
      rw [Value.copy_eq] at h
      cases h
      exact .loadConst hv
    · cases h
  | createStruct => cases h; exact .createStruct n
  | addField => cases h; exact .addField n
  | storeField =>
    simp only [exec, storeField, bind_ok, Prod.exists, popValue_ok, pure_ok] at h
    obtain ⟨v, g, ⟨i, os, hf, rfl⟩, rfl⟩ := h
    exact .storeField n hf
  | makeArray =>
    simp only [exec, makeArray, bind_ok, Prod.exists, popValues_ok, pure_ok] at h
    obtain ⟨vs, g, ⟨as, os, rfl, hf, hv, rfl⟩, rfl⟩ := h
    exact .makeArray hf hv
  | makeFn => exact makeFn_ok h
  | call => exact call_ok h
  | add => exact arith_ok h
  | sub => exact arith_ok h
  | mul => exact arith_ok h
  | div => exact arith_ok h
  | beginStruct => cases h; exact .beginStruct n
  | loadField => exact loadField_ok h
  | ret => exact ret_ok h
  | unknown c hc => cases h

theorem exec_arith (a : Arith) (n : Int) : m.exec f rest stop pc ⟨a.op, n⟩ = m.arith f rest a := by
  cases a <;> rfl

theorem asks_exec {as os : List Operand} {vs : List Value} {callee : Operand} {a : Action}
    (hf : f.operands = as.reverse ++ callee :: os) (hv : Valued as vs) (ha : m.asks callee vs = some a) :
    m.call f rest as.length = .ok (m.await (setOperands f os) rest a) := by
  unfold call
  refine bind_ok.mpr ⟨_, popValues_ok.mpr ⟨as, _, rfl, hf, hv, rfl⟩, ?_⟩
  refine bind_ok.mpr ⟨(callee, setOperands f os), popOperand_ok.mpr ⟨os, rfl, rfl⟩, ?_⟩
  obtain ⟨value, ident⟩ := callee
  simp only
  split
  · simp [asks] at ha
  · simp only [asks, Option.some.injEq] at ha
    rw [ha]
    rfl
  · simp only [asks, Option.some.injEq] at ha
    rw [ha]
    rfl
  · exact callBuiltin_ok.mpr ⟨a, ha, rfl⟩
  · rename_i h1 h2 h3 h4
    unfold asks at ha
    split at ha <;> simp_all
  · by_cases hb : m.fallback = true
    · simp only [asks, hb, if_true, Option.some.injEq] at ha ⊢
      rw [ha]
      rfl
    · simp [asks, hb] at ha
  · simp [asks] at ha

theorem Does.exec (h : Does m f rest stop pc i m') : m.exec f rest stop pc i = .ok m' := by
  cases h with
  | loadIdent id hc => simp [Machine.exec, hc]
  | construct id hc ha =>
    simp only [Machine.exec, hc, if_true]
    exact construct_ok.mpr ⟨ha, rfl⟩
  | store n hf =>
    refine bind_ok.mpr ⟨_, popValue_ok.mpr ⟨_, _, hf, rfl⟩, bind_ok.mpr ⟨_, popOperand_ok.mpr ⟨_, rfl, rfl⟩, ?_⟩⟩
    simp [Value.copy_eq, pure, Except.pure]
  | loadConst hv => simp [Machine.exec, Machine.loadConst, hv, Value.copy_eq]
  | createStruct id => rfl
  | addField id => rfl
  | storeField id hf => exact bind_ok.mpr ⟨_, popValue_ok.mpr ⟨_, _, hf, rfl⟩, rfl⟩
  | makeArray hf hv => exact bind_ok.mpr ⟨_, popValues_ok.mpr ⟨_, _, rfl, hf, hv, rfl⟩, rfl⟩
  | @makeFn p i as os ids hp hf hi =>
    have params : as.mapM param = .ok ids := by
      refine mapM_ok.mpr ?_
      clear hp hf
      induction as generalizing ids with
      | nil => cases ids <;> simp at hi ⊢
      | cons o as ih =>
        cases ids with
        | nil => simp at hi
        | cons id ids =>
          simp only [List.map_cons, List.cons.injEq] at hi
          exact .cons (by simp [param, hi.1]) (ih hi.2)
    refine bind_ok.mpr ⟨_, popValue_ok.mpr ⟨_, _, hf, rfl⟩, ?_⟩
    simp only [hp, ne_eq, not_true_eq_false, if_false]
    exact bind_ok.mpr ⟨_, popOperands_ok.mpr ⟨rfl, _, rfl, rfl⟩, bind_ok.mpr ⟨_, inFrame_ok.mpr params, rfl⟩⟩
  | invoke hf hv hl hr =>
    refine bind_ok.mpr ⟨_, popValues_ok.mpr ⟨_, _, rfl, hf, hv, rfl⟩, bind_ok.mpr ⟨_, popOperand_ok.mpr ⟨_, rfl, rfl⟩, ?_⟩⟩
    exact callClosure_ok.mpr ⟨hl, hr, rfl⟩
  | ask hf hv ha => exact asks_exec hf hv ha
  | arith a n ho hf hr =>
    rw [← ho, exec_arith]
    refine bind_ok.mpr ⟨_, popValue_ok.mpr ⟨_, _, hf, rfl⟩, bind_ok.mpr ⟨_, popValue_ok.mpr ⟨_, _, rfl, rfl⟩, ?_⟩⟩
    exact bind_ok.mpr ⟨_, inFrame_ok.mpr hr, rfl⟩
  | beginStruct n => rfl
  | @loadField id o i os hf =>
    refine bind_ok.mpr ⟨_, popValue_ok.mpr ⟨_, _, hf, rfl⟩, ?_⟩
    simp only [member]
    cases o.field? id with
    | none => rfl
    | some v => simp [Value.copyPlace_eq, pure, Except.pure]
  | retNone n hf => simp [Machine.exec, Machine.ret, popResult, Frame.pop?, hf, bind, Except.bind, pure, Except.pure]
  | ret n hf =>
    simp [Machine.exec, Machine.ret, popResult, Frame.pop?, hf, inFrame, Except.mapError, resolved, bind, Except.bind, pure,
      Except.pure]

theorem Does.program (h : Does m f rest stop pc i m') : m'.program = m.program := by
  cases h <;> rfl

theorem Does.halted (h : Does m f rest stop pc i m') : m'.halted = m.halted := by
  cases h <;> rfl

/-- `Does` lists exactly the ways in which an instruction succeeds. -/
theorem exec_ok_iff : m.exec f rest stop pc i = .ok m' ↔ Does m f rest stop pc i m' :=
  ⟨exec_ok, Does.exec⟩

/-! ## The ways to fail -/

/-- The frame without operands and groups of fields that were on top. -/
inductive Spent (f : Frame) : Frame → Prop
  | mk {os : List Operand} {gs : List (List Field)} : os <:+ f.operands → gs <:+ f.groups →
      Spent f { f with operands := os, groups := gs }

theorem Spent.refl (f : Frame) : Spent f f := .mk List.suffix_rfl List.suffix_rfl

theorem Spent.trans {h : Frame} (hg : Spent f g) (hh : Spent g h) : Spent f h := by
  cases hg with
  | mk hos hgs =>
    cases hh with
    | mk hos' hgs' => exact .mk (hos'.trans hos) (hgs'.trans hgs)

theorem Spent.take {os : List Operand} (h : os <:+ f.operands) : Spent f (setOperands f os) := .mk h List.suffix_rfl

/-- Whatever fails has only taken from the frame. -/
def Falls (f : Frame) {α : Type} (x : Except Stuck α) : Prop := ∀ s, x = .error s → Spent f s.frame

/-- What `x` does to the frame, whether it succeeds or fails, is to take from it. -/
def Takes (f : Frame) {α : Type} (x : Except Stuck (α × Frame)) : Prop :=
  (∀ a g, x = .ok (a, g) → Spent f g) ∧ Falls f x

theorem Falls.bind {α β : Type} {x : Except Stuck (α × Frame)} {k : α × Frame → Except Stuck β} (hx : Takes f x)
    (hk : ∀ a g, Falls g (k (a, g))) : Falls f (x >>= k) := by
  intro s h
  cases e : x with
  | error s' =>
    rw [e] at h
    cases h
    exact hx.2 s e
  | ok p =>
    rw [e] at h
    exact (hx.1 p.1 p.2 e).trans (hk p.1 p.2 s h)

theorem falls_ok {α : Type} (a : α) : Falls f (.ok a) := by
  intro s h
  cases h

theorem falls_error {α : Type} (e : Fault) (h : Spent f g) : Falls f (.error ⟨e, g⟩ : Except Stuck α) := by
  rintro s ⟨⟩
  exact h

theorem falls_inFrame {α β : Type} (x : Except Fault α) (k : α → β) : Falls f (inFrame f x >>= fun a => pure (k a)) := by
  intro s h
  cases x with
  | ok a => cases h
  | error e =>
    cases h
    exact .refl f

theorem takes_popOperand (f : Frame) : Takes f (popOperand f) := by
  refine ⟨fun o g h => ?_, fun s h => ?_⟩
  · obtain ⟨os, hos, rfl⟩ := popOperand_ok.mp h
    exact .take (hos ▸ List.suffix_cons _ _)
  · unfold popOperand at h
    split at h
    · cases h
    · cases h
      exact .refl f

theorem takes_popOperands (f : Frame) (n : Int) : Takes f (popOperands f n) := by
  refine ⟨fun o g h => ?_, fun s h => ?_⟩
  · obtain ⟨-, os, hos, rfl⟩ := popOperands_ok.mp h
    exact .take (hos ▸ List.suffix_append _ _)
  · unfold popOperands at h
    split at h
    · cases h
    · cases h
      exact .refl f

theorem takes_popValue (m : Machine) (f : Frame) : Takes f (m.popValue f) := by
  refine ⟨fun v g h => ?_, ?_⟩
  · obtain ⟨i, os, hos, rfl⟩ := popValue_ok.mp h
    exact .take (hos ▸ List.suffix_cons _ _)
  · exact Falls.bind (takes_popOperand f) fun o g => falls_inFrame (m.resolved o) (·, g)

theorem takes_popValues (m : Machine) (f : Frame) (n : Int) : Takes f (m.popValues f n) := by
  refine ⟨fun v g h => ?_, ?_⟩
  · obtain ⟨as, os, -, hos, -, rfl⟩ := popValues_ok.mp h
    exact .take (hos ▸ List.suffix_append _ _)
  · exact Falls.bind (takes_popOperands f n) fun os g => falls_inFrame (os.mapM m.resolved) (·, g)

theorem spent_closeGroup (f : Frame) : Spent f f.closeGroup.2 := by
  unfold Frame.closeGroup
  split
  · exact .refl f
  · rename_i g gs h
    exact .mk List.suffix_rfl (h ▸ List.suffix_cons g gs)

theorem falls_construct (id : Int) : Falls f (m.construct f rest id) := by
  unfold construct
  simp only
  split
  · split
    · exact falls_error _ (spent_closeGroup f)
    · exact falls_ok _
  · exact falls_error _ (spent_closeGroup f)
  · exact falls_ok _

theorem falls_store : Falls f (m.store f rest) := by
  refine .bind (takes_popValue m f) fun v g => .bind (takes_popOperand g) fun target g => ?_
  dsimp only
  split
  · exact falls_ok _
  · exact falls_error _ (.refl _)

theorem falls_makeFn : Falls f (m.makeFn f rest n) := by
  refine .bind (takes_popValue m f) fun v g => ?_
  split
  · rename_i p g' e
    cases e
    split
    · exact falls_error _ (.refl _)
    · exact .bind (takes_popOperands _ _) fun os _ => falls_inFrame (os.mapM param) _
  · rename_i v' g' _ e
    cases e
    exact falls_error _ (.refl _)

theorem falls_call : Falls f (m.call f rest n) := by
  refine .bind (takes_popValues m f n) fun args g => .bind (takes_popOperand g) fun callee g => ?_
  dsimp only
  split
  · unfold callClosure
    split
    · exact falls_error _ (.refl _)
    · split
      · exact falls_error _ (.refl _)
      · exact falls_ok _
  · exact falls_ok _
  · exact falls_ok _
  · unfold callBuiltin
    split
    · exact falls_error _ (.refl _)
    · split
      · exact falls_ok _
      · exact falls_error _ (.refl _)
      · exact falls_error _ (.refl _)
  · exact falls_error _ (.refl _)
  · split
    · exact falls_ok _
    · exact falls_error _ (.refl _)
  · exact falls_error _ (.refl _)

theorem falls_loadField {id : Int} : Falls f (m.loadField f rest id) := by
  refine .bind (takes_popValue m f) fun v g => ?_
  split
  · exact falls_ok _
  · rename_i v' g' _ e
    cases e
    exact falls_error _ (.refl _)

theorem falls_arith {a : Arith} : Falls f (m.arith f rest a) :=
  .bind (takes_popValue m f) fun v g => .bind (takes_popValue m g) fun u _ => falls_inFrame (a.apply u v) _

theorem falls_ret : Falls f (m.ret f rest stop) := by
  unfold ret popResult Frame.pop?
  cases hf : f.operands with
  | nil => exact falls_ok _
  | cons o os =>
    intro s h
    cases hr : m.resolved o with
    | ok v => simp [hr, inFrame, Except.mapError, bind, Except.bind, pure, Except.pure] at h
    | error e =>
      simp only [hr, inFrame, Except.mapError, bind, Except.bind, Except.error.injEq] at h
      exact h ▸ .take (hf ▸ List.suffix_cons o os)

/-- An instruction that fails leaves its frame where it is, without some of what was on top. -/
theorem exec_error {s : Stuck} (h : m.exec f rest stop pc i = .error s) : Spent f s.frame := by
  have falls : Falls f (m.exec f rest stop pc i) := by
    unfold exec
    split
    · split
      · exact falls_construct _
      · exact falls_ok _
    · exact falls_store
    · unfold loadConst
      split
      · exact falls_ok _
      · exact falls_error _ (.refl f)
    · exact falls_ok _
    · exact falls_ok _
    · exact .bind (takes_popValue m f) fun _ _ => falls_ok _
    · exact .bind (takes_popValues m f _) fun _ _ => falls_ok _
    · exact falls_makeFn
    · exact falls_call
    · exact falls_arith
    · exact falls_arith
    · exact falls_arith
    · exact falls_arith
    · exact falls_ok _
    · exact falls_loadField
    · exact falls_ret
    · exact falls_error _ (.refl f)
  exact falls s h

/-! ## Leaving a frame -/

theorem frameResult_ok : m.frameResult f = .ok v ↔
    f.result = some v ∨ f.result = none ∧ (f.operands = [] ∧ v = .none ∨ ∃ i os, f.operands = ⟨some v, i⟩ :: os) := by
  unfold frameResult
  cases f.result with
  | some u => simp
  | none =>
    unfold popResult Frame.pop?
    cases f.operands with
    | nil => simp [eq_comm (a := v)]
    | cons o os =>
      obtain ⟨u, i⟩ := o
      cases u <;> simp [resolved, inFrame, Except.mapError, bind, Except.bind, pure, Except.pure]

/-- The frames that are left below a frame are given its result if they are to have it. -/
theorem leave_ok : m.leave f rest = .ok m' ↔
    ∃ fs, (f.returns = false ∧ fs = rest ∨ f.returns = true ∧ ∃ v, m.frameResult f = .ok v ∧ fs = deliver v rest) ∧
      m' = if fs.isEmpty then (m.withFrames fs).terminate else m.withFrames fs := by
  unfold leave
  cases f.returns with
  | false => simp [bind, Except.bind, pure, Except.pure, eq_comm (a := m')]
  | true =>
    cases m.frameResult f with
    | error e => simp [bind, Except.bind, Except.map]
    | ok v => simp [bind, Except.bind, Except.map, pure, Except.pure, eq_comm (a := m')]

/-- A machine that awaits a reply hands it to the frame on top. -/
theorem resume_eq (hw : m.awaiting = true) (v : Option Value) :
    m.resume v = (.ok (), { m with awaiting := false, frames := deliver (v.getD .none) m.frames }) := by
  unfold resume
  rw [hw]
  cases m.frames <;> rfl

theorem resume_refused (hw : m.awaiting = false) (v : Option Value) : m.resume v = (.error .notAwaitingHost, m) := by
  unfold resume
  rw [hw]
  rfl

/-! ## Ticks -/

inductive Turns (s : Signal) (m : Machine) : Tick → Prop
  | aborted : m.aborted = true → Turns s m (.stop m .aborted)
  | signalled : m.aborted = false → s = .abort → Turns s m (.stop m.abort .aborted)
  | cancelled : m.aborted = false → s = .cancel → Turns s m (.stop m .cancelled)
  | idle : m.aborted = false → s = .quiet → m.frames = [] → Turns s m (.pause m.terminate)
  | noBlock {f : Frame} {rest : List Frame} : m.aborted = false → s = .quiet → m.frames = f :: rest →
      m.program.block? f.block = none → Turns s m (.stop m (.noBlock f.block))
  | left {f : Frame} {rest : List Frame} {code : Block} {m' : Machine} : m.aborted = false → s = .quiet →
      m.frames = f :: rest → m.program.block? f.block = some code → code[f.pc]? = none → m.leave f rest = .ok m' →
      Turns s m (.pause m')
  | lost {f : Frame} {rest : List Frame} {code : Block} {e : Fault} : m.aborted = false → s = .quiet →
      m.frames = f :: rest → m.program.block? f.block = some code → code[f.pc]? = none → m.leave f rest = .error e →
      Turns s m (.stop (m.withFrames rest) (.fault f.block code.length ⟨.ret, 0⟩ e))
  | went {f : Frame} {rest : List Frame} {code : Block} {i : Instr} {m' : Machine} : m.aborted = false → s = .quiet →
      m.frames = f :: rest → m.program.block? f.block = some code → code[f.pc]? = some i →
      m.exec { f with pc := f.pc + 1 } rest code.length f.pc i = .ok m' → m'.awaiting = false → Turns s m (.go m')
  | asked {f : Frame} {rest : List Frame} {code : Block} {i : Instr} {m' : Machine} : m.aborted = false → s = .quiet →
      m.frames = f :: rest → m.program.block? f.block = some code → code[f.pc]? = some i →
      m.exec { f with pc := f.pc + 1 } rest code.length f.pc i = .ok m' → m'.awaiting = true → Turns s m (.pause m')
  | failed {f : Frame} {rest : List Frame} {code : Block} {i : Instr} {e : Stuck} : m.aborted = false → s = .quiet →
      m.frames = f :: rest → m.program.block? f.block = some code → code[f.pc]? = some i →
      m.exec { f with pc := f.pc + 1 } rest code.length f.pc i = .error e →
      Turns s m (.stop (m.withFrames (e.frame :: rest)) (.fault f.block f.pc i e.fault))

theorem tick_turns (s : Signal) (m : Machine) : Turns s m (m.tick s) := by
  unfold tick
  split
  · rename_i ha
    exact .aborted ha
  rename_i ha
  have ha : m.aborted = false := by simpa using ha
  split
  · exact .signalled ha rfl
  · exact .cancelled ha rfl
  split
  · rename_i hf
    exact .idle ha rfl hf
  rename_i f rest hf
  split
  · rename_i hb
    exact .noBlock ha rfl hf hb
  rename_i code hb
  split
  · rename_i hi
    split
    · rename_i m' hl
      exact .left ha rfl hf hb hi hl
    · rename_i e hl
      exact .lost ha rfl hf hb hi hl
  · rename_i i hi
    split
    · rename_i m' he
      split
      · rename_i hw
        exact .asked ha rfl hf hb hi he hw
      · rename_i hw
        exact .went ha rfl hf hb hi he (by simpa using hw)
    · rename_i e he
      exact .failed ha rfl hf hb hi he

theorem turns_of_tick {s : Signal} {t : Tick} (ht : m.tick s = t) : Turns s m t := ht ▸ tick_turns s m

end

end Machine

end Scriptlet

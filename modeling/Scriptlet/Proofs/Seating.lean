/-
  Scriptlet.Proofs.Seating — instructions in a frame that sits somewhere else.

  An instruction looks at its frame, not at the place where the frame is. Here the frame is moved: to another
  block, further back in the code, on top of operands that others have left, and above other frames. The unit
  and the queue of the machine may differ, too. The instruction does the same there (`exec_seated`), as long as
  it finds operands enough of its own.
-/

import Scriptlet.Proofs.Balance
import Scriptlet.Proofs.Relabeling

namespace Scriptlet

structure Seat where
  name : Text → Text := id
  unit : Text
  block : Int → Int := id
  /-- How far back its code stands. -/
  shift : Nat := 0
  below : List Operand := []

def Frame.seated (s : Seat) (f : Frame) : Frame :=
  { f with
    name := s.name f.name, unit := s.unit, block := s.block f.block, pc := f.pc + s.shift
    operands := f.operands ++ s.below }

/-- A machine with other frames and units, and with actions in front of its queue. -/
def Machine.under (pend : List Action) (fs : List Frame) (us : List CodeUnit) (m : Machine) : Machine :=
  { m with queue := pend ++ m.queue, frames := fs, units := us }

namespace Machine.Stuck

/-- Both fail alike, the second one in its seat, or their results are related. -/
def Agree {α β : Type} (s : Seat) (R : α → β → Prop) : Except Stuck α → Except Stuck β → Prop
  | .ok a, .ok b => R a b
  | .error e, .error e' => e' = ⟨e.fault, e.frame.seated s⟩
  | _, _ => False

theorem agree_bind {α β α' β' : Type} {s : Seat} {R : α → β → Prop} {S : α' → β' → Prop} {x : Except Stuck α}
    {y : Except Stuck β} {k : α → Except Stuck α'} {l : β → Except Stuck β'} (hx : Agree s R x y)
    (hk : ∀ a b, R a b → Agree s S (k a) (l b)) : Agree s S (x >>= k) (y >>= l) := by
  cases x with
  | error e =>
    cases y with
    | error e' => exact hx
    | ok b => exact hx.elim
  | ok a =>
    cases y with
    | error e' => exact hx.elim
    | ok b => exact hk a b hx

end Machine.Stuck

namespace Seat

/-- The frame has so many operands of its own, or there are no others. -/
def Enough (s : Seat) (n : Nat) (f : Frame) : Prop := s.below = [] ∨ n ≤ f.operands.length

inductive Seats (s : Seat) (pend : List Action) (rest rest' : List Frame) (m c : Machine) : Prop
  | stay (f : Frame) (us : List CodeUnit) : m.frames = f :: rest → c = m.under pend (f.seated s :: rest') us →
      Seats s pend rest rest' m c
  | enter (callee f : Frame) (us : List CodeUnit) : m.frames = callee :: f :: rest →
      c = m.under pend ({ callee with unit := s.unit } :: f.seated s :: rest') us → Seats s pend rest rest' m c

def Took {α : Type} (s : Seat) (n : Nat) (x y : α × Frame) : Prop := y = (x.1, x.2.seated s) ∧ s.Enough n x.2

end Seat

namespace Machine

open Stuck (Agree agree_bind)

variable {pend : List Action} {us : List CodeUnit}

section

variable {s : Seat} {m : Machine} {f : Frame} {rest rest' fs : List Frame} {n : Nat} {k : Int}

/-! ## Operands -/

theorem popOperand_seated (h : s.Enough (n + 1) f) : Agree s (s.Took n) (popOperand f) (popOperand (f.seated s)) := by
  unfold popOperand Frame.pop?
  cases ho : f.operands with
  | nil =>
    have hnone : s.below = [] := h.resolve_right (by simp [ho])
    simp [Frame.seated, ho, hnone, Agree]
  | cons o os =>
    have hleft : s.Enough n (setOperands f os) := h.imp_right fun hn => by simpa [ho] using hn
    simp only [Frame.seated, ho, List.cons_append]
    exact ⟨rfl, hleft⟩

theorem popOperands_seated (h : s.Enough (k.toNat + n) f) :
    Agree s (s.Took n) (popOperands f k) (popOperands (f.seated s) k) := by
  unfold popOperands Frame.popN?
  have hlen : (f.seated s).operands.length = f.operands.length + s.below.length := List.length_append
  by_cases hk : k < 0 || f.operands.length < k
  · have hk' : (k < 0 || (f.seated s).operands.length < k) = true := by
      simp only [Bool.or_eq_true, decide_eq_true_eq] at hk ⊢
      rcases h with hb | hn
      · simp only [hlen, hb, List.length_nil]
        omega
      · omega
    rw [if_pos hk, if_pos hk']
    rfl
  · have hk' : ¬ (k < 0 || (f.seated s).operands.length < k) = true := by
      simp only [Bool.or_eq_true, decide_eq_true_eq] at hk ⊢
      omega
    rw [if_neg hk, if_neg hk']
    simp only [Bool.or_eq_true, decide_eq_true_eq] at hk
    have hle : k.toNat ≤ f.operands.length := by omega
    refine ⟨?_, h.imp_right fun hn => ?_⟩
    · simp [Frame.seated, List.take_append_of_le_length hle, List.drop_append_of_le_length hle]
    · simp only [List.length_drop]
      omega

theorem popValue_seated (h : s.Enough (n + 1) f) :
    Agree s (s.Took n) (m.popValue f) ((m.under pend fs us).popValue (f.seated s)) := by
  refine agree_bind (popOperand_seated h) fun x y hxy => ?_
  obtain ⟨rfl, hn⟩ := hxy
  change Agree _ _ (inFrame x.2 (m.resolved x.1) >>= _) (inFrame (x.2.seated s) (m.resolved x.1) >>= _)
  cases m.resolved x.1 with
  | error e => rfl
  | ok v => exact ⟨rfl, hn⟩

theorem popValues_seated (h : s.Enough (k.toNat + n) f) :
    Agree s (s.Took n) (m.popValues f k) ((m.under pend fs us).popValues (f.seated s) k) := by
  refine agree_bind (popOperands_seated h) fun x y hxy => ?_
  obtain ⟨rfl, hn⟩ := hxy
  change Agree _ _ (inFrame x.2 (x.1.mapM m.resolved) >>= _) (inFrame (x.2.seated s) (x.1.mapM m.resolved) >>= _)
  cases x.1.mapM m.resolved with
  | error e => rfl
  | ok v => exact ⟨rfl, hn⟩

theorem popResult_seated (h : s.Enough 1 f) :
    Agree s (s.Took 0) (m.popResult f) ((m.under pend fs us).popResult (f.seated s)) := by
  unfold popResult Frame.pop?
  cases ho : f.operands with
  | nil =>
    have hnone : s.below = [] := h.resolve_right (by simp [ho])
    simp [Frame.seated, ho, hnone, Agree, Seat.Took, Seat.Enough]
  | cons o os =>
    simp only [Frame.seated, ho, List.cons_append]
    change Agree _ _ (inFrame _ (m.resolved o) >>= _) (inFrame _ (m.resolved o) >>= _)
    cases m.resolved o with
    | error e => rfl
    | ok v => exact ⟨rfl, .inr (Nat.zero_le _)⟩

/-! ## Instructions -/

theorem closeGroup_seated : (f.seated s).closeGroup = (f.closeGroup.1, f.closeGroup.2.seated s) := by
  unfold Frame.closeGroup
  cases hg : f.groups <;> simp [Frame.seated, hg]

theorem addField_seated (fd : Field) : (f.addField fd).seated s = (f.seated s).addField fd := by
  unfold Frame.addField
  cases hg : f.groups <;> simp [Frame.seated, hg]

theorem newObject_seated (id : Int) (fields : List Field) :
    s.Seats pend rest rest' (m.newObject f rest id fields) ((m.under pend fs us).newObject (f.seated s) rest' id fields) := by
  refine .stay _ ((under pend fs us m).newObject (f.seated s) rest' id fields).units rfl ?_
  simp only [newObject, under, List.append_assoc]
  rfl

theorem construct_seated (id : Int) :
    Agree s (s.Seats pend rest rest') (m.construct f rest id) ((m.under pend fs us).construct (f.seated s) rest' id) := by
  unfold construct
  rw [closeGroup_seated, show (m.under pend fs us).scopes.value? (f.seated s).scope id = m.scopes.value? f.scope id from rfl]
  dsimp only
  cases m.scopes.value? f.scope id with
  | none => exact newObject_seated id _
  | some v =>
    cases v with
    | structType t =>
      dsimp only
      cases f.closeGroup.1.find? fun fd => !t.hasField fd.id with
      | none => exact newObject_seated id _
      | some fd => rfl
    | _ => rfl

theorem store_seated (h : s.Enough 2 f) :
    Agree s (s.Seats pend rest rest') (m.store f rest) ((m.under pend fs us).store (f.seated s) rest') := by
  refine agree_bind (popValue_seated h) fun ⟨v, g⟩ _ ⟨hy, hg⟩ => ?_
  subst hy
  refine agree_bind (popOperand_seated hg) fun ⟨target, k⟩ _ ⟨hy, _⟩ => ?_
  subst hy
  cases ht : target.ident with
  | none => simp [ht, Agree, throw, throwThe, MonadExceptOf.throw]
  | some id =>
    simp only [ht]
    exact .stay k us rfl rfl

theorem loadConst_seated (id : Int) :
    Agree s (s.Seats pend rest rest') (m.loadConst f rest id) ((m.under pend fs us).loadConst (f.seated s) rest' id) := by
  unfold loadConst
  rw [show (m.under pend fs us).program = m.program from rfl]
  cases m.program.const? id with
  | none => rfl
  | some v => exact .stay (f.pushValue v.copy) us rfl rfl

theorem storeField_seated (h : s.Enough 1 f) (id : Int) :
    Agree s (s.Seats pend rest rest') (m.storeField f rest id)
      ((m.under pend fs us).storeField (f.seated s) rest' id) := by
  refine agree_bind (popValue_seated h) fun ⟨v, g⟩ _ ⟨hy, _⟩ => ?_
  subst hy
  refine .stay (g.addField ⟨id, m.name id, some v⟩) us rfl ?_
  rw [addField_seated]
  rfl

theorem makeArray_seated (h : s.Enough k.toNat f) :
    Agree s (s.Seats pend rest rest') (m.makeArray f rest k) ((m.under pend fs us).makeArray (f.seated s) rest' k) := by
  refine agree_bind (popValues_seated (n := 0) h) fun ⟨vs, g⟩ _ ⟨hy, _⟩ => ?_
  subst hy
  exact .stay (g.pushValue (.array (vs.map some))) us rfl rfl

theorem makeFn_seated (h : s.Enough (k.toNat + 1) f) :
    Agree s (s.Seats pend rest rest') (m.makeFn f rest k) ((m.under pend fs us).makeFn (f.seated s) rest' k) := by
  refine agree_bind (popValue_seated h) fun ⟨v, g⟩ _ ⟨hy, hg⟩ => ?_
  subst hy
  cases v with
  | proto p =>
    dsimp only
    by_cases hp : p.params = k
    · simp only [hp, ne_eq, not_true, if_false]
      refine agree_bind (popOperands_seated (n := 0) hg) fun ⟨os, g'⟩ _ ⟨hy, _⟩ => ?_
      subst hy
      dsimp only
      cases os.mapM param with
      | error e => rfl
      | ok ids => exact .stay (g'.pushValue (.closure ⟨.inner m.fresh, p, ids, m.scopes.chain g'.scope⟩)) us rfl rfl
    · simp only [ne_eq, hp, not_false_iff, if_true]
      rfl
  | _ => rfl

theorem await_seated (a : Action) : s.Seats pend rest rest' (m.await f rest a) ((m.under pend fs us).await (f.seated s) rest' a) := by
  refine .stay f us rfl ?_
  simp only [await, under, List.append_assoc]

theorem callClosure_seated (hl : rest'.length = rest.length) (c : Closure) (ident : Option Int) (args : List Value) :
    Agree s (s.Seats pend rest rest') (m.callClosure f rest c ident args)
      ((m.under pend fs us).callClosure (f.seated s) rest' c ident args) := by
  unfold callClosure
  rw [hl, show (m.under pend fs us).limit = m.limit from rfl]
  by_cases ha : args.length = c.params.length
  · by_cases hm : m.limit ≤ rest.length + 1
    · simp only [ha, hm, ne_eq, not_true, if_false, if_true]
      rfl
    · simp only [ha, hm, ne_eq, not_true, if_false]
      exact .enter _ f us rfl rfl
  · simp only [ne_eq, ha, not_false_iff, if_true]
    rfl

theorem callBuiltin_seated (name : Text) (args : List Value) :
    Agree s (s.Seats pend rest rest') (m.callBuiltin f rest name args)
      ((m.under pend fs us).callBuiltin (f.seated s) rest' name args) := by
  unfold callBuiltin
  by_cases hn : name = importName
  · simp only [hn, ne_eq, not_true, if_false]
    cases args with
    | nil => rfl
    | cons v vs =>
      cases vs with
      | nil =>
        cases v with
        | str path => exact await_seated (.importModule path)
        | _ => rfl
      | cons w ws => cases v <;> rfl
  · simp only [ne_eq, hn, not_false_iff, if_true]
    rfl

theorem call_seated (hl : rest'.length = rest.length) (h : s.Enough (k.toNat + 1) f) :
    Agree s (s.Seats pend rest rest') (m.call f rest k) ((m.under pend fs us).call (f.seated s) rest' k) := by
  refine agree_bind (popValues_seated h) fun ⟨args, g⟩ _ ⟨hy, hg⟩ => ?_
  subst hy
  refine agree_bind (popOperand_seated hg) fun ⟨⟨v, ident⟩, g'⟩ _ ⟨hy, _⟩ => ?_
  subst hy
  cases v with
  | none =>
    cases ident with
    | none => rfl
    | some id =>
      rw [show (m.under pend fs us).fallback = m.fallback from rfl]
      cases m.fallback with
      | true => exact await_seated (.call id (m.name id) args)
      | false => rfl
  | some v =>
    cases v with
    | closure c => exact callClosure_seated hl c ident args
    | host symbol name receiver =>
      cases receiver with
      | none => exact await_seated (.call symbol name args)
      | some o => exact await_seated (.call symbol name (.object o :: args))
    | builtin name => exact callBuiltin_seated name args
    | _ => rfl

theorem loadField_seated (h : s.Enough 1 f) (id : Int) :
    Agree s (s.Seats pend rest rest') (m.loadField f rest id) ((m.under pend fs us).loadField (f.seated s) rest' id) := by
  refine agree_bind (popValue_seated h) fun ⟨v, g⟩ _ ⟨hy, _⟩ => ?_
  subst hy
  cases v with
  | object o =>
    refine .stay (g.push _) us rfl ?_
    simp only [put, under, withFrames, List.append_assoc]
    rfl
  | _ => rfl

theorem arith_seated (h : s.Enough 2 f) (a : Arith) :
    Agree s (s.Seats pend rest rest') (m.arith f rest a) ((m.under pend fs us).arith (f.seated s) rest' a) := by
  refine agree_bind (popValue_seated h) fun ⟨v, g⟩ _ ⟨hy, hg⟩ => ?_
  subst hy
  refine agree_bind (popValue_seated hg) fun ⟨u, g'⟩ _ ⟨hy, _⟩ => ?_
  subst hy
  dsimp only
  cases a.apply u v with
  | error e => rfl
  | ok w => exact .stay (g'.pushValue w) us rfl rfl

theorem ret_seated (h : s.Enough 1 f) (stop : Nat) :
    Agree s (s.Seats pend rest rest') (m.ret f rest stop)
      ((m.under pend fs us).ret (f.seated s) rest' (stop + s.shift)) := by
  refine agree_bind (popResult_seated h) fun ⟨v, g⟩ _ ⟨hy, _⟩ => ?_
  subst hy
  exact .stay { g with result := some v, pc := stop } us rfl rfl

end

/-- A renamed instruction does the same in its seat, in a machine that has its constant and knows whether it
    completes a struct instance. -/
theorem exec_seated {ρ : Renaming} {q : Program} {s : Seat} {m : Machine} {f : Frame} {rest rest' fs : List Frame}
    {stop pc pc' : Nat} {i : Instr} (h : m.program.Relabels ρ q)
    (hconst : i.op = .loadConst → q.const? i.arg = (m.program.const? i.arg).map (Value.rename ρ))
    (hsite : q.isConstructor (s.block (ρ.block f.block)) pc' = m.program.isConstructor f.block pc)
    (hlen : rest'.length = rest.length)
    (henough : s.Enough (if i.op = .ret then 1 else i.takes) f) :
    Agree s (s.Seats pend (rest.map (Frame.rename ρ)) rest')
      (Stuck.carry ρ (Machine.rename ρ q) (m.exec f rest stop pc i))
      (((m.rename ρ q).under pend fs us).exec ((f.rename ρ).seated s) rest' (stop + s.shift) pc' (i.rename ρ)) := by
  have henough' : s.Enough (if i.op = .ret then 1 else i.takes) (f.rename ρ) := by
    rcases henough with hb | hn
    · exact .inl hb
    · exact .inr (by simpa [Frame.rename] using hn)
  have hlen' : rest'.length = (rest.map (Frame.rename ρ)).length := by rw [List.length_map, hlen]
  obtain ⟨op, arg⟩ := i
  cases op with
  | loadIdent =>
    have hsite' : ((m.rename ρ q).under pend fs us).program.isConstructor ((f.rename ρ).seated s).block pc'
        = m.program.isConstructor f.block pc := hsite
    simp only [exec, Instr.rename, Op.namesIdent, if_true, hsite']
    cases m.program.isConstructor f.block pc with
    | true =>
      simp only [if_true, ← construct_rename h]
      exact construct_seated _
    | false =>
      simp only [Bool.false_eq_true, if_false, Stuck.carry, carried, ← loadIdent_rename h]
      exact .stay _ us rfl rfl
  | store => exact store_rename h ▸ store_seated henough'
  | loadConst => exact loadConst_rename (hconst rfl) ▸ loadConst_seated arg
  | createStruct =>
    change s.Seats _ _ _ ((m.createStruct f rest arg).rename ρ q) _
    rw [← createStruct_rename h]
    exact .stay (f.rename ρ) us rfl rfl
  | addField =>
    refine .stay (f.rename ρ) us rfl ?_
    simp [Instr.rename, Op.namesIdent, Machine.rename, under]
  | storeField => exact storeField_rename h arg ▸ storeField_seated henough' _
  | makeArray => exact makeArray_rename h arg ▸ makeArray_seated henough'
  | makeFn => exact makeFn_rename h arg ▸ makeFn_seated henough'
  | call => exact call_rename h arg ▸ call_seated hlen' henough'
  | add => exact arith_rename h .add ▸ arith_seated henough' .add
  | sub => exact arith_rename h .sub ▸ arith_seated henough' .sub
  | mul => exact arith_rename h .mul ▸ arith_seated henough' .mul
  | div => exact arith_rename h .div ▸ arith_seated henough' .div
  | beginStruct => exact .stay (f.openGroup.rename ρ) us rfl rfl
  | loadField => exact loadField_rename h arg ▸ loadField_seated henough' _
  | ret => exact ret_rename h stop ▸ ret_seated henough' stop
  | unknown code _ => rfl

end Machine

end Scriptlet

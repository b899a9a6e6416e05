/-
  Scriptlet.Proofs.Relabeling — machines that differ in nothing but numbers and the names of units.

  A renaming is carried through frames, units, faults and whole machines, whose code is replaced by that
  of a program with the same names, constants and blocks under the new numbers (`Program.Renamed`).
  What a renamed machine does is what the machine does, renamed: instruction by instruction
  (`exec_rename`), tick by tick (`tick_rename`) and step by step (`step_rename`).
-/

import Scriptlet.Machine.Work
import Scriptlet.Proofs.Renaming

namespace Scriptlet

open List (map map_cons length_map map_map)
open Except (error ok)

section

variable (ρ : Renaming)

def Op.namesIdent : Op → Bool
  | .loadIdent | .createStruct | .addField | .storeField | .loadField => true
  | _ => false

def Instr.rename (i : Instr) : Instr := if i.op.namesIdent then { i with arg := ρ.ident i.arg } else i

def Operand.rename (o : Operand) : Operand := ⟨o.value.map (Value.rename ρ), o.ident.map ρ.ident⟩

/-- The frame of a unit is named like the unit; that of a function keeps its name. -/
def Frame.rename (f : Frame) : Frame :=
  { f with
    name := if f.returns then f.name else ρ.unit f.name
    unit := ρ.unit f.unit
    block := ρ.block f.block
    operands := f.operands.map (Operand.rename ρ)
    result := f.result.map (Value.rename ρ)
    groups := f.groups.map fun g => g.map (Value.renameField ρ) }

def Registry.rename (r : Registry) : Registry :=
  { r with objects := r.objects.map (Value.renameObject ρ), types := r.types.map (StructType.rename ρ) }

def CodeUnit.rename (u : CodeUnit) : CodeUnit := { u with name := ρ.unit u.name, block := ρ.block u.block }

def Fault.rename : Fault → Fault
  | .notCallable v => .notCallable (v.rename ρ)
  | .notAssignable v => .notAssignable (v.map (Value.rename ρ))
  | f => f

def Halt.rename : Halt → Halt
  | .fault block pc i f => .fault (ρ.block block) pc (i.rename ρ) (f.rename ρ)
  | .noBlock id => .noBlock (ρ.block id)
  | .aborted => .aborted
  | .cancelled => .cancelled

def MachineError.rename : MachineError → MachineError
  | .halted h => .halted (h.rename ρ)
  | .failed h => .failed (h.rename ρ)
  | e => e

def Machine.rename (q : Program) (m : Machine) : Machine :=
  { m with
    program := q
    scopes := m.scopes.rename ρ
    registry := m.registry.rename ρ
    frames := m.frames.map (Frame.rename ρ)
    queue := m.queue.map (Action.rename ρ)
    units := m.units.map (CodeUnit.rename ρ)
    declared := m.declared.map ρ.ident
    halted := m.halted.map (Halt.rename ρ) }

structure Program.Relabels (p q : Program) : Prop where
  faithful : ρ.Faithful
  units : Function.Injective ρ.unit
  noIdent : ρ.ident Operand.noIdent = Operand.noIdent
  name : ∀ id, q.name (ρ.ident id) = p.name id

structure Program.Renamed (p q : Program) : Prop extends Program.Relabels ρ p q where
  const : ∀ id, q.const? id = (p.const? id).map (Value.rename ρ)
  block : ∀ b, q.block? (ρ.block b) = (p.block? b).map fun c => c.map (Instr.rename ρ)
  site : ∀ b pc, q.isConstructor (ρ.block b) pc = p.isConstructor b pc
  longest : q.longest = p.longest

def Machine.Stuck.rename (s : Machine.Stuck) : Machine.Stuck := ⟨s.fault.rename ρ, s.frame.rename ρ⟩

def carried {ε α β : Type} (r : ε → ε) (g : α → β) : Except ε α → Except ε β
  | .ok a => .ok (g a)
  | .error e => .error (r e)

abbrev Fault.carry {α β : Type} (g : α → β) : Except Fault α → Except Fault β := carried (Fault.rename ρ) g

abbrev Machine.Stuck.carry {α β : Type} (g : α → β) : Except Machine.Stuck α → Except Machine.Stuck β :=
  carried (Machine.Stuck.rename ρ) g

end

variable {ρ : Renaming}

section

variable {ε α β α' β' : Type} {r : ε → ε}

theorem carry_bind {g : α → α'} {g' : β → β'} {x : Except ε α} {k : α → Except ε β} {x' : Except ε α'}
    {k' : α' → Except ε β'} (hx : x' = carried r g x) (hk : ∀ a, k' (g a) = carried r g' (k a)) :
    x' >>= k' = carried r g' (x >>= k) := by
  subst hx
  cases x with
  | error e => rfl
  | ok a => exact hk a

theorem carry_mapM {g : β → β'} {k : α → Except ε β} {k' : α' → Except ε β'} {f : α → α'}
    (hk : ∀ a, k' (f a) = carried r g (k a)) (as : List α) : (as.map f).mapM k' = carried r (map g) (as.mapM k) := by
  induction as with
  | nil => rfl
  | cons a as ih =>
    rw [map_cons, List.mapM_cons, List.mapM_cons]
    exact carry_bind (hk a) fun b => carry_bind ih fun bs => rfl

end

/-- Faults of arithmetic mention kinds of values only. -/
theorem Arith.fault_rename {a : Arith} {u v : Value} {e : Fault} (h : a.apply u v = .error e) : e.rename ρ = e := by
  unfold apply at h
  split at h
  · split at h <;> cases h
    rfl
  · cases a with
    | div =>
      simp only [onInts] at h
      split at h <;> cases h
      rfl
    | _ => cases h
  all_goals cases h
  rfl

namespace Machine

open Stuck (carry)

section

variable {q : Program} {m : Machine} {f : Frame} {rest : List Frame}

/-! ## Operands -/

theorem inFrame_rename {α α' : Type} {g : α → α'} {x : Except Fault α} {x' : Except Fault α'}
    (h : x' = Fault.carry ρ g x) : inFrame (f.rename ρ) x' = carry ρ g (inFrame f x) := by
  subst h
  cases x <;> rfl

def took {α : Type} (ρ : Renaming) (g : α → α) (p : α × Frame) : α × Frame := (g p.1, p.2.rename ρ)

theorem popOperand_rename : popOperand (f.rename ρ) = carry ρ (took ρ (Operand.rename ρ)) (popOperand f) := by
  unfold popOperand Frame.pop?
  cases hf : f.operands with
  | nil => simp [Frame.rename, hf, carried, Stuck.rename, Fault.rename]
  | cons o os => simp [Frame.rename, hf, carried, took]

theorem popOperands_rename (n : Int) :
    popOperands (f.rename ρ) n = carry ρ (took ρ (map (Operand.rename ρ))) (popOperands f n) := by
  unfold popOperands Frame.popN?
  have hlen : (f.rename ρ).operands.length = f.operands.length := length_map _
  rw [hlen]
  by_cases hn : n < 0 || f.operands.length < n
  · simp only [if_pos hn, carried, Stuck.rename, Fault.rename]
  · simp only [if_neg hn, carried, took, Frame.rename, List.map_reverse, List.map_take, List.map_drop]

/-! ## Frames and tables -/

theorem pushValue_rename (v : Value) : (f.pushValue v).rename ρ = (f.rename ρ).pushValue (v.rename ρ) := rfl

theorem closeGroup_rename :
    (f.rename ρ).closeGroup = ((f.closeGroup.1).map (Value.renameField ρ), f.closeGroup.2.rename ρ) := by
  unfold Frame.closeGroup
  cases hg : f.groups <;> simp [Frame.rename, hg]

theorem addField_rename (fd : Field) : (f.addField fd).rename ρ = (f.rename ρ).addField (Value.renameField ρ fd) := by
  unfold Frame.addField
  cases hg : f.groups <;> simp [Frame.rename, hg]

theorem define_rename (h : ρ.Faithful) (r : Registry) (t : StructType) :
    (r.define t).rename ρ = (r.rename ρ).define (t.rename ρ) := by
  unfold Registry.define Registry.rename
  congr 1
  induction r.types with
  | nil => rfl
  | cons u us ih =>
    simp only [Registry.putIn, map_cons]
    have hid : (u.rename ρ).id = (t.rename ρ).id ↔ u.id = t.id := h.eq_iff
    by_cases e : u.id = t.id
    · rw [if_pos e, if_pos (hid.mpr e), map_cons]
    · rw [if_neg e, if_neg (hid.not.mpr e), map_cons, ih]

/-- The unit for which the frame runs gets the new object, under its new name, too. -/
theorem units_rename (h : Function.Injective ρ.unit) (us : List CodeUnit) (unit : Text) (o : Int) :
    ((us.map (CodeUnit.rename ρ)).map fun u =>
        if u.name = ρ.unit unit then { u with objects := u.objects ++ [o] } else u)
      = (us.map fun u => if u.name = unit then { u with objects := u.objects ++ [o] } else u).map
          (CodeUnit.rename ρ) := by
  rw [map_map, map_map]
  refine List.map_congr_left fun u _ => ?_
  have hu : (u.rename ρ).name = ρ.unit unit ↔ u.name = unit := h.eq_iff
  by_cases e : u.name = unit
  · simp only [Function.comp_apply, if_pos e, if_pos (hu.mpr e)]
    rfl
  · simp only [Function.comp_apply, if_neg e, if_neg (hu.not.mpr e)]

theorem loadConst_rename {id : Int} (h : q.const? id = (m.program.const? id).map (Value.rename ρ)) :
    (m.rename ρ q).loadConst (f.rename ρ) (rest.map (Frame.rename ρ)) id
      = carry ρ (Machine.rename ρ q) (m.loadConst f rest id) := by
  unfold loadConst
  rw [show (m.rename ρ q).program.const? id = _ from h]
  cases m.program.const? id with
  | none => rfl
  | some v =>
    simp only [Option.map_some, Value.copy_eq]
    rfl

theorem param_rename (o : Operand) : param (o.rename ρ) = Fault.carry ρ ρ.ident (param o) := by
  obtain ⟨v, i⟩ := o
  cases i <;> rfl

theorem await_rename (a : Action) :
    (m.rename ρ q).await (f.rename ρ) (rest.map (Frame.rename ρ)) (a.rename ρ) = (m.await f rest a).rename ρ q := by
  simp [await, Machine.rename]

theorem callBuiltin_rename (name : Text) (args : List Value) :
    (m.rename ρ q).callBuiltin (f.rename ρ) (rest.map (Frame.rename ρ)) name (args.map (Value.rename ρ))
      = carry ρ (Machine.rename ρ q) (m.callBuiltin f rest name args) := by
  unfold callBuiltin
  by_cases hn : name = importName
  · simp only [hn, ne_eq, not_true, if_false]
    cases args with
    | nil => rfl
    | cons v vs =>
      cases vs with
      | nil =>
        cases v with
        | str path => exact congrArg ok (await_rename (.importModule path))
        | _ => rfl
      | cons w ws =>
        have hl : ((v :: w :: ws).map (Value.rename ρ)).length = (v :: w :: ws).length := length_map _
        cases v <;> exact congrArg (fun n => error (Stuck.mk (.importCount n) (f.rename ρ))) hl
  · simp only [ne_eq, hn, not_false_iff, if_true]
    rfl

/-! ## Instructions -/

section

variable (h : m.program.Relabels ρ q)

include h

theorem name_rename (id : Int) : (m.rename ρ q).name (ρ.ident id) = m.name id := h.name id

theorem resolved_rename (o : Operand) :
    (m.rename ρ q).resolved (o.rename ρ) = Fault.carry ρ (Value.rename ρ) (m.resolved o) := by
  obtain ⟨v, i⟩ := o
  cases v with
  | some v => rfl
  | none =>
    cases i with
    | none => rfl
    | some id => exact congrArg (fun name => error (Fault.unbound name)) (h.name id)

theorem popValue_rename : (m.rename ρ q).popValue (f.rename ρ) = carry ρ (took ρ (Value.rename ρ)) (m.popValue f) :=
  carry_bind popOperand_rename fun p =>
    carry_bind (inFrame_rename (resolved_rename h p.1)) fun _ => rfl

theorem popValues_rename (n : Int) :
    (m.rename ρ q).popValues (f.rename ρ) n = carry ρ (took ρ (map (Value.rename ρ))) (m.popValues f n) :=
  carry_bind (popOperands_rename n) fun p =>
    carry_bind (inFrame_rename (carry_mapM (resolved_rename h) p.1)) fun _ => rfl

theorem popResult_rename :
    (m.rename ρ q).popResult (f.rename ρ) = carry ρ (took ρ (Value.rename ρ)) (m.popResult f) := by
  unfold popResult Frame.pop?
  cases hf : f.operands with
  | nil => simp [Frame.rename, hf, carried, took, Value.rename]
  | cons o os =>
    simp only [Frame.rename, hf, map_cons]
    exact carry_bind (inFrame_rename (f := { f with operands := os }) (resolved_rename h o)) fun _ => rfl

theorem loadIdent_rename (id : Int) :
    (m.rename ρ q).loadIdent (f.rename ρ) (rest.map (Frame.rename ρ)) (ρ.ident id)
      = (m.loadIdent f rest id).rename ρ q := by
  have hid : ρ.ident id = Operand.noIdent ↔ id = Operand.noIdent := by
    conv_lhs => rw [← h.noIdent]
    exact h.faithful.eq_iff
  have hop : Operand.loaded ((m.scopes.value? f.scope id).map (Value.rename ρ)) (ρ.ident id)
      = (Operand.loaded (m.scopes.value? f.scope id) id).rename ρ := by
    unfold Operand.loaded Operand.rename
    by_cases e : id = Operand.noIdent
    · simp [e, h.noIdent]
    · simp [e, hid]
  unfold loadIdent
  rw [show (m.rename ρ q).scopes.value? (f.rename ρ).scope (ρ.ident id) = _ from
    Scopes.value?_rename h.faithful m.scopes f.scope id, hop]
  rfl

theorem newObject_rename (id : Int) (fields : List Field) :
    (m.rename ρ q).newObject (f.rename ρ) (rest.map (Frame.rename ρ)) (ρ.ident id)
        (fields.map (Value.renameField ρ))
      = (m.newObject f rest id fields).rename ρ q := by
  have hreg : (m.rename ρ q).registry.newObject (.inner m.fresh) (ρ.ident id) (m.name id)
        (fields.map (Value.renameField ρ))
      = (Value.renameObject ρ (m.registry.newObject (.inner m.fresh) id (m.name id) fields).1,
          (m.registry.newObject (.inner m.fresh) id (m.name id) fields).2.rename ρ) := by
    have ho := Registry.newObject_rename (r := m.registry) (s := m.registry.rename ρ) h.faithful rfl
      (.inner m.fresh) id (m.name id) fields
    refine Prod.ext ho ?_
    simp only [Registry.newObject] at ho ⊢
    simp only [Registry.rename, Machine.rename, List.map_append, map_cons, List.map_nil]
    exact congrArg (fun o => Registry.mk (m.registry.last + 1) (m.registry.objects.map _ ++ [o]) _) ho
  unfold newObject
  rw [name_rename h, show (m.rename ρ q).fresh = m.fresh from rfl, hreg]
  generalize m.registry.newObject (.inner m.fresh) id (m.name id) fields = made
  obtain ⟨o, r⟩ := made
  have hstores : (fields.map (Value.renameField ρ)).map (fun fd => Action.storeField o.id fd.name fd.value)
      = (fields.map fun fd => Action.storeField o.id fd.name fd.value).map (Action.rename ρ) := by
    rw [map_map, map_map]
    rfl
  have hunits := units_rename h.units m.units f.unit o.id
  have htype : (Value.renameObject ρ o).typeName = o.typeName := by cases o; rfl
  simp only [Machine.rename, Frame.rename] at hunits ⊢
  simp only [Value.renameObject_id, htype, hstores, hunits, List.map_append, map_cons]
  rfl

theorem construct_rename (id : Int) :
    (m.rename ρ q).construct (f.rename ρ) (rest.map (Frame.rename ρ)) (ρ.ident id)
      = carry ρ (Machine.rename ρ q) (m.construct f rest id) := by
  have hvalue : (m.rename ρ q).scopes.value? (f.rename ρ).scope (ρ.ident id)
      = (m.scopes.value? f.scope id).map (Value.rename ρ) := Scopes.value?_rename h.faithful m.scopes f.scope id
  unfold construct
  rw [closeGroup_rename, hvalue, name_rename h]
  dsimp only
  cases m.scopes.value? f.scope id with
  | none => exact congrArg ok (newObject_rename h id _)
  | some v =>
    cases v with
    | structType t =>
      simp only [Option.map_some, Value.rename, List.find?_map]
      have hmiss : ((fun fd : Field => !(t.rename ρ).hasField fd.id) ∘ Value.renameField ρ)
          = fun fd => !t.hasField fd.id := by
        funext fd
        exact congrArg _ (t.hasField_rename h.faithful fd.id)
      rw [hmiss]
      cases f.closeGroup.1.find? fun fd => !t.hasField fd.id with
      | none => exact congrArg ok (newObject_rename h id _)
      | some fd => rfl
    | _ => rfl

theorem store_rename :
    (m.rename ρ q).store (f.rename ρ) (rest.map (Frame.rename ρ))
      = carry ρ (Machine.rename ρ q) (m.store f rest) := by
  refine carry_bind (popValue_rename h) fun ⟨v, g⟩ => carry_bind popOperand_rename fun ⟨target, k⟩ => ?_
  simp only [took]
  cases ht : target.ident with
  | none => simp [Operand.rename, ht, carried, Stuck.rename, Fault.rename, throw, throwThe, MonadExceptOf.throw]
  | some id =>
    have hbind := Scopes.bind_rename h.faithful m.scopes k.scope id (m.name id) (some v.copy)
    simp only [Operand.rename, ht, Option.map_some, name_rename h, Value.copy_eq, carried, pure, Except.pure] at hbind ⊢
    exact congrArg ok (by simp only [Machine.rename, hbind]; rfl)

theorem createStruct_rename (id : Int) :
    (m.rename ρ q).createStruct (f.rename ρ) (rest.map (Frame.rename ρ)) (ρ.ident id)
      = (m.createStruct f rest id).rename ρ q := by
  let t : StructType := ⟨.inner m.fresh, id, m.name id, m.declared⟩
  have hdef := define_rename h.faithful m.registry t
  have hbind := Scopes.bind_rename h.faithful m.scopes f.scope id t.name (some (.structType t))
  unfold createStruct
  rw [name_rename h]
  simp only [Machine.rename] at hdef hbind ⊢
  rw [hdef, hbind]
  rfl

theorem storeField_rename (id : Int) :
    (m.rename ρ q).storeField (f.rename ρ) (rest.map (Frame.rename ρ)) (ρ.ident id)
      = carry ρ (Machine.rename ρ q) (m.storeField f rest id) := by
  refine carry_bind (popValue_rename h) fun ⟨v, g⟩ => congrArg ok ?_
  have hadd : (g.rename ρ).addField ⟨ρ.ident id, m.name id, some (v.rename ρ)⟩
      = (g.addField ⟨id, m.name id, some v⟩).rename ρ :=
    (addField_rename (ρ := ρ) (f := g) ⟨id, m.name id, some v⟩).symm
  simp only [name_rename h, hadd]
  rfl

theorem makeArray_rename (n : Int) :
    (m.rename ρ q).makeArray (f.rename ρ) (rest.map (Frame.rename ρ)) n
      = carry ρ (Machine.rename ρ q) (m.makeArray f rest n) := by
  refine carry_bind (popValues_rename h n) fun ⟨vs, g⟩ => congrArg ok ?_
  have hitems : (Value.array (vs.map some)).rename ρ = .array ((vs.map (Value.rename ρ)).map some) := by
    rw [Value.rename, Value.renameItems_eq, map_map, map_map]
    rfl
  simp only [← hitems]
  rfl

theorem makeFn_rename (n : Int) :
    (m.rename ρ q).makeFn (f.rename ρ) (rest.map (Frame.rename ρ)) n
      = carry ρ (Machine.rename ρ q) (m.makeFn f rest n) := by
  refine carry_bind (popValue_rename h) fun ⟨v, g⟩ => ?_
  simp only [took]
  cases v with
  | proto p =>
    simp only [Value.rename]
    by_cases hp : p.params = n
    · have hp' : (p.rename ρ).params = n := hp
      simp only [hp, hp', ne_eq, not_true, if_false]
      refine carry_bind (popOperands_rename n) fun ⟨os, k⟩ =>
        carry_bind (inFrame_rename (carry_mapM param_rename os)) fun ids => congrArg ok ?_
      have hchain : (m.rename ρ q).scopes.chain (k.rename ρ).scope = m.scopes.chain k.scope :=
        Scopes.chain_rename m.scopes k.scope
      simp only [took, hchain]
      rfl
    · have hp' : (p.rename ρ).params ≠ n := hp
      simp only [ne_eq, hp, hp', not_false_iff, if_true]
      rfl
  | _ => rfl

theorem callScope_relabel (name : Text) (c : Closure) (args : List Value) :
    (m.rename ρ q).callScope name (c.rename ρ) (args.map (Value.rename ρ))
      = ((m.callScope name c args).1, (m.callScope name c args).2.rename ρ) := by
  have fold (i : Nat) (ids : List Int) (vs : List Value) (s : Scopes) :
      ((ids.map ρ.ident).zip (vs.map (Value.rename ρ))).foldl
          (fun s (x : Int × Value) => s.bind i x.1 ((m.rename ρ q).name x.1) (some x.2)) (s.rename ρ)
        = ((ids.zip vs).foldl (fun s (x : Int × Value) => s.bind i x.1 (m.name x.1) (some x.2)) s).rename ρ := by
    induction ids generalizing vs s with
    | nil => rfl
    | cons id ids ih =>
      cases vs with
      | nil => rfl
      | cons v vs =>
        simp only [map_cons, List.zip_cons_cons, List.foldl_cons, name_rename h]
        rw [← ih vs, Scopes.bind_rename h.faithful, Option.map_some]
  unfold callScope
  rw [show (m.rename ρ q).scopes.add name (c.rename ρ).scopes = _ from Scopes.add_rename m.scopes name c.scopes]
  exact Prod.ext rfl (fold _ c.params args _)

theorem callClosure_rename (c : Closure) (ident : Option Int) (args : List Value) :
    (m.rename ρ q).callClosure (f.rename ρ) (rest.map (Frame.rename ρ)) (c.rename ρ) (ident.map ρ.ident)
        (args.map (Value.rename ρ))
      = carry ρ (Machine.rename ρ q) (m.callClosure f rest c ident args) := by
  have hname : ((ident.map ρ.ident).map (m.rename ρ q).name).getD "<anonymous>"
      = (ident.map m.name).getD "<anonymous>" := by
    cases ident with
    | none => rfl
    | some id => exact h.name id
  have hparams : (c.rename ρ).params.length = c.params.length := length_map _
  unfold callClosure
  rw [hname, hparams, length_map, length_map, show (m.rename ρ q).limit = m.limit from rfl]
  dsimp only
  rw [callScope_relabel h]
  by_cases ha : args.length = c.params.length
  · by_cases hl : m.limit ≤ rest.length + 1
    · simp only [ha, hl, ne_eq, not_true, if_false, if_true]
      rfl
    · simp only [ha, hl, ne_eq, not_true, if_false]
      rfl
  · simp only [ne_eq, ha, not_false_iff, if_true]
    rfl

theorem call_rename (n : Int) :
    (m.rename ρ q).call (f.rename ρ) (rest.map (Frame.rename ρ)) n
      = carry ρ (Machine.rename ρ q) (m.call f rest n) := by
  refine carry_bind (popValues_rename h n) fun ⟨args, g⟩ =>
    carry_bind popOperand_rename fun ⟨⟨v, ident⟩, k⟩ => ?_
  simp only [took, Operand.rename]
  have ask (symbol : Int) (name : Text) (args : List Value) :
      (m.rename ρ q).await (k.rename ρ) (rest.map (Frame.rename ρ))
          (.call (ρ.ident symbol) name (args.map (Value.rename ρ)))
        = (m.await k rest (.call symbol name args)).rename ρ q := await_rename (.call symbol name args)
  cases v with
  | none =>
    cases ident with
    | none => rfl
    | some id =>
      have hfall : (m.rename ρ q).fallback = m.fallback := rfl
      simp only [Option.map_none, Option.map_some, name_rename h, hfall]
      cases m.fallback with
      | true => exact congrArg ok (ask id (m.name id) args)
      | false => rfl
  | some v =>
    cases v with
    | closure c => exact callClosure_rename h c ident args
    | host symbol name receiver =>
      cases receiver with
      | none => exact congrArg ok (ask symbol name args)
      | some o => exact congrArg ok (ask symbol name (.object o :: args))
    | builtin name => exact callBuiltin_rename name args
    | _ => rfl

theorem loadField_rename (id : Int) :
    (m.rename ρ q).loadField (f.rename ρ) (rest.map (Frame.rename ρ)) (ρ.ident id)
      = carry ρ (Machine.rename ρ q) (m.loadField f rest id) := by
  refine carry_bind (popValue_rename h) fun ⟨v, g⟩ => ?_
  simp only [took, name_rename h]
  cases v with
  | object o =>
    have hfield := Value.field?_rename h.faithful o id
    have hput : (m.rename ρ q).put (.loadField (Value.renameObject ρ o).id (m.name id))
        = (m.put (.loadField o.id (m.name id))).rename ρ q := by
      simp [put, Machine.rename, Value.renameObject_id, Action.rename]
    have hname' : ((m.put (.loadField o.id (m.name id))).rename ρ q).name (ρ.ident id) = m.name id := h.name id
    refine congrArg ok ?_
    simp only [hput, hfield, hname']
    cases o.field? id with
    | none => rfl
    | some v =>
      simp only [Option.map_some, Value.copyPlace_eq]
      rw [Value.renamePlace_eq]
      rfl
  | _ => rfl

theorem arith_rename (a : Arith) :
    (m.rename ρ q).arith (f.rename ρ) (rest.map (Frame.rename ρ)) a
      = carry ρ (Machine.rename ρ q) (m.arith f rest a) := by
  have happly (u v : Value) : a.apply (u.rename ρ) (v.rename ρ) = Fault.carry ρ (Value.rename ρ) (a.apply u v) := by
    rw [Arith.apply_rename]
    cases e : a.apply u v with
    | ok w => rfl
    | error e' => rw [Fault.carry, carried, Arith.fault_rename e]; rfl
  exact carry_bind (popValue_rename h) fun ⟨v, g⟩ => carry_bind (popValue_rename h) fun ⟨u, k⟩ =>
    carry_bind (inFrame_rename (happly u v)) fun _ => rfl

theorem ret_rename (stop : Nat) :
    (m.rename ρ q).ret (f.rename ρ) (rest.map (Frame.rename ρ)) stop
      = carry ρ (Machine.rename ρ q) (m.ret f rest stop) :=
  carry_bind (popResult_rename h) fun _ => rfl

end

/-- A renamed instruction does to a renamed machine what the instruction does to the machine. -/
theorem exec_rename (h : m.program.Renamed ρ q) (stop pc : Nat) (i : Instr) :
    (m.rename ρ q).exec (f.rename ρ) (rest.map (Frame.rename ρ)) stop pc (i.rename ρ)
      = carry ρ (Machine.rename ρ q) (m.exec f rest stop pc i) := by
  have hr := h.toRelabels
  obtain ⟨op, arg⟩ := i
  cases op with
  | loadIdent =>
    have hsite : (m.rename ρ q).program.isConstructor (f.rename ρ).block pc = m.program.isConstructor f.block pc :=
      h.site f.block pc
    simp only [exec, Instr.rename, Op.namesIdent, if_true, hsite]
    cases m.program.isConstructor f.block pc with
    | true => exact construct_rename hr arg
    | false => exact congrArg ok (loadIdent_rename hr arg)
  | store => exact store_rename hr
  | loadConst => exact loadConst_rename (h.const arg)
  | createStruct => exact congrArg ok (createStruct_rename hr arg)
  | addField => simp [exec, Instr.rename, Op.namesIdent, carried, Machine.rename]
  | storeField => exact storeField_rename hr arg
  | makeArray => exact makeArray_rename hr arg
  | makeFn => exact makeFn_rename hr arg
  | call => exact call_rename hr arg
  | add => exact arith_rename hr .add
  | sub => exact arith_rename hr .sub
  | mul => exact arith_rename hr .mul
  | div => exact arith_rename hr .div
  | beginStruct => rfl
  | loadField => exact loadField_rename hr arg
  | ret => exact ret_rename hr stop
  | unknown code _ => rfl

/-! ## Steps -/

def Tick.rename (ρ : Renaming) (q : Program) : Tick → Tick
  | .go m => .go (m.rename ρ q)
  | .pause m => .pause (m.rename ρ q)
  | .stop m h => .stop (m.rename ρ q) (h.rename ρ)

theorem terminate_rename : (m.rename ρ q).terminate = m.terminate.rename ρ q := by
  unfold terminate
  cases hq : m.quitting <;> simp [Machine.rename, hq, put, Action.rename]

theorem frameResult_rename (h : m.program.Relabels ρ q) :
    (m.rename ρ q).frameResult (f.rename ρ) = Fault.carry ρ (Value.rename ρ) (m.frameResult f) := by
  unfold frameResult
  rw [popResult_rename h]
  cases hr : f.result with
  | some v => simp [Frame.rename, hr, carried]
  | none =>
    simp only [Frame.rename, hr, Option.map_none]
    cases m.popResult f <;> rfl

theorem leave_rename (h : m.program.Relabels ρ q) :
    (m.rename ρ q).leave (f.rename ρ) (rest.map (Frame.rename ρ))
      = Fault.carry ρ (Machine.rename ρ q) (m.leave f rest) := by
  have after (fs : List Frame) :
      (if (fs.map (Frame.rename ρ)).isEmpty then ((m.rename ρ q).withFrames (fs.map (Frame.rename ρ))).terminate
        else (m.rename ρ q).withFrames (fs.map (Frame.rename ρ)))
        = (if fs.isEmpty then (m.withFrames fs).terminate else m.withFrames fs).rename ρ q := by
    cases fs with
    | nil => exact terminate_rename (m := m.withFrames [])
    | cons g gs => rfl
  unfold leave
  rw [show (f.rename ρ).returns = f.returns from rfl]
  cases f.returns with
  | false => exact congrArg ok (after rest)
  | true =>
    have hdeliver : ((m.rename ρ q).frameResult (f.rename ρ)).map (fun v => deliver v (rest.map (Frame.rename ρ)))
        = Fault.carry ρ (map (Frame.rename ρ)) ((m.frameResult f).map fun v => deliver v rest) := by
      rw [frameResult_rename h]
      cases m.frameResult f with
      | error e => rfl
      | ok v => cases rest <;> rfl
    exact carry_bind hdeliver fun fs => congrArg ok (after fs)

theorem tick_rename (h : m.program.Renamed ρ q) (s : Signal) :
    (m.rename ρ q).tick s = (m.tick s).rename ρ q := by
  unfold tick
  rw [show (m.rename ρ q).aborted = m.aborted from rfl,
    show (m.rename ρ q).frames = m.frames.map (Frame.rename ρ) from rfl,
    show (m.rename ρ q).program = q from rfl]
  cases m.aborted with
  | true => rfl
  | false =>
    cases s with
    | abort | cancel => rfl
    | quiet =>
      cases m.frames with
      | nil => exact congrArg Tick.pause terminate_rename
      | cons f rest =>
        simp only [Bool.false_eq_true, if_false, map_cons]
        rw [show (f.rename ρ).block = ρ.block f.block from rfl, h.block f.block]
        cases m.program.block? f.block with
        | none => rfl
        | some code =>
          simp only [Option.map_some, List.getElem?_map, length_map, show (f.rename ρ).pc = f.pc from rfl]
          cases code[f.pc]? with
          | none =>
            simp only [Option.map_none, leave_rename h.toRelabels]
            cases m.leave f rest <;> rfl
          | some i =>
            have hx : (m.rename ρ q).exec (Frame.rename ρ { f with pc := f.pc + 1 }) (rest.map (Frame.rename ρ))
                code.length f.pc (i.rename ρ) = _ := exec_rename h code.length f.pc i
            simp only [Option.map_some]
            simp only [Frame.rename] at hx ⊢
            rw [hx]
            cases m.exec { f with pc := f.pc + 1 } rest code.length f.pc i with
            | error e => rfl
            | ok m' =>
              simp only [carried, show (m'.rename ρ q).awaiting = m'.awaiting from rfl]
              cases m'.awaiting <;> rfl

def Tick.machine : Tick → Machine
  | .go m | .pause m | .stop m _ => m

theorem tick_program (s : Signal) (m : Machine) : (m.tick s).machine.program = m.program := by
  have hterm (k : Machine) : k.terminate.program = k.program := by
    unfold terminate
    split <;> rfl
  generalize ht : m.tick s = t
  cases turns_of_tick ht with
  | idle _ _ _ => exact hterm m
  | left _ _ _ _ _ hl =>
    obtain ⟨fs, -, rfl⟩ := leave_ok.mp hl
    simp only [Tick.machine]
    split
    · exact hterm _
    · rfl
  | went _ _ _ _ _ he _ => exact (exec_ok he).program
  | asked _ _ _ _ _ he _ => exact (exec_ok he).program
  | _ => rfl

theorem ticks_program (c : Signals) (n : Nat) (m : Machine) : (ticks c n m).2.program = m.program := by
  induction n generalizing m c with
  | zero => rfl
  | succ n ih =>
    have ht := tick_program (c 0) m
    rw [ticks]
    generalize m.tick (c 0) = t at ht ⊢
    cases t with
    | go m' => exact (ih c.later m').trans ht
    | pause | stop => exact ht

def renameStep (ρ : Renaming) (q : Program) (r : Except MachineError Unit × Machine) :
    Except MachineError Unit × Machine :=
  (r.1.mapError (MachineError.rename ρ), r.2.rename ρ q)

theorem ticks_rename (h : m.program.Renamed ρ q) (c : Signals) (n : Nat) :
    ticks c n (m.rename ρ q) = renameStep ρ q (ticks c n m) := by
  induction n generalizing m c with
  | zero => rfl
  | succ n ih =>
    have hp := tick_program (c 0) m
    rw [ticks, ticks, tick_rename h]
    generalize m.tick (c 0) = t at hp ⊢
    cases t with
    | go m' => exact ih (hp ▸ h) c.later
    | pause | stop => rfl

theorem step_rename (h : m.program.Renamed ρ q) (c : Signals) :
    (m.rename ρ q).step c = renameStep ρ q (m.step c) := by
  have hbound : (m.rename ρ q).stepBound = m.stepBound := by
    unfold stepBound
    rw [show (m.rename ρ q).program.longest = _ from h.longest]
    simp [Machine.rename]
  unfold step
  rw [hbound, ticks_rename h, show (m.rename ρ q).halted = m.halted.map (Halt.rename ρ) from rfl,
    show (m.rename ρ q).awaiting = m.awaiting from rfl]
  cases m.halted with
  | some e => rfl
  | none => cases m.awaiting <;> rfl

end

/-! ## Driving a machine -/

inductive Move where
  | step (c : Signals)
  | drain
  | resume (answer : Option Value)
  | abort
  | reset

/-- What the host gets to see of a move: whether it went well, and the actions to perform. -/
abbrev Sight := Except MachineError Unit × List Action

def move (m : Machine) : Move → Sight × Machine
  | .step c => (((m.step c).1, []), (m.step c).2)
  | .drain => ((.ok (), m.drain.1), m.drain.2)
  | .resume v => (((m.resume v).1, []), (m.resume v).2)
  | .abort => ((.ok (), []), m.abort)
  | .reset => ((.ok (), []), m.reset)

def drive (m : Machine) : List Move → List Sight
  | [] => []
  | a :: as => (m.move a).1 :: drive (m.move a).2 as

def Move.isPlain : Move → Bool
  | .resume v => Value.isPlainPlace v
  | _ => true

def Sight.rename (ρ : Renaming) (s : Sight) : Sight :=
  (s.1.mapError (MachineError.rename ρ), s.2.map (Action.rename ρ))

section

variable {q : Program} {m : Machine}

theorem resume_rename {v : Option Value} (hv : Value.isPlainPlace v = true) :
    (m.rename ρ q).resume v = renameStep ρ q (m.resume v) := by
  unfold resume
  rw [show (m.rename ρ q).awaiting = m.awaiting from rfl]
  cases m.awaiting with
  | false => rfl
  | true =>
    have hanswer : (v.getD .none).rename ρ = v.getD .none := by
      cases v with
      | none => rfl
      | some v => exact Value.rename_plain hv
    cases hf : m.frames with
    | nil =>
      simp only [Machine.rename, hf, List.map_nil, Bool.not_true, Bool.false_eq_true, if_false, renameStep]
      rfl
    | cons f rest =>
      simp only [Machine.rename, hf, map_cons, Bool.not_true, Bool.false_eq_true, if_false, renameStep]
      rw [pushValue_rename, hanswer]
      rfl

theorem move_rename (h : m.program.Renamed ρ q) {a : Move} (ha : a.isPlain = true) :
    (m.rename ρ q).move a = (((m.move a).1).rename ρ, (m.move a).2.rename ρ q) := by
  cases a with
  | step c =>
    simp only [move, step_rename h]
    rfl
  | resume v =>
    simp only [move, resume_rename (show Value.isPlainPlace v = true from ha)]
    rfl
  | _ => rfl

theorem move_program (a : Move) : (m.move a).2.program = m.program := by
  cases a with
  | step c =>
    simp only [move, step]
    split
    · rfl
    · split
      · rfl
      · exact ticks_program c _ m
  | resume v =>
    simp only [move, resume]
    split <;> rfl
  | _ => rfl

/-- However a machine is driven, a renamed one shows the same under the new numbers. -/
theorem drive_rename (h : m.program.Renamed ρ q) {as : List Move} (has : ∀ a ∈ as, a.isPlain = true) :
    (m.rename ρ q).drive as = (m.drive as).map (Sight.rename ρ) := by
  induction as generalizing m with
  | nil => rfl
  | cons a as ih =>
    rw [drive, drive, move_rename h (has a List.mem_cons_self), map_cons]
    have h' : (m.move a).2.program.Renamed ρ q := by rwa [move_program a]
    exact congrArg _ (ih h' fun b hb => has b (List.mem_cons_of_mem a hb))

end

end Machine

end Scriptlet

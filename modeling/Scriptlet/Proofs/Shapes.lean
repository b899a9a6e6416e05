/-
  Scriptlet.Proofs.Shapes — what stands on the operand stack, said before the code runs.

  A shape says what is known of an operand without running the code: the identifier from which it
  was loaded, the constant that it is, or nothing. `Effect` gives the shapes before and after an
  instruction, and code fits a stack of shapes if every instruction, up to the first return,
  finds the shapes it needs (`Fits`).

  (1) The code of every orderly tree fits (`lowered_fits`, `body_fits`): expressions leave one
      operand, statements none.
  (2) The number of operands depends on the place alone (`heightAt`, `Effect.length`).
  (3) An instruction that finds the shapes it needs does not fail for want of operands, constants or
      targets, and makes the function it is to make (`effect_error`). If it succeeds, the stack has
      the shapes it is to have afterwards (`effect_lands`).
-/

import Mathlib.Data.List.Forall2
import Scriptlet.Proofs.Inside
import Scriptlet.Proofs.Lowering

namespace Scriptlet

open List (map_cons cons append_assoc)

inductive Shape where
  | named (id : Int)
  | const (v : Value)
  | any

def Shape.Holds : Shape → Operand → Prop
  | .named id, o => o.ident = some id
  | .const v, o => o.value = some v
  | .any, _ => True

abbrev Shapes (S : List Shape) (os : List Operand) : Prop := List.Forall₂ Shape.Holds S os

/-- A statement stands nowhere where a value is needed, and only identifiers are assigned to. -/
def Node.isOrderly (n : Node) : Bool := n.isPlaced && n.assignsName

namespace Program

def Holds (keep : Nat → Prop) (p : Program) (b : Nat) (body : List Node) : Prop :=
  keep b ∧ ∃ s, p.slots[b]? = some s ∧ s.code.isSome = true ∧ LoweredAll keep p 0 body s.marked

/-- A function may run the block. -/
def Callable (keep : Nat → Prop) (p : Program) (b : Nat) : Prop :=
  ∃ body, Node.everyNode Node.isOrderly body = true ∧ p.Holds keep b body

end Program

section

variable (keep : Nat → Prop) (p : Program)

/-- The shapes on the stack before and after an instruction. The result of a call is counted as if it
    were there at once. -/
inductive Effect : Instr × Bool → List Shape → List Shape → Prop
  | loadIdent (id : Nat) (S : List Shape) : Effect (⟨.loadIdent, id⟩, false) S (.named id :: S)
  | construct (id : Nat) (S : List Shape) : Effect (⟨.loadIdent, id⟩, true) S (.any :: S)
  | store (n : Int) (x : Shape) (id : Int) (S : List Shape) : Effect (⟨.store, n⟩, false) (x :: .named id :: S) S
  | loadConst {k : Nat} {v : Value} (S : List Shape) : p.consts[k]? = some v → v.Every (fun _ => False) →
      Effect (⟨.loadConst, k⟩, false) S (.const v :: S)
  | createStruct (n : Int) (S : List Shape) : Effect (⟨.createStruct, n⟩, false) S S
  | addField (n : Int) (S : List Shape) : Effect (⟨.addField, n⟩, false) S S
  | beginStruct (n : Int) (S : List Shape) : Effect (⟨.beginStruct, n⟩, false) S S
  | storeField (n : Int) (x : Shape) (S : List Shape) : Effect (⟨.storeField, n⟩, false) (x :: S) S
  | makeArray (xs S : List Shape) : Effect (⟨.makeArray, xs.length⟩, false) (xs ++ S) (.any :: S)
  | makeFn {b : Nat} (ids : List Int) (S : List Shape) : p.Callable keep b →
      Effect (⟨.makeFn, ids.length⟩, false)
        (.const (.proto ⟨b, ids.length⟩) :: ((ids.map .named).reverse ++ S)) (.any :: S)
  | call (xs : List Shape) (x : Shape) (S : List Shape) :
      Effect (⟨.call, xs.length⟩, false) (xs ++ x :: S) (.any :: S)
  | arith (a : Arith) {o : Op} (n : Int) (x y : Shape) (S : List Shape) : a.op = o →
      Effect (⟨o, n⟩, false) (x :: y :: S) (.any :: S)
  | loadField (n : Int) (x : Shape) (S : List Shape) : Effect (⟨.loadField, n⟩, false) (x :: S) (.any :: S)

inductive Fits : Marked → List Shape → Prop
  | nil (S : List Shape) : Fits [] S
  | ret (n : Int) (c : Marked) (x : Shape) (S : List Shape) : Fits ((⟨.ret, n⟩, false) :: c) (x :: S)
  | cons {i : Instr × Bool} {c : Marked} {S T : List Shape} : Effect keep p i S T → Fits c T → Fits (i :: c) S

end

/-! ## (1) Code of trees fits -/

variable {S : List Shape} {keep : Nat → Prop} {as os : List Operand}

section

variable {p : Program} {k : Marked}

theorem Fits.op {o : Op} {n : Nat} {T : List Shape} (h : Effect keep p (⟨o, n⟩, false) S T) (hk : Fits keep p k T) :
    Fits keep p (Marked.op o n ++ k) S := .cons h hk

theorem Fits.site {id : Nat} {T : List Shape} (h : Effect keep p (⟨.loadIdent, id⟩, true) S T) (hk : Fits keep p k T) :
    Fits keep p (Marked.site id ++ k) S := .cons h hk

/-- Code that loads identifiers leaves their names on the stack, the last one on top. -/
theorem loads_fit {names : List Text} {ids : List Nat} (hn : p.Numbers names ids)
    (hk : Fits keep p k ((ids.map fun id => Shape.named (id : Nat)).reverse ++ S)) :
    Fits keep p (Marked.ops .loadIdent ids ++ k) S := by
  induction ids generalizing S names with
  | nil => exact hk
  | cons id ids ih =>
    cases names with
    | nil => simp [Program.Numbers] at hn
    | cons name names =>
      simp only [Program.Numbers, map_cons, cons.injEq] at hn
      refine Fits.op (.loadIdent id S) (ih hn.2 ?_)
      simpa using hk

theorem addFields_fit {ids : List Nat} (hk : Fits keep p k S) : Fits keep p (Marked.ops .addField ids ++ k) S := by
  induction ids with
  | nil => exact hk
  | cons id ids ih => exact Fits.op (.addField id S) ih

theorem opening_fits (d : Nat) (fs : List (Text × Node)) (hk : Fits keep p k S) :
    Fits keep p (Marked.opening d fs ++ k) S := by
  unfold Marked.opening
  split
  · exact hk
  · exact Fits.op (.beginStruct _ S) hk

theorem every_initial (Q : Closure → Prop) (type : Text) : (Lower.initial type).Every Q := by
  unfold Lower.initial
  repeat' split
  all_goals trivial

theorem operator_fits {op : Operator} {o : Op} (ho : op.op? = some o) {x y : Shape} (hk : Fits keep p k (.any :: S)) :
    Fits keep p (Marked.op o ++ k) (x :: y :: S) := by
  cases op with
  | other b => cases ho
  | add => cases ho; exact Fits.op (.arith .add _ x y S rfl) hk
  | sub => cases ho; exact Fits.op (.arith .sub _ x y S rfl) hk
  | mul => cases ho; exact Fits.op (.arith .mul _ x y S rfl) hk
  | div => cases ho; exact Fits.op (.arith .div _ x y S rfl) hk

theorem const_fits {n : Nat} {v : Value} (hv : p.consts[n]? = some v) (h : v.Every fun _ => False)
    (hk : ∀ x, Fits keep p k (x :: S)) : Fits keep p (Marked.op .loadConst n ++ k) S :=
  Fits.op (.loadConst S hv h) (hk _)

section

variable (keep p)

def ExprFits (n : Node) : Prop :=
  ∀ {d c k S}, Lowered keep p d n c → (∀ x, Fits keep p k (x :: S)) → Fits keep p (c ++ k) S

end

variable {d : Nat} {c : Marked}

/-- The code of arguments leaves one operand for each. -/
theorem args_fit {ns : List Node} (hns : ∀ n ∈ ns, ExprFits keep p n) (hl : LoweredAll keep p d ns c)
    (hk : ∀ xs : List Shape, xs.length = ns.length → Fits keep p k (xs ++ S)) : Fits keep p (c ++ k) S := by
  induction ns generalizing c S with
  | nil =>
    obtain rfl := hl
    exact hk [] rfl
  | cons n ns ih =>
    rw [List.forall_mem_cons] at hns
    obtain ⟨a, b, ha, hb, rfl⟩ := hl
    rw [append_assoc]
    refine hns.1 ha fun x => ih hns.2 hb fun xs hx => ?_
    have := hk (xs ++ [x]) (by simp [hx])
    rwa [append_assoc] at this

/-- The code of fields leaves the stack as it was. -/
theorem fields_fit {fs : List (Text × Node)} (hfs : ∀ n ∈ fs.map (·.2), ExprFits keep p n)
    (hl : LoweredFields keep p d fs c) (hk : Fits keep p k S) : Fits keep p (c ++ k) S := by
  induction fs generalizing c with
  | nil =>
    obtain rfl := hl
    exact hk
  | cons f fs ih =>
    rw [map_cons, List.forall_mem_cons] at hfs
    obtain ⟨a, b, id, ha, -, hb, rfl⟩ := hl
    rw [append_assoc, append_assoc]
    exact hfs.1 ha fun x => Fits.op (.storeField id x S) (ih hfs.2 hb)

theorem isPlaced_of_isOrderly (n : Node) (h : n.isOrderly = true) : n.isPlaced = true := (Bool.and_eq_true_iff.mp h).1

theorem lowered_fits : ∀ n : Node, n.isValued Node.isOrderly = true → ExprFits keep p n := by
  refine Node.induction_operands isPlaced_of_isOrderly fun n h ih d c k S hl hk => ?_
  cases n with
  | ident name =>
    obtain ⟨id, -, rfl⟩ := hl
    exact Fits.op (.loadIdent id S) (hk _)
  | construct type fs =>
    obtain ⟨a, id, ha, -, rfl⟩ := hl
    rw [append_assoc, append_assoc]
    exact opening_fits d fs (fields_fit ih ha (Fits.site (.construct id S) (hk _)))
  | array items =>
    obtain ⟨a, ha, rfl⟩ := hl
    rw [append_assoc]
    refine args_fit ih ha fun xs (hx : _ = items.length) => ?_
    rw [← hx]
    exact Fits.op (.makeArray xs S) (hk _)
  | call callee args =>
    obtain ⟨a, b, ha, hb, rfl⟩ := hl
    rw [append_assoc, append_assoc]
    refine ih callee (.head _) ha fun x => args_fit (fun n hn => ih n (.tail _ hn)) hb fun xs hx => ?_
    rw [← hx]
    exact Fits.op (.call xs x S) (hk _)
  | property object name =>
    obtain ⟨a, id, ha, -, rfl⟩ := hl
    rw [append_assoc]
    exact ih object (.head _) ha fun x => Fits.op (.loadField id x S) (hk _)
  | binary op l r =>
    obtain ⟨a, b, o, ha, hb, ho, rfl⟩ := hl
    rw [append_assoc, append_assoc]
    exact ih l (.head _) ha fun y => ih r (.tail _ (.head _)) hb fun x => operator_fits ho (hk _)
  | function params body =>
    simp only [Node.isValued, Node.every, Bool.and_eq_true] at h
    obtain ⟨ids, n, b, s, hids, hn, hb, hs, hf, hl, rfl⟩ := hl
    rw [append_assoc, append_assoc]
    have hlen : params.length = (ids.map fun id : Nat => (id : Int)).length := by
      simpa using congrArg List.length hids
    refine loads_fit hids (Fits.op (.loadConst _ hn trivial) ?_)
    have hcall : p.Callable keep b := ⟨body, h.1.2, hb, s, hs, hf, hl⟩
    have he := Effect.makeFn (ids.map fun id : Nat => (id : Int)) S hcall
    rw [← hlen, List.map_map] at he
    exact Fits.op he (hk _)
  | int | float | str =>
    obtain ⟨n, hn, rfl⟩ := hl
    exact const_fits hn trivial hk
  | hole => cases hl
  | _ => simp [Node.isValued, Node.isStatement] at h

/-- The code of an item fits in front of code that fits all stacks. -/
theorem item_fits {n : Node} (h : n.every Node.isOrderly = true) (hl : Lowered keep p 0 n c)
    (hk : ∀ T, Fits keep p k T) (S : List Shape) : Fits keep p (c ++ k) S := by
  have hops := Node.isValued_operands isPlaced_of_isOrderly h
  by_cases hs : n.isStatement = true
  · cases n with
    | assign l r =>
      cases l with
      | ident name =>
        obtain ⟨a, b, ⟨id, -, rfl⟩, hb, rfl⟩ := hl
        rw [append_assoc, append_assoc]
        refine Fits.op (.loadIdent id S) (lowered_fits r (hops r (.tail _ (.head _))) hb fun x => ?_)
        exact Fits.op (.store _ x id S) (hk S)
      | _ => simp [Node.every, Node.isOrderly, Node.assignsName] at h
    | structDef name fs =>
      obtain ⟨ids, id, -, -, rfl⟩ := hl
      rw [append_assoc]
      exact addFields_fit (Fits.op (.createStruct id S) (hk S))
    | «variable» type name =>
      obtain ⟨id, j, -, hj, rfl⟩ := hl
      rw [append_assoc, append_assoc]
      exact Fits.op (.loadIdent id S) (Fits.op (.loadConst _ hj (every_initial _ type)) (Fits.op (.store _ _ id S) (hk S)))
    | ret v =>
      cases v with
      | none =>
        obtain ⟨j, hj, rfl⟩ := hl
        rw [append_assoc]
        exact const_fits hj trivial fun x => .ret _ _ x S
      | some v =>
        obtain ⟨a, ha, rfl⟩ := hl
        rw [append_assoc]
        exact lowered_fits v (hops v (.head _)) ha fun x => .ret _ _ x S
    | _ => cases hs
  · exact lowered_fits n (by simp [Node.isValued, h, hs]) hl fun x => hk _

/-- The code of a body fits whatever stands below. -/
theorem body_fits {ns : List Node} {c : Marked} (h : Node.everyNode Node.isOrderly ns = true)
    (hl : LoweredAll keep p 0 ns c) (S : List Shape) : Fits keep p c S := by
  induction ns generalizing c S with
  | nil =>
    obtain rfl := hl
    exact .nil S
  | cons n ns ih =>
    simp only [Node.everyNode, Bool.and_eq_true] at h
    obtain ⟨a, b, ha, hb, rfl⟩ := hl
    exact item_fits h.1 ha (fun T => ih h.2 hb T) S

end

/-! ## (2) Heights -/

def Instr.takes (i : Instr) : Nat :=
  match i.op with
  | .store | .add | .sub | .mul | .div => 2
  | .storeField | .loadField => 1
  | .makeArray => i.arg.toNat
  | .makeFn | .call => i.arg.toNat + 1
  | _ => 0

/-- How many operands an instruction puts on the stack, or has put there by what it calls. -/
def Instr.gives (i : Instr) : Nat :=
  match i.op with
  | .loadIdent | .loadConst | .makeArray | .makeFn | .call | .add | .sub | .mul | .div | .loadField => 1
  | _ => 0

def Op.groups (site : Bool) (g : Nat) : Op → Nat
  | .loadIdent => if site then g - 1 else g
  | .beginStruct => g + 1
  | .storeField => max g 1
  | _ => g

/-- The number of operands at a place of a block that starts with `h` of them. A return takes one
    and goes to the end. -/
def heightFrom : Nat → Block → Nat → Nat
  | h, _, 0 => h
  | h, [], _ => h
  | h, i :: code, pc + 1 => if i.op = .ret then h - 1 else heightFrom (h - i.takes + i.gives) code pc

def heightAt (code : Block) (pc : Nat) : Nat := heightFrom 0 code pc

theorem Effect.length {keep : Nat → Prop} {p : Program} {i : Instr} {site : Bool} {S T : List Shape}
    (h : Effect keep p (i, site) S T) :
    i.op ≠ .ret ∧ T.length = S.length - i.takes + i.gives ∧ i.takes ≤ S.length := by
  cases h with
  | arith a n x y S ho => cases ho; cases a <;> simp [Instr.takes, Instr.gives, Arith.op]
  | _ => simp [Instr.takes, Instr.gives] <;> omega

section

variable {h pc : Nat} {code : Block} {i : Instr} (hr : ∀ j ∈ code.take pc, j.op ≠ .ret)
include hr

/-- Behind code that does not return, the height is counted on from there. -/
theorem heightFrom_add (n : Nat) : heightFrom h code (pc + n) = heightFrom (heightFrom h code pc) (code.drop pc) n := by
  induction pc generalizing h code with
  | zero => simp [heightFrom]
  | succ pc ih =>
    cases code with
    | nil => cases n <;> simp [heightFrom]
    | cons j code =>
      simp only [List.take_succ_cons, List.forall_mem_cons] at hr
      rw [Nat.add_right_comm]
      simpa [heightFrom, hr.1] using ih hr.2

theorem heightFrom_succ (hi : code[pc]? = some i) (hn : i.op ≠ .ret) :
    heightFrom h code (pc + 1) = heightFrom h code pc - i.takes + i.gives := by
  obtain ⟨hlt, rfl⟩ := List.getElem?_eq_some_iff.mp hi
  rw [heightFrom_add hr, List.drop_eq_getElem_cons hlt]
  simp [heightFrom, hn]

theorem heightFrom_ret (hi : code[pc]? = some i) (hn : i.op = .ret) :
    heightFrom h code code.length = heightFrom h code pc - 1 := by
  obtain ⟨hlt, rfl⟩ := List.getElem?_eq_some_iff.mp hi
  obtain ⟨n, hlen⟩ := Nat.exists_eq_add_of_lt hlt
  rw [hlen, Nat.add_assoc, heightFrom_add hr, List.drop_eq_getElem_cons hlt]
  simp [heightFrom, hn]

end

/-! ## (3) How an instruction fails -/

/-- Is the class one of broken code, rather than of what the code computes with? -/
def FaultClass.isBroken : FaultClass → Bool
  | .stackUnderflow | .badOperand | .notAssignable => true
  | _ => false

namespace Machine

def FailsOnly {ε α : Type} (P : ε → Prop) (x : Except ε α) : Prop := ∀ e, x = .error e → P e

/-- If it fails, then not because the code is broken. -/
abbrev Safe {α : Type} (x : Except Stuck α) : Prop := FailsOnly (fun s => s.fault.toClass.isBroken = false) x

abbrev Harmless {α : Type} (x : Except Fault α) : Prop := FailsOnly (fun e => e.toClass.isBroken = false) x

section

variable {ε α β : Type} {P : ε → Prop} {m : Machine} {f : Frame} {rest : List Frame}

theorem safe_ok (a : α) : FailsOnly P (.ok a) := by
  intro e h
  cases h

theorem safe_error {e : ε} (h : P e) : FailsOnly P (.error e : Except ε α) := by
  intro e' he
  cases he
  exact h

theorem safe_bind {x : Except ε α} {k : α → Except ε β} (hx : FailsOnly P x) (hk : ∀ a, x = .ok a → FailsOnly P (k a)) :
    FailsOnly P (x >>= k) := by
  intro e h
  cases hx' : x with
  | error e' =>
    rw [hx'] at h
    cases h
    exact hx e hx'
  | ok a =>
    rw [hx'] at h
    exact hk a hx' e h

theorem safe_inFrame {x : Except Fault α} (h : Harmless x) : Safe (inFrame f x) := by
  cases x with
  | ok a => exact safe_ok a
  | error e => exact safe_error (P := fun s : Stuck => s.fault.toClass.isBroken = false) (h e rfl)

theorem safe_resolved (o : Operand) : Harmless (m.resolved o) := by
  unfold resolved
  split
  · exact safe_ok _
  · exact safe_error rfl

variable {o : Operand} {n : Int}

theorem popOperand_eq (h : f.operands = o :: os) :
    popOperand f = .ok (o, setOperands f os) := popOperand_ok.mpr ⟨os, h, rfl⟩

theorem safe_popValue (h : f.operands = o :: os) : Safe (m.popValue f) := by
  unfold popValue
  rw [popOperand_eq h]
  exact safe_bind (safe_ok _) fun a ha => by
    cases ha
    exact safe_bind (safe_inFrame (safe_resolved o)) fun _ _ => safe_ok _

theorem popOperands_eq (h : f.operands = as.reverse ++ os) (hn : n = as.length) :
    popOperands f n = .ok (as, setOperands f os) := popOperands_ok.mpr ⟨hn, os, h, rfl⟩

theorem safe_mapM {k : α → Except ε β} (hk : ∀ a, FailsOnly P (k a)) (as : List α) : FailsOnly P (as.mapM k) := by
  induction as with
  | nil => exact safe_ok _
  | cons a as ih =>
    rw [List.mapM_cons]
    exact safe_bind (hk a) fun _ _ => safe_bind ih fun _ _ => safe_ok _

theorem safe_popValues (h : f.operands = as.reverse ++ os) (hn : n = as.length) :
    Safe (m.popValues f n) := by
  unfold popValues
  rw [popOperands_eq h hn]
  exact safe_bind (safe_ok _) fun a ha => by
    cases ha
    exact safe_bind (safe_inFrame (safe_mapM safe_resolved as)) fun _ _ => safe_ok _

theorem safe_construct (id : Int) : Safe (m.construct f rest id) := by
  unfold construct
  dsimp only
  split
  · split
    · exact safe_error rfl
    · exact safe_ok _
  · exact safe_error rfl
  · exact safe_ok _

theorem safe_callClosure (c : Closure) (ident : Option Int) (args : List Value) :
    Safe (m.callClosure f rest c ident args) := by
  unfold callClosure
  split
  · exact safe_error rfl
  · split
    · exact safe_error rfl
    · exact safe_ok _

theorem safe_callBuiltin (name : Text) (args : List Value) : Safe (m.callBuiltin f rest name args) := by
  unfold callBuiltin
  split
  · exact safe_error rfl
  · split
    · exact safe_ok _
    · exact safe_error rfl
    · exact safe_error rfl

theorem safe_apply (a : Arith) (u v : Value) : Harmless (a.apply u v) := by
  unfold Arith.apply
  split
  · split
    · exact safe_ok _
    · exact safe_error rfl
  · cases a with
    | div =>
      simp only [Arith.onInts]
      split
      · exact safe_error rfl
      · exact safe_ok _
    | _ => exact safe_ok _
  · exact safe_ok _
  · exact safe_ok _
  · exact safe_ok _
  · exact safe_error rfl

theorem safe_call (h : f.operands = as.reverse ++ o :: os)
    (hn : n = as.length) : Safe (m.call f rest n) := by
  unfold call
  refine safe_bind (safe_popValues h hn) fun (args, g) hg => ?_
  obtain ⟨as', os', hn', hf, -, rfl⟩ := popValues_ok.mp hg
  obtain ⟨rfl, rfl⟩ : as' = as ∧ os' = o :: os := by
    rw [h] at hf
    have hl : as.reverse.length = as'.reverse.length := by
      simp only [List.length_reverse]
      omega
    obtain ⟨h1, h2⟩ := List.append_inj hf hl
    exact ⟨(List.reverse_injective h1).symm, h2.symm⟩
  dsimp only
  rw [popOperand_eq (f := setOperands f (o :: os)) rfl]
  refine safe_bind (safe_ok _) fun (callee, g) hg => ?_
  cases hg
  obtain ⟨value, ident⟩ := o
  dsimp only
  split
  · exact safe_callClosure _ _ _
  · exact safe_ok _
  · exact safe_ok _
  · exact safe_callBuiltin _ _
  · exact safe_error rfl
  · split
    · exact safe_ok _
    · exact safe_error rfl
  · exact safe_error rfl

end

end Machine

/-! ## Stacks of a shape -/

theorem shapes_append {T : List Shape} (h : Shapes (S ++ T) os) :
    ∃ as bs, os = as ++ bs ∧ as.length = S.length ∧ Shapes S as ∧ Shapes T bs := by
  induction S generalizing os with
  | nil => exact ⟨[], os, rfl, rfl, .nil, h⟩
  | cons s S ih =>
    cases h with
    | @cons _ o _ os ho h =>
      obtain ⟨as, bs, rfl, hl, ha, hb⟩ := ih h
      exact ⟨o :: as, bs, rfl, by simp [hl], .cons ho ha, hb⟩

/-- The operands of the names that a function is made of are those names. -/
theorem shapes_named {ids : List Int} (h : Shapes (ids.map .named) as) : as.map (·.ident) = ids.map some := by
  induction ids generalizing as with
  | nil =>
    cases h
    rfl
  | cons id ids ih =>
    cases h with
    | cons ho h =>
      rw [map_cons, map_cons, ih h]
      exact congrArg (· :: _) ho

namespace Machine

section

variable {m : Machine} {f : Frame} {rest : List Frame} {stop pc : Nat} {i : Instr} {site : Bool} {T : List Shape}

variable {o : Operand} {m' : Machine}

theorem safe_store {t : Operand} {id : Int} (h : f.operands = o :: t :: os)
    (ht : t.ident = some id) : Safe (m.store f rest) := by
  refine safe_bind (safe_popValue h) fun (v, g) hg => ?_
  obtain ⟨j, os', hf, rfl⟩ := popValue_ok.mp hg
  rw [h] at hf
  obtain ⟨-, rfl⟩ := cons.inj hf
  dsimp only
  rw [popOperand_eq (f := setOperands f (t :: os)) rfl]
  refine safe_bind (safe_ok _) fun p hp => ?_
  cases hp
  simp only [ht]
  exact safe_ok _

theorem safe_arith {a : Arith} {t : Operand} (h : f.operands = o :: t :: os) :
    Safe (m.arith f rest a) := by
  refine safe_bind (safe_popValue h) fun (v, g) hg => ?_
  obtain ⟨j, os', hf, rfl⟩ := popValue_ok.mp hg
  rw [h] at hf
  obtain ⟨-, rfl⟩ := cons.inj hf
  refine safe_bind (safe_popValue rfl) fun (u, g) _ => ?_
  exact safe_bind (safe_inFrame (safe_apply a u v)) fun _ _ => safe_ok _

theorem safe_loadField {id : Int} (h : f.operands = o :: os) :
    Safe (m.loadField f rest id) := by
  refine safe_bind (safe_popValue h) fun (v, g) _ => ?_
  cases v with
  | object o => exact safe_ok _
  | _ => exact safe_error rfl

theorem safe_popResult : Safe (m.popResult f) := by
  unfold popResult
  split
  · exact safe_ok _
  · exact safe_bind (safe_inFrame (safe_resolved _)) fun _ _ => safe_ok _

theorem safe_ret : Safe (m.ret f rest stop) := safe_bind safe_popResult fun _ _ => safe_ok _

/-- An instruction that finds the shapes it needs does not fail because the code is broken, and makes
    the function it is to make. -/
theorem effect_error (h : Effect keep m.program (i, site) S T) (hs : Shapes S f.operands) {e : Stuck}
    (he : m.exec f rest stop pc i = .error e) : e.fault.toClass.isBroken = false ∧ i.op ≠ .makeFn := by
  generalize hos : f.operands = os at hs
  have loads (id : Int) : Safe (m.exec f rest stop pc ⟨.loadIdent, id⟩) := by
    simp only [exec]
    split
    · exact safe_construct _
    · exact safe_ok _
  cases h with
  | loadIdent id S => exact ⟨loads id e he, by simp⟩
  | construct id S => exact ⟨loads id e he, by simp⟩
  | store n x id S =>
    cases hs with
    | cons _ hs =>
      cases hs with
      | cons ht hs => exact ⟨safe_store hos ht e he, by simp⟩
  | @loadConst k v S hv _ =>
    have hd : Does m f rest stop pc ⟨.loadConst, k⟩ _ := .loadConst hv
    rw [hd.exec] at he
    cases he
  | createStruct n S => cases he
  | addField n S => cases he
  | beginStruct n S => cases he
  | storeField n x S =>
    cases hs with
    | cons _ hs => exact ⟨safe_bind (safe_popValue hos) (fun _ _ => safe_ok _) e he, by simp⟩
  | makeArray xs S =>
    obtain ⟨as, bs, rfl, hl, -, -⟩ := shapes_append hs
    have ho : f.operands = as.reverse.reverse ++ bs := by rw [hos, List.reverse_reverse]
    exact ⟨safe_bind (safe_popValues ho (by simp [hl])) (fun _ _ => safe_ok _) e he, by simp⟩
  | @makeFn b ids S _ =>
    cases hs with
    | @cons _ o _ os hv hs =>
      obtain ⟨as, bs, rfl, hl, ha, -⟩ := shapes_append hs
      obtain ⟨value, ident⟩ := o
      have hn : (ids.length : Int) = as.reverse.length := by
        simp only [List.length_reverse, List.length_map] at hl ⊢
        omega
      have hp : (⟨b, ids.length⟩ : Proto).params = as.reverse.length := hn
      have ho : f.operands = ⟨some (.proto ⟨b, ids.length⟩), ident⟩ :: (as.reverse.reverse ++ bs) := by
        rw [hos, List.reverse_reverse, ← hv]
      have hi : as.reverse.map (·.ident) = ids.map some := by
        have := List.forall₂_reverse_iff.mpr ha
        rw [List.reverse_reverse] at this
        exact shapes_named this
      have hd : Does m f rest stop pc ⟨.makeFn, as.reverse.length⟩ _ := .makeFn hp ho hi
      rw [← hn] at hd
      rw [hd.exec] at he
      cases he
  | call xs x S =>
    obtain ⟨as, bs, rfl, hl, -, hs⟩ := shapes_append hs
    cases hs with
    | cons _ hs =>
      rw [← List.reverse_reverse as] at hos
      exact ⟨safe_call hos (by simp [hl]) e he, by simp⟩
  | arith a n x y S ho =>
    cases hs with
    | cons _ hs =>
      cases hs with
      | cons _ hs =>
        subst ho
        rw [exec_arith] at he
        exact ⟨safe_arith hos e he, by cases a <;> simp [Arith.op]⟩
  | loadField n x S =>
    cases hs with
    | cons _ hs => exact ⟨safe_loadField hos e he, by simp⟩

structure SameRun (f g : Frame) : Prop where
  block : g.block = f.block
  pc : g.pc = f.pc
  unit : g.unit = f.unit
  returns : g.returns = f.returns

/-- What an instruction that does not return makes of its frame: above the operands `os` it puts others in place of those
    it takes, and nothing else changes but the field groups. -/
structure Serves (i : Instr) (site : Bool) (f g : Frame) (given os : List Operand) : Prop where
  frame : g = { f with operands := g.operands, groups := g.groups }
  taken : ∃ as, f.operands = as ++ os ∧ as.length = i.takes
  operands : g.operands = given ++ os
  groups : g.groups.length = i.op.groups site f.groups.length

inductive Leads (m : Machine) (f : Frame) (rest : List Frame) (i : Instr) (site : Bool) (m' : Machine) : Prop
  | stay {g : Frame} (given : List Operand) {os : List Operand} : m'.frames = g :: rest → m'.awaiting = m.awaiting →
      given.length = i.gives → Serves i site f g given os → Leads m f rest i site m'
  | ask {g : Frame} {os : List Operand} : m'.frames = g :: rest → m'.awaiting = true → i.gives = 1 →
      Serves i site f g [] os → Leads m f rest i site m'
  | enter (c : Closure) {callee g : Frame} {os : List Operand} : m'.frames = callee :: g :: rest →
      m'.awaiting = m.awaiting → i.gives = 1 → Serves i site f g [] os →
      (∃ o ∈ f.operands, o.value = some (.closure c)) → callee.block = c.proto.block → callee.pc = 0 →
      callee.operands = [] → callee.unit = f.unit → callee.returns = true → Leads m f rest i site m'

theorem Serves.run {g : Frame} {given : List Operand} (h : Serves i site f g given os) : SameRun f g :=
  h.frame ▸ ⟨rfl, rfl, rfl, rfl⟩

theorem closeGroup_eq (f : Frame) :
    ∃ gs, f.closeGroup.2 = { f with groups := gs } ∧ gs.length = f.groups.length - 1 := by
  unfold Frame.closeGroup
  cases hg : f.groups with
  | nil => exact ⟨f.groups, rfl, by simp [hg]⟩
  | cons g gs => exact ⟨gs, rfl, rfl⟩

theorem addField_eq (f : Frame) (fd : Field) :
    ∃ gs, f.addField fd = { f with groups := gs } ∧ gs.length = max f.groups.length 1 := by
  unfold Frame.addField
  cases f.groups with
  | nil => exact ⟨_, rfl, rfl⟩
  | cons g gs => exact ⟨_, rfl, by simp⟩

theorem Does.leads (h : Does m f rest stop pc i m') (hr : i.op ≠ .ret) :
    Leads m f rest i (m.program.isConstructor f.block pc) m' := by
  cases h with
  | loadIdent id hc => exact .stay [_] rfl rfl rfl ⟨rfl, ⟨[], rfl, rfl⟩, rfl, by rw [hc]; rfl⟩
  | construct id hc _ =>
    obtain ⟨gs, hg, hlen⟩ := closeGroup_eq f
    rw [hg]
    exact .stay [_] rfl rfl rfl ⟨rfl, ⟨[], rfl, rfl⟩, rfl, by rw [hc]; exact hlen⟩
  | store n ho => exact .stay [] rfl rfl rfl ⟨rfl, ⟨[_, _], ho, rfl⟩, rfl, rfl⟩
  | loadConst hv => exact .stay [_] rfl rfl rfl ⟨rfl, ⟨[], rfl, rfl⟩, rfl, rfl⟩
  | createStruct | addField | beginStruct => exact .stay [] rfl rfl rfl ⟨rfl, ⟨[], rfl, rfl⟩, rfl, rfl⟩
  | @storeField id v j os ho =>
    obtain ⟨gs, hg, hlen⟩ := addField_eq (setOperands f os) ⟨id, m.name id, some v⟩
    rw [hg]
    exact .stay [] rfl rfl rfl ⟨rfl, ⟨[_], ho, rfl⟩, rfl, hlen⟩
  | makeArray ho hv => exact .stay [_] rfl rfl rfl ⟨rfl, ⟨_, ho, by simp [Instr.takes]⟩, rfl, rfl⟩
  | makeFn hp ho hids => exact .stay [_] rfl rfl rfl ⟨rfl, ⟨_ :: _, ho, by simp [Instr.takes]⟩, rfl, rfl⟩
  | @invoke as os vs c j ho hv _ _ =>
    have htaken : f.operands = (as.reverse ++ [⟨some (.closure c), j⟩]) ++ os := by simp [ho]
    exact .enter c rfl rfl rfl ⟨rfl, ⟨_, htaken, by simp [Instr.takes]⟩, rfl, rfl⟩
      ⟨⟨some (.closure c), j⟩, by simp [ho], rfl⟩ rfl rfl rfl rfl rfl
  | @ask as os vs callee a ho hv _ =>
    have htaken : f.operands = (as.reverse ++ [callee]) ++ os := by simp [ho]
    exact .ask rfl rfl rfl ⟨rfl, ⟨_, htaken, by simp [Instr.takes]⟩, rfl, rfl⟩
  | arith a n hop ho hv =>
    subst hop
    cases a <;> exact .stay [_] rfl rfl rfl ⟨rfl, ⟨[_, _], ho, rfl⟩, rfl, rfl⟩
  | loadField id ho => exact .stay [_] rfl rfl rfl ⟨rfl, ⟨[_], ho, rfl⟩, rfl, rfl⟩
  | retNone | ret => exact absurd rfl hr

/-- Where an instruction that succeeds leaves the frames, if it is to leave the shapes `T`. A call leaves
    the result out, which comes when the function is left or the host replies. -/
inductive Lands (m : Machine) (f : Frame) (rest : List Frame) (T : List Shape) (m' : Machine) : Prop
  | stay (g : Frame) : m'.frames = g :: rest → SameRun f g → Shapes T g.operands → m'.awaiting = m.awaiting →
      Lands m f rest T m'
  | ask (g : Frame) (S : List Shape) : T = .any :: S → m'.frames = g :: rest → SameRun f g → Shapes S g.operands →
      m'.awaiting = true → Lands m f rest T m'
  | enter (c : Closure) (callee g : Frame) (S : List Shape) : T = .any :: S → m'.frames = callee :: g :: rest →
      SameRun f g → Shapes S g.operands → m'.awaiting = m.awaiting →
      (∃ o ∈ f.operands, o.value = some (.closure c)) → callee.block = c.proto.block → callee.pc = 0 →
      callee.operands = [] → callee.unit = f.unit → callee.returns = true → Lands m f rest T m'

theorem shapes_take {T : List Shape} (h : Shapes (S ++ T) (as ++ os)) (hl : as.length = S.length) : Shapes T os := by
  obtain ⟨as', bs, e, hl', -, hb⟩ := shapes_append h
  obtain ⟨-, rfl⟩ := List.append_inj e (hl.trans hl'.symm)
  exact hb

theorem shapes_any (os : List Operand) : Shapes (List.replicate os.length .any) os := by
  induction os with
  | nil => exact .nil
  | cons o os ih => exact .cons trivial ih

/-- Nothing is to be known of what most instructions leave. -/
theorem lands_any {X : List Shape} (hr : i.op ≠ .ret) (hX : X.length = i.takes)
    (hs : Shapes (X ++ S) f.operands) (hd : Does m f rest stop pc i m') :
    Lands m f rest (List.replicate i.gives .any ++ S) m' := by
  have below {site : Bool} {g : Frame} {given os : List Operand} (h : Serves i site f g given os) : Shapes S os := by
    obtain ⟨as, ho, hlen⟩ := h.taken
    exact shapes_take (ho ▸ hs) (hlen.trans hX.symm)
  cases hd.leads hr with
  | stay given hf hw hgives h =>
    refine .stay _ hf h.run ?_ hw
    rw [h.operands, ← hgives]
    exact List.rel_append (shapes_any given) (below h)
  | ask hf hw hgives h =>
    rw [hgives]
    exact .ask _ S rfl hf h.run (h.operands ▸ below h) hw
  | enter c hf hw hgives h hmem hb hpc ho hu hret =>
    rw [hgives]
    exact .enter c _ _ S rfl hf h.run (h.operands ▸ below h) hw hmem hb hpc ho hu hret

theorem effect_lands (h : Effect keep m.program (i, site) S T) (hs : Shapes S f.operands)
    (hsite : m.program.isConstructor f.block pc = site) (hd : Does m f rest stop pc i m') :
    Lands m f rest T m' := by
  have hr := h.length.1
  cases h with
  | loadIdent id S =>
    cases hd with
    | loadIdent id hc =>
      refine .stay _ rfl ⟨rfl, rfl, rfl, rfl⟩ (.cons ?_ hs) rfl
      simp [Shape.Holds, Operand.loaded, Operand.noIdent]
    | construct id hc _ => rw [hc] at hsite; cases hsite
    | arith a _ ho => cases a <;> cases ho
  | @loadConst k v S hv _ =>
    cases hd with
    | loadConst hv' =>
      cases hv.symm.trans hv'
      exact .stay _ rfl ⟨rfl, rfl, rfl, rfl⟩ (.cons rfl hs) rfl
    | arith a _ ho => cases a <;> cases ho
  | construct | createStruct | addField | beginStruct => exact lands_any (X := []) hr rfl hs hd
  | store n x id S => exact lands_any (X := [x, .named id]) hr rfl hs hd
  | storeField n x S | loadField n x S => exact lands_any (X := [x]) hr rfl hs hd
  | makeArray xs S => exact lands_any hr (by simp [Instr.takes]) hs hd
  | makeFn ids S _ => exact lands_any (X := _ :: _) hr (by simp [Instr.takes]) hs hd
  | call xs x S => exact lands_any (X := xs ++ [x]) hr (by simp [Instr.takes]) (by simpa using hs) hd
  | arith a n x y S ho =>
    subst ho
    cases a <;> exact lands_any (X := [x, y]) hr rfl hs hd

end

end Machine

end Scriptlet

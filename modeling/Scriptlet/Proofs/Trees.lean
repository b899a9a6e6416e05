/-
  Scriptlet.Proofs.Trees — syntax trees in which every node passes a check.

  Assignments, variables, struct types and returns are statements: they leave no value. A tree is
  regular if a statement stands nowhere where a value is needed, only identifiers are assigned to,
  all operators are those of the language, and no part is missing. Each of these is a check of
  single nodes, and `Node.every` makes it one of whole trees.
-/

import Scriptlet.Syntax.Node

namespace Scriptlet

namespace Node

mutual

def every (check : Node → Bool) : Node → Bool
  | .assign l r => check (.assign l r) && l.every check && r.every check
  | .construct type fs => check (.construct type fs) && everyField check fs
  | .array items => check (.array items) && everyNode check items
  | .call callee args => check (.call callee args) && callee.every check && everyNode check args
  | .property object name => check (.property object name) && object.every check
  | .binary op l r => check (.binary op l r) && l.every check && r.every check
  | .function params body => check (.function params body) && everyNode check body
  | .ret (some v) => check (.ret (some v)) && v.every check
  | n => check n
termination_by structural n => n

def everyNode (check : Node → Bool) : List Node → Bool
  | [] => true
  | n :: ns => n.every check && everyNode check ns
termination_by structural ns => ns

def everyField (check : Node → Bool) : List (Text × Node) → Bool
  | [] => true
  | (_, n) :: fs => n.every check && everyField check fs
termination_by structural fs => fs

end

/-! ## Checks -/

def isStatement : Node → Bool
  | .assign .. | .structDef .. | .variable .. | .ret _ => true
  | _ => false

/-- A node that may be an operand, a callee or an object. -/
def isExpr : Node → Bool
  | .ident _ | .int _ | .float _ | .str _ | .call .. | .property .. | .binary .. => true
  | _ => false

/-- The parts of a node whose values it needs. The body of a function is not among them. -/
def operands : Node → List Node
  | .assign l r => [l, r]
  | .construct _ fs => fs.map (·.2)
  | .array items => items
  | .call callee args => callee :: args
  | .property object _ => [object]
  | .binary _ l r => [l, r]
  | .ret (some v) => [v]
  | _ => []

def children : Node → List Node
  | .function _ body => body
  | n => n.operands

/-- No statement stands where the node needs a value. -/
def isPlaced (n : Node) : Bool := n.operands.all (!·.isStatement)

def assignsName : Node → Bool
  | .assign (.ident _) _ => true
  | .assign _ _ => false
  | _ => true

def hasOperator : Node → Bool
  | .binary (.other _) _ _ => false
  | _ => true

def isPresent : Node → Bool
  | .hole => false
  | _ => true

/-- The names that the node itself mentions. Types of fields and variables are not among them. -/
def names : Node → List Text
  | .ident name => [name]
  | .construct type fs => type :: fs.map (·.1)
  | .property _ name => [name]
  | .function params _ => params
  | .structDef name fs => name :: fs.map (·.1)
  | .variable _ name => [name]
  | _ => []

/-- A node that can be compiled, whatever its parts are. -/
def isWhole (n : Node) : Bool := n.hasOperator && n.isPresent

def isRegular (n : Node) : Bool := n.isPlaced && n.assignsName && n.isWhole

/-! ## Checks of whole trees -/

variable {n : Node}

section

variable {check other both : Node → Bool}

theorem check_of_every (h : n.every check = true) : check n = true := by
  cases n with
  | ret v => cases v <;> simp_all [every]
  | _ => simp_all [every]

theorem everyNode_iff {ns : List Node} : everyNode check ns = true ↔ ∀ n ∈ ns, n.every check = true := by
  induction ns with
  | nil => simp [everyNode]
  | cons n ns ih => simp [everyNode, ih]

theorem everyField_iff {fs : List (Text × Node)} :
    everyField check fs = true ↔ ∀ n ∈ fs.map (·.2), n.every check = true := by
  induction fs with
  | nil => simp [everyField]
  | cons f fs ih => simp [everyField, ih]

/-- A tree passes if its root does and all trees directly below. -/
theorem every_iff : n.every check = true ↔ check n = true ∧ ∀ c ∈ n.children, c.every check = true := by
  cases n with
  | ret v => cases v <;> simp [every, children, operands]
  | construct => simp only [every, children, operands, Bool.and_eq_true, everyField_iff]
  | array => simp only [every, children, operands, Bool.and_eq_true, everyNode_iff]
  | function => simp only [every, children, Bool.and_eq_true, everyNode_iff]
  | call => simp [every, children, operands, everyNode_iff, and_assoc]
  | assign => simp [every, children, operands, and_assoc]
  | binary => simp [every, children, operands, and_assoc]
  | property => simp [every, children, operands]
  | _ => simp [every, children, operands]

end

/-! ## Occurrences -/

inductive Occurs (n : Node) : Node → Prop
  | root : Occurs n n
  | child {c m : Node} : c ∈ m.children → Occurs n c → Occurs n m

/-- What passes as a whole passes in its parts. -/
theorem Occurs.every {check : Node → Bool} {n m : Node} (h : n.Occurs m) (hm : m.every check = true) :
    n.every check = true := by
  induction h with
  | root => exact hm
  | child hc _ ih => exact ih ((every_iff.mp hm).2 _ hc)

/-- What holds of a node if it holds of its parts holds of all nodes. -/
theorem induction_children {motive : Node → Prop} (step : ∀ n, (∀ c ∈ n.children, motive c) → motive n) (n : Node) :
    motive n := by
  have none : ∀ c ∈ ([] : List Node), motive c := List.forall_mem_nil _
  have one {v : Node} (hv : motive v) : ∀ c ∈ [v], motive c := List.forall_mem_singleton.mpr hv
  have more {v : Node} {vs : List Node} (hv : motive v) (hvs : ∀ c ∈ vs, motive c) : ∀ c ∈ v :: vs, motive c :=
    List.forall_mem_cons.mpr ⟨hv, hvs⟩
  -- the lists, fields and options in a node have the same property of all nodes in them
  refine @Node.rec motive (fun fs => ∀ c ∈ fs.map (·.2), motive c) (fun ns => ∀ c ∈ ns, motive c)
    (fun v => ∀ c ∈ v.toList, motive c) (fun f => motive f.2) ?ident ?assign ?construct ?array ?call ?property ?binary
    ?function ?structDef ?declaration ?ret ?int ?float ?str ?hole none ?fieldsCons none ?nodesCons none ?valueSome
    ?field n
  case assign | binary =>
    intros
    apply step
    exact more ‹_› (one ‹_›)
  case construct => exact fun type fs hfs => step _ hfs
  case array => exact fun items hs => step _ hs
  case call => exact fun callee args hc hs => step _ (more hc hs)
  case property => exact fun object name ho => step _ (one ho)
  case function => exact fun params body hs => step _ hs
  case ret =>
    intro v hv
    apply step
    cases v with
    | none => exact none
    | some v => exact hv
  case fieldsCons => exact fun f fs hf hfs => more hf hfs
  case nodesCons => exact fun n ns hn hns => more hn hns
  case valueSome => exact fun v hv => one hv
  case field => exact fun name v hv => hv
  all_goals
    intros
    exact step _ none

section

variable {check other both : Node → Bool}

/-- What holds of a node that passes if it holds of its parts holds of all trees that pass. -/
theorem induction_every {motive : Node → Prop} (step : ∀ n, check n = true → (∀ c ∈ n.children, motive c) → motive n)
    (n : Node) (h : n.every check = true) : motive n := by
  induction n using induction_children with
  | step n ih =>
    obtain ⟨hroot, hparts⟩ := every_iff.mp h
    exact step n hroot fun c hc => ih c hc (hparts c hc)

def isValued (check : Node → Bool) (n : Node) : Bool := n.every check && !n.isStatement

theorem mem_children {x : Node} (h : x ∈ n.operands) : x ∈ n.children := by
  cases n with
  | function => cases h
  | _ => exact h

theorem isValued_operands (hcheck : ∀ n, check n = true → n.isPlaced = true) (h : n.every check = true) :
    ∀ x ∈ n.operands, x.isValued check = true := by
  intro x hx
  have hplaced := List.all_eq_true.mp (hcheck n (check_of_every h)) x hx
  exact Bool.and_eq_true_iff.mpr ⟨(every_iff.mp h).2 x (mem_children hx), hplaced⟩

/-- What holds of an expression if it holds of its operands holds of all expressions, where a check keeps statements from
    being operands. -/
theorem induction_operands {motive : Node → Prop} (hcheck : ∀ n, check n = true → n.isPlaced = true)
    (step : ∀ n, n.isValued check = true → (∀ x ∈ n.operands, motive x) → motive n) (n : Node)
    (h : n.isValued check = true) : motive n := by
  induction n using induction_children with
  | step n ih =>
    have hops := isValued_operands hcheck (Bool.and_eq_true_iff.mp h).1
    exact step n h fun x hx => ih x (mem_children hx) (hops x hx)

/-- Two checks of whole trees may be replaced by one that follows from both. -/
theorem every_of_both (h : ∀ n, check n = true → other n = true → both n = true) (n : Node) (hn : n.every check = true)
    (kn : n.every other = true) : n.every both = true := by
  induction n using induction_children with
  | step n ih =>
    obtain ⟨hroot, hparts⟩ := every_iff.mp hn
    obtain ⟨kroot, kparts⟩ := every_iff.mp kn
    exact every_iff.mpr ⟨h n hroot kroot, fun c hc => ih c hc (hparts c hc) (kparts c hc)⟩

theorem everyNode_of_both (h : ∀ n, check n = true → other n = true → both n = true) (ns : List Node)
    (hn : everyNode check ns = true) (kn : everyNode other ns = true) : everyNode both ns = true :=
  everyNode_iff.mpr fun n hmem => every_of_both h n (everyNode_iff.mp hn n hmem) (everyNode_iff.mp kn n hmem)

/-- A check of whole trees may be replaced by a weaker one. -/
theorem every_mono (h : ∀ n, check n = true → other n = true) (hn : n.every check = true) : n.every other = true :=
  every_of_both (fun n hn _ => h n hn) n hn hn

theorem everyNode_mono (h : ∀ n, check n = true → other n = true) {ns : List Node}
    (hn : everyNode check ns = true) : everyNode other ns = true :=
  everyNode_iff.mpr fun n hmem => every_mono h (everyNode_iff.mp hn n hmem)

end

end Node

end Scriptlet

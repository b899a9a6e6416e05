/-
  Scriptlet.Proofs.Meaning — what programs mean, said on their syntax trees.

  A tree is evaluated directly: there is no code, no operand stack and no frame. Parts are
  evaluated from left to right. An identifier without a value evaluates to nothing, which is an
  error only where a value is needed. The fields of a struct instance are evaluated first; then the
  object is made and its fields are reported. A function sees the scopes in which it was made, and
  each call has a scope of its own, in which it binds whatever it assigns to. The value of a call is
  that of the return it executes, else that of the last expression of its body, else none.

  Calls and imports are answered by a host, which knows all actions so far. The only bound is on the
  number of calls inside of each other, on which `Eval.call` recurses.
-/

import Scriptlet.Code.Lower
import Scriptlet.Machine.Action
import Scriptlet.Machine.Arith
import Scriptlet.Machine.Scope

namespace Scriptlet

def Operator.arith? : Operator → Option Arith
  | .add => some .add
  | .sub => some .sub
  | .mul => some .mul
  | .div => some .div
  | .other _ => none

structure Setting where
  ids : Text → Int
  /-- Is a call of a name that has no value a call of the host? -/
  fallback : Bool
  /-- How many calls there may be inside of each other, the program itself included. -/
  limit : Nat
  /-- The answer to the last of the actions so far. -/
  host : List Action → Value

structure FunctionBody where
  params : List Text
  body : List Node
  deriving Inhabited

structure Realm where
  scopes : Scopes
  lastObject : Nat := 0
  fresh : Nat := 0
  functions : List (Ref × FunctionBody) := []
  log : List Action := []

abbrev Eval := ExceptT FaultClass (StateM Realm)

namespace Eval

def emit (a : Action) : Eval Unit := modify fun w => { w with log := w.log ++ [a] }

def the : Option Value → Eval Value
  | some v => return v
  | none => throw .unknownIdent

variable (σ : Setting)

def ask (a : Action) : Eval Value := do
  emit a
  return σ.host (← get).log

def bind (scope : Nat) (name : Text) (v : Value) : Eval Unit :=
  modify fun w => { w with scopes := w.scopes.bind scope (σ.ids name) name (some v) }

/-! ## Objects -/

/-- Makes an object, reports it and then each of its fields. -/
def make (type : Text) (fields : List Field) : Eval Value := do
  let w ← get
  let o : Object := fields.foldl (fun o f => o.setField f.id f.name f.value)
    ⟨.inner w.fresh, w.lastObject + 1, σ.ids type, type, []⟩
  emit (.construct o.id type)
  fields.forM fun f => emit (.storeField o.id f.name f.value)
  modify fun v => { v with lastObject := w.lastObject + 1, fresh := w.fresh + 1 }
  return .object o

/-- Completes a struct instance. If the name of its type has a value, that has to be a struct type
    that has all the fields. -/
def construct (scope : Nat) (type : Text) (fields : List Field) : Eval Value := do
  match (← get).scopes.value? scope (σ.ids type) with
  | some (.structType t) => if fields.all fun f => t.hasField f.id then make σ type fields else throw .typeMismatch
  | some _ => throw .typeMismatch
  | none => make σ type fields

/-- What an object gives for a name: its field, or a method of the host. -/
def member (v : Value) (name : Text) : Eval (Option Value) :=
  match v with
  | .object o => do
    emit (.loadField o.id name)
    return (o.field? (σ.ids name)).getD (some (.host (σ.ids name) name (some o)))
  | _ => throw .typeMismatch

def declare (scope : Nat) (name : Text) (fields : List Text) : Eval Unit := do
  let w ← get
  bind σ scope name (.structType ⟨.inner w.fresh, σ.ids name, name, fields.map σ.ids⟩)
  modify fun v => { v with fresh := w.fresh + 1 }

/-! ## Arithmetic and functions -/

def arith (op : Operator) (u v : Value) : Eval Value :=
  match op.arith? with
  | some a =>
    match a.apply u v with
    | .ok r => return r
    | .error e => throw e.toClass
  | none => throw .badOperand

def close (scope : Nat) (params : List Text) (body : List Node) : Eval Value := do
  let w ← get
  set { w with fresh := w.fresh + 1, functions := (.inner w.fresh, ⟨params, body⟩) :: w.functions }
  return .closure ⟨.inner w.fresh, ⟨0, params.length⟩, params.map σ.ids, w.scopes.chain scope⟩

/-- The scope of a call: the parameters, bound to the arguments. -/
def enter (c : Closure) (name : Text) (params : List Text) (args : List Value) : Eval Nat := do
  let w ← get
  let (scope, scopes) := w.scopes.add name c.scopes
  let scopes := (params.zip args).foldl (fun s (p, v) => s.bind scope (σ.ids p) p (some v)) scopes
  set { w with scopes := scopes }
  return scope

/-! ## Expressions -/

section

-- `invoke` is how functions are called; the recursion over calls inside of each other is tied below
variable (invoke : Closure → Text → List Value → Eval Value)

def apply (f : Option Value) (name : Option Text) (args : List Value) : Eval Value :=
  match f, name with
  | some (.closure c), name => invoke c (name.getD "<anonymous>") args
  | some (.host symbol name none), _ => ask σ (.call symbol name args)
  | some (.host symbol name (some o)), _ => ask σ (.call symbol name (.object o :: args))
  | some (.builtin name), _ =>
    if name = Text.ofString "import" then
      match args with
      | [.str path] => ask σ (.importModule path)
      | [_] => throw .typeMismatch
      | _ => throw .arity
    else throw .notCallable
  | some _, _ => throw .notCallable
  | none, some name => if σ.fallback then ask σ (.call (σ.ids name) name args) else throw .unknownIdent
  | none, none => throw .unknownIdent

def calledAs : Node → Option Text
  | .ident name => some name
  | _ => none

mutual

/-- The value of an expression. Statements have none. -/
def expr (scope : Nat) : Node → Eval (Option Value)
  | .ident name => return (← get).scopes.value? scope (σ.ids name)
  | .construct type fs => do
    let fields ← exprFields scope fs
    some <$> construct σ scope type fields
  | .array items => do
    let vs ← exprs scope items
    return some (.array ((← vs.mapM the).map some))
  | .call callee args => do
    let f ← expr scope callee
    let vs ← exprs scope args
    some <$> apply σ invoke f (calledAs callee) (← vs.mapM the)
  | .property object name => do
    let v ← expr scope object
    member σ (← the v) name
  | .binary op l r => do
    let u ← expr scope l
    let v ← expr scope r
    some <$> arith op (← the u) (← the v)
  | .function params body => some <$> close σ scope params body
  | .int n => return some (.int n)
  | .float x => return some (.float x)
  | .str s => return some (.str s)
  | .assign .. | .structDef .. | .variable .. | .ret _ | .hole => return none
termination_by structural n => n

def exprs (scope : Nat) : List Node → Eval (List (Option Value))
  | [] => return []
  | n :: ns => do
    let v ← expr scope n
    return v :: (← exprs scope ns)
termination_by structural ns => ns

def exprFields (scope : Nat) : List (Text × Node) → Eval (List Field)
  | [] => return []
  | (name, n) :: fs => do
    let v ← the (← expr scope n)
    return ⟨σ.ids name, name, some v⟩ :: (← exprFields scope fs)
termination_by structural fs => fs

end

/-! ## Statements -/

inductive Flow where
  | done
  | value (v : Option Value)
  | returned (v : Value)

def statement (scope : Nat) : Node → Eval Flow
  | .assign (.ident name) r => do
    bind σ scope name (← the (← expr σ invoke scope r))
    return .done
  | .variable type name => do
    bind σ scope name (Lower.initial type)
    return .done
  | .structDef name fs => do
    declare σ scope name (fs.map (·.1))
    return .done
  | .ret none => return .returned .none
  | .ret (some n) => return .returned (← the (← expr σ invoke scope n))
  | n => return .value (← expr σ invoke scope n)

inductive Ended where
  /-- There is none left; the last one that left a value left this one. -/
  | fell (last : Option (Option Value))
  | returned (v : Value)

def statements (scope : Nat) (last : Option (Option Value)) : List Node → Eval Ended
  | [] => return .fell last
  | n :: ns => do
    match ← statement σ invoke scope n with
    | .done => statements scope last ns
    | .value v => statements scope (some v) ns
    | .returned v => return .returned v

def outcome : Ended → Eval Value
  | .returned v => return v
  | .fell none => return .none
  | .fell (some v) => the v

end

/-! ## Calls and programs -/

/-- Calls a function, with room for so many calls inside of each other. -/
def call : Nat → Closure → Text → List Value → Eval Value
  | 0, c, _, args => if args.length ≠ c.params.length then throw .arity else throw .stackOverflow
  | room + 1, c, name, args => do
    if args.length ≠ c.params.length then throw .arity
    let f := ((← get).functions.lookup c.ref).getD default
    let scope ← enter σ c name f.params args
    outcome (← statements σ (call room) scope none f.body)

def program (items : List Node) : Eval Unit := do
  let _ ← statements σ (call σ (σ.limit - 1)) 0 none items
  emit .quit

end Eval

/-- What is bound before a program starts: the functions of the machine and of the host. -/
def Scopes.initial (ids : Text → Int) (hostNames : List Text) : Scopes :=
  hostNames.foldl (fun s name => s.bind 0 (ids name) name (some (.host (ids name) name none)))
    ((⟨#[{ name := "globals" }]⟩ : Scopes).bind 0 (ids "import") "import" (some (.builtin "import")))

def Realm.start (σ : Setting) (hostNames : List Text) : Realm := { scopes := .initial σ.ids hostNames }

end Scriptlet

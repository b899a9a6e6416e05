/-
  Scriptlet.Proofs.Bare — instructions over operations that can crash.

  The operations of a machine are total: where an operand, a constant or a frame may be missing they
  look first. Bare operations do not look: an index has to be in range, only a value that is there has a
  kind and a text, only a number can be made a float, and only a frame that is there can be left. One
  that is used outside of its domain is a `Crash`, from which no instruction recovers.

  `Bare.exec` is `Machine.exec` over such operations, each behind the checks that the instruction makes.
  The two are the same (`Bare.exec_eq`), whatever the operand of the instruction and the frame in which
  it runs, if only the constructor sites ascend.
-/

import Scriptlet.Proofs.Sites

namespace Scriptlet

inductive Crash where
  /-- An index, the end of a slice or a size is out of range. -/
  | index
  /-- The kind or the text of a value that is missing. -/
  | missing
  /-- A value is taken for a float and is none. -/
  | assertion
  | division
  | noFrame

inductive Bare (α : Type) where
  | done (a : α)
  | failed (e : Machine.Stuck)
  | crashed (c : Crash)

namespace Bare

open Machine

variable {α β γ : Type}

instance : Monad Bare where
  pure := done
  bind x k := match x with
    | .done a => k a
    | .failed e => .failed e
    | .crashed c => .crashed c

def of : Except Stuck α → Bare α
  | .ok a => .done a
  | .error e => .failed e

/-- A part that may fail, so that what it fails with is at hand. -/
def attempt : Bare α → Bare (Except Stuck α)
  | .done a => .done (.ok a)
  | .failed e => .done (.error e)
  | .crashed c => .crashed c

theorem done_bind (a : α) (k : α → Bare β) : done a >>= k = k a := rfl

/-- After a part that does not crash, it is enough that what follows does not crash. -/
theorem of_bind {x : Except Stuck α} {k : α → Bare β} {l : α → Except Stuck β} (h : ∀ a, k a = of (l a)) :
    of x >>= k = of (x >>= l) := by
  cases x with
  | error e => rfl
  | ok a => exact h a

/-- The same for a part that gives its result in another form. -/
theorem of_map_bind {x : Except Stuck α} {g : α → γ} {k : γ → Bare β} {l : α → Except Stuck β}
    (h : ∀ a, k (g a) = of (l a)) : of (x.map g) >>= k = of (x >>= l) := by
  cases x with
  | error e => rfl
  | ok a => exact h a

theorem map_bind (x : Except Stuck α) (l : α → Except Stuck β) (g : β → γ) :
    (x >>= l).map g = x >>= fun a => (l a).map g := by
  cases x <;> rfl

theorem inFrame_bind (f : Frame) (x : Except Fault α) (l : α → Except Fault β) :
    inFrame f (x >>= l) = inFrame f x >>= fun a => inFrame f (l a) := by
  cases x <;> rfl

theorem attempt_of (x : Except Stuck α) : attempt (of x) = .done x := by cases x <;> rfl

/-! ## Lists -/

def nth (l : List α) (i : Int) : Bare α :=
  match Program.nth? l i with
  | some a => .done a
  | none => .crashed .index

def slice (l : List α) (lo hi : Int) : Bare (List α) :=
  if 0 ≤ lo ∧ lo ≤ hi ∧ hi ≤ l.length then .done ((l.take hi.toNat).drop lo.toNat) else .crashed .index

def allocate (n : Int) : Bare (List (Option α)) :=
  if 0 ≤ n then .done (List.replicate n.toNat none) else .crashed .index

def put (l : List α) (i : Nat) (a : α) : Bare (List α) :=
  if i < l.length then .done (l.set i a) else .crashed .index

def top (l : List α) : Bare α := nth l.reverse (l.length - 1)

def below (l : List α) : Bare (List α) := List.reverse <$> slice l.reverse 0 (l.length - 1)

theorem nth_eq {l : List α} {n : Nat} {a : α} (h : l[n]? = some a) : nth l n = .done a := by
  have hn : Program.nth? l n = some a := h
  rw [nth, hn]

theorem slice_eq {l : List α} {lo hi : Nat} (hle : lo ≤ hi) (hlen : hi ≤ l.length) :
    slice l lo hi = .done ((l.take hi).drop lo) :=
  if_pos ⟨Int.natCast_nonneg lo, Int.ofNat_le.mpr hle, Int.ofNat_le.mpr hlen⟩

theorem length_cons_sub_one (a : α) (l : List α) : ((a :: l).length : Int) - 1 = (l.length : Nat) := by
  rw [List.length_cons]
  omega

theorem top_cons (a : α) (l : List α) : top (a :: l) = .done a := by
  rw [top, length_cons_sub_one]
  exact nth_eq (by simp)

theorem below_cons (a : α) (l : List α) : below (a :: l) = .done l := by
  rw [below, length_cons_sub_one]
  have hs : slice (a :: l).reverse (0 : Nat) l.length = .done l.reverse := by
    rw [slice_eq (Nat.zero_le _) (by simp)]
    simp
  rw [show (0 : Int) = (0 : Nat) from rfl, hs]
  exact congrArg done (List.reverse_reverse l)

/-! ## Values -/

def kind : Option Value → Bare ValueKind
  | some v => .done v.kind
  | none => .crashed .missing

def isNumeric (v : Option Value) : Bare Bool := do
  if v.isNone then return false
  let k ← kind v
  return k == .int || k == .float

def toFloat : Option Value → Bare Binary64
  | some (.int n) => .done (Arith.ofInt n)
  | some (.float x) => .done x
  | _ => .crashed .assertion

def quotient (x y : Int64) : Bare Int64 := if y = 0 then .crashed .division else .done (x / y)

/-- Strings are quoted, and what is missing has a text of its own. All else has the text that is given. -/
def quotedOr (v : Option Value) (text : Bare Text) : Bare Text :=
  match v with
  | some (.str s) => .done (Text.quoted s)
  | v => if v.isNone then .done Value.unresolved else text

mutual

def text : Value → Bare Text
  | .array items => do return "[" ++ Text.join ", " (← reprAll items) ++ "]"
  | .object o => textObject o
  | v => .done v.text
termination_by structural v => v

def textPlace : Option Value → Bare Text
  | some v => text v
  | none => .crashed .missing
termination_by structural v => v

def reprAll : List (Option Value) → Bare (List Text)
  | [] => .done []
  | v :: vs => do
    let t ← quotedOr v (textPlace v)
    return t :: (← reprAll vs)
termination_by structural vs => vs

def textObject : ObjectOf Value → Bare Text
  | ⟨_, id, _, typeName, fields⟩ => do
    return typeName ++ "#" ++ Text.ofInt id ++ " \x7b " ++ Text.join ", " (← reprFields fields) ++ " \x7d"
termination_by structural o => o

def reprFields : List (FieldOf Value) → Bare (List Text)
  | [] => .done []
  | ⟨_, name, v⟩ :: fs => do
    let t ← quotedOr v (textPlace v)
    return (name ++ ": " ++ t) :: (← reprFields fs)
termination_by structural fs => fs

end

def repr (v : Option Value) : Bare Text := quotedOr v (textPlace v)

/-- Strings alone are shown in another way where they are quoted. -/
theorem quotedOr_text (v : Value) : quotedOr (some v) (.done v.text) = .done (Value.renderPlace (some v)) := by
  cases v with
  | host _ _ receiver => cases receiver <;> rfl
  | _ => rfl

mutual

theorem text_eq : ∀ v : Value, text v = .done v.text
  | .array items => by rw [text, reprAll_eq items]; rfl
  | .object o => by rw [text, textObject_eq o]; rfl
  | .none | .int _ | .float _ | .str _ | .bool _ | .proto _ | .closure _ | .structType _ | .host .. | .builtin _ => rfl

theorem quotedPlace_eq : ∀ v : Option Value, quotedOr v (textPlace v) = .done (Value.renderPlace v)
  | Option.none => rfl
  | some v => by rw [textPlace, text_eq v, quotedOr_text]

theorem reprAll_eq : ∀ vs : List (Option Value), reprAll vs = .done (Value.renderAll vs)
  | [] => rfl
  | v :: vs => by rw [reprAll, quotedPlace_eq v, reprAll_eq vs]; rfl

theorem textObject_eq : ∀ o : ObjectOf Value, textObject o = .done (Value.renderObject o)
  | ⟨_, _, _, _, fields⟩ => by rw [textObject, reprFields_eq fields]; rfl

theorem reprFields_eq : ∀ fs : List (FieldOf Value), reprFields fs = .done (Value.renderFields fs)
  | [] => rfl
  | ⟨_, _, v⟩ :: fs => by rw [reprFields, quotedPlace_eq v, reprFields_eq fs]; rfl

end

theorem repr_eq (v : Option Value) : repr v = .done (Value.repr v) := quotedPlace_eq v

/-! ## Arithmetic -/

def onInts (f : Frame) (a : Arith) (x y : Int64) : Bare Value :=
  match a with
  | .add => return .int (x + y)
  | .sub => return .int (x - y)
  | .mul => return .int (x * y)
  | .div => do
    if y = 0 then .failed ⟨.divisionByZero, f⟩
    return .int (← quotient x y)

def areNumeric (u v : Option Value) : Bare Bool := do
  if ← isNumeric u then isNumeric v else return false

def apply (f : Frame) (a : Arith) (u v : Option Value) : Bare Value := do
  match a, u, v with
  | .add, some (.str s), some (.str t) => return .str (s ++ t)
  | a, u, v =>
    if ← areNumeric u v then
      match u, v with
      | some (.int x), some (.int y) => onInts f a x y
      | u, v => return a.onFloats (← toFloat u) (← toFloat v)
    else .failed ⟨.operands (← kind u) a.op (← kind v), f⟩

theorem onInts_eq (f : Frame) (a : Arith) (x y : Int64) : onInts f a x y = of (inFrame f (a.onInts x y)) := by
  cases a with
  | div =>
    unfold onInts Arith.onInts quotient
    by_cases hy : y = 0
    · simp only [hy, if_true]
      rfl
    · simp only [hy, if_false]
      rfl
  | _ => rfl

theorem apply_eq (f : Frame) (a : Arith) (u v : Value) : apply f a (some u) (some v) = of (inFrame f (a.apply u v)) := by
  cases u with
  | int x =>
    cases v with
    | int y =>
      have hints := onInts_eq f a x y
      cases a <;> exact hints
    | _ => cases a <;> rfl
  | _ => cases v <;> cases a <;> rfl

/-! ## Operands -/

def pop? (f : Frame) : Bare (Option (Operand × Frame)) :=
  if f.operands.length = 0 then .done none
  else do
    let o ← top f.operands
    let os ← below f.operands
    return some (o, { f with operands := os })

def popN? (f : Frame) (n : Int) : Bare (Option (List Operand × Frame)) :=
  if n < 0 || f.operands.length < n then .done none
  else do
    let os ← slice f.operands.reverse (f.operands.length - n) f.operands.length
    let rest ← slice f.operands.reverse 0 (f.operands.length - n)
    return some (os, { f with operands := rest.reverse })

def popOperand (f : Frame) : Bare (Operand × Frame) := do
  match ← pop? f with
  | some p => return p
  | none => .failed ⟨.underflow, f⟩

def popOperands (f : Frame) (n : Int) : Bare (List Operand × Frame) := do
  match ← popN? f n with
  | some p => return p
  | none => .failed ⟨.underflow, f⟩

def value (m : Machine) (f : Frame) (o : Operand) : Bare (Option Value) :=
  if o.isResolved then return o.value else .failed ⟨.unbound (m.identName o.ident), f⟩

def popValue (m : Machine) (f : Frame) : Bare (Option Value × Frame) := do
  let (o, f) ← popOperand f
  return (← value m f o, f)

def fill (m : Machine) (f : Frame) (i : Nat) (vs : List (Option Value)) : List Operand → Bare (List (Option Value))
  | [] => return vs
  | o :: os => do
    let v ← value m f o
    let vs ← put vs i v
    fill m f (i + 1) vs os

def popValues (m : Machine) (f : Frame) (n : Int) : Bare (List (Option Value) × Frame) := do
  let (os, f) ← popOperands f n
  let vs ← allocate n
  return (← fill m f 0 vs os, f)

def popResult (m : Machine) (f : Frame) : Bare (Option Value × Frame) := do
  match ← pop? f with
  | none => return (some .none, f)
  | some (o, f) => return (← value m f o, f)

theorem pop?_eq (f : Frame) : pop? f = .done f.pop? := by
  unfold pop? Frame.pop?
  cases f.operands with
  | nil => rfl
  | cons o os =>
    rw [top_cons, below_cons]
    rfl

theorem popN?_eq (f : Frame) (n : Int) : popN? f n = .done (f.popN? n) := by
  unfold popN? Frame.popN?
  split
  · rfl
  · rename_i hn
    rw [Bool.or_eq_true, decide_eq_true_eq, decide_eq_true_eq, not_or, Int.not_lt, Int.not_lt] at hn
    obtain ⟨k, rfl⟩ := Int.eq_ofNat_of_zero_le hn.1
    have hk : k ≤ f.operands.length := Int.ofNat_le.mp hn.2
    have hat : (f.operands.length : Int) - (k : Int) = (f.operands.length - k : Nat) := by omega
    have hos : slice f.operands.reverse (f.operands.length - k : Nat) f.operands.length
        = .done (f.operands.take k).reverse := by
      rw [slice_eq (Nat.sub_le _ _) (by simp), List.take_of_length_le (by simp), List.drop_reverse, Nat.sub_sub_self hk]
    have hrest : slice f.operands.reverse (0 : Nat) (f.operands.length - k : Nat) = .done (f.operands.drop k).reverse := by
      rw [slice_eq (Nat.zero_le _) (by simp), List.drop_zero, List.take_reverse, Nat.sub_sub_self hk]
    rw [hat, hos, show (0 : Int) = (0 : Nat) from rfl, hrest]
    simp [bind, pure]

theorem popOperand_eq (f : Frame) : popOperand f = of (Machine.popOperand f) := by
  unfold popOperand Machine.popOperand
  rw [pop?_eq]
  cases f.pop? <;> rfl

theorem popOperands_eq (f : Frame) (n : Int) : popOperands f n = of (Machine.popOperands f n) := by
  unfold popOperands Machine.popOperands
  rw [popN?_eq]
  cases f.popN? n <;> rfl

theorem value_eq (m : Machine) (f : Frame) (o : Operand) : value m f o = of ((inFrame f (m.resolved o)).map some) := by
  unfold value Machine.resolved Operand.isResolved
  cases o.value <;> rfl

theorem popValue_eq (m : Machine) (f : Frame) :
    popValue m f = of ((m.popValue f).map fun p => (some p.1, p.2)) := by
  unfold popValue Machine.popValue
  rw [popOperand_eq, map_bind]
  refine of_bind fun p => ?_
  obtain ⟨o, g⟩ := p
  simp only [value_eq, map_bind]
  exact of_map_bind fun v => rfl

theorem fill_eq (m : Machine) (f : Frame) (us : List Value) (os : List Operand) :
    fill m f us.length (us.map some ++ List.replicate os.length none) os
      = of ((inFrame f (os.mapM m.resolved)).map fun vs => (us ++ vs).map some) := by
  induction os generalizing us with
  | nil => simp [fill, of, inFrame, Except.mapError, Except.map, pure, Except.pure]
  | cons o os ih =>
    rw [fill, value_eq, List.mapM_cons, inFrame_bind, map_bind]
    refine of_map_bind fun v => ?_
    have hput : put (us.map some ++ List.replicate (o :: os).length none) us.length (some v)
        = .done ((us ++ [v]).map some ++ List.replicate os.length none) := by
      rw [put, if_pos (by simp), List.set_append_right _ _ (by simp)]
      simp [List.replicate_succ]
    have hnext := ih (us ++ [v])
    rw [List.length_append, List.length_singleton] at hnext
    rw [hput, done_bind, hnext]
    cases os.mapM m.resolved with
    | error e => rfl
    | ok vs => simp [inFrame, Except.mapError, bind, Except.bind, pure, Except.pure, Except.map]

theorem popValues_eq (m : Machine) (f : Frame) (n : Int) :
    popValues m f n = of ((m.popValues f n).map fun p => (p.1.map some, p.2)) := by
  unfold popValues Machine.popValues
  rw [popOperands_eq]
  cases hp : Machine.popOperands f n with
  | error e => rfl
  | ok p =>
    obtain ⟨rfl, -⟩ := popOperands_ok.mp hp
    have halloc : allocate (p.1.length : Int) = .done (List.replicate p.1.length (none : Option Value)) :=
      if_pos (Int.natCast_nonneg _)
    have hfill : fill m p.2 0 (List.replicate p.1.length none) p.1 = _ := fill_eq m p.2 [] p.1
    change (allocate (p.1.length : Int) >>= fun vs => fill m p.2 0 vs p.1 >>= fun vs => pure (vs, p.2))
      = of ((inFrame p.2 (p.1.mapM m.resolved) >>= fun vs => pure (vs, p.2)).map _)
    rw [halloc, done_bind, hfill, map_bind]
    exact of_map_bind fun vs => rfl

theorem popResult_eq (m : Machine) (f : Frame) :
    popResult m f = of ((m.popResult f).map fun p => (some p.1, p.2)) := by
  unfold popResult Machine.popResult
  rw [pop?_eq]
  cases f.pop? with
  | none => rfl
  | some p =>
    change (value m p.2 p.1 >>= fun v => pure (v, p.2)) = of ((inFrame p.2 (m.resolved p.1) >>= fun v => pure (v, p.2)).map _)
    rw [value_eq, map_bind]
    exact of_map_bind fun v => rfl

/-! ## Groups, blocks and sites -/

def addField (f : Frame) (fd : Field) : Bare Frame := do
  let gs := if f.groups.length = 0 then [[]] else f.groups
  let g ← top gs
  return { f with groups := (g ++ [fd]) :: gs.tail }

def closeGroup (f : Frame) : Bare (List Field × Frame) :=
  if f.groups.length = 0 then .done ([], f)
  else do
    let g ← top f.groups
    let gs ← below f.groups
    return (g, { f with groups := gs })

def const? (p : Program) (id : Int) : Bare (Option Value) :=
  if id < 0 || p.consts.length ≤ id then .done none else some <$> nth p.consts id

def slot? (p : Program) (id : Int) : Bare (Option Slot) :=
  if id < 0 || p.slots.length ≤ id then .done none else some <$> nth p.slots id

def block? (p : Program) (id : Int) : Bare (Option Block) := do
  return (← slot? p id).map fun s => s.code.getD []

/-- The first of the sites from `lo` to `hi` that is not before `pc`. -/
def search (sites : List Nat) (pc : Int) (lo hi : Nat) : Bare Nat :=
  if lo < hi then do
    let site ← nth sites ((lo + hi) / 2 : Nat)
    if (site : Int) < pc then search sites pc ((lo + hi) / 2 + 1) hi else search sites pc lo ((lo + hi) / 2)
  else .done lo
termination_by hi - lo

def isConstructor (p : Program) (id pc : Int) : Bare Bool := do
  match ← slot? p id with
  | none => return false
  | some s =>
    let sites := s.sites.getD []
    let i ← search sites pc 0 sites.length
    if i < sites.length then
      let site ← nth sites i
      return site == pc
    else return false

theorem addField_eq (f : Frame) (fd : Field) : addField f fd = .done (f.addField fd) := by
  unfold addField Frame.addField
  cases f.groups with
  | nil => rfl
  | cons g gs =>
    simp only [List.length_cons, Nat.succ_ne_zero, if_false, top_cons]
    rfl

theorem closeGroup_eq (f : Frame) : closeGroup f = .done f.closeGroup := by
  unfold closeGroup Frame.closeGroup
  cases f.groups with
  | nil => rfl
  | cons g gs =>
    rw [top_cons, below_cons]
    rfl

/-- A number that is checked against the ends of a list has an element there. -/
theorem checked_nth (l : List α) (id : Int) :
    (if id < 0 || l.length ≤ id then .done none else some <$> nth l id) = (.done (Program.nth? l id) : Bare (Option α)) := by
  cases id with
  | negSucc k => rw [if_pos (by simp [Int.negSucc_lt_zero]), Program.nth?]
  | ofNat k =>
    by_cases hk : k < l.length
    · have hget : l[k]? = some l[k] := List.getElem?_eq_getElem hk
      rw [if_neg (by simpa using hk)]
      change some <$> nth l k = .done l[k]?
      rw [nth_eq hget, hget]
      rfl
    · rw [if_pos (by simp [Nat.le_of_not_lt hk])]
      exact congrArg done (List.getElem?_eq_none (Nat.le_of_not_lt hk)).symm

theorem const?_eq (p : Program) (id : Int) : const? p id = .done (p.const? id) := checked_nth p.consts id

theorem slot?_eq (p : Program) (id : Int) : slot? p id = .done (p.slot? id) := checked_nth p.slots id

theorem block?_eq (p : Program) (id : Int) : block? p id = .done (p.block? id) := by
  rw [block?, slot?_eq]
  rfl

theorem search_eq {sites : List Nat} {pc : Int} {lo hi : Nat} (h : hi ≤ sites.length) :
    search sites pc lo hi = .done (bisect sites pc lo hi) := by
  have probe {lo hi : Nat} (hlt : lo < hi) (hlen : hi ≤ sites.length) :
      nth sites ((lo + hi) / 2 : Nat) = .done (sites.getD ((lo + hi) / 2) 0) := by
    have hmid : (lo + hi) / 2 < sites.length := by omega
    rw [List.getD_eq_getElem?_getD, List.getElem?_eq_getElem hmid]
    exact nth_eq (List.getElem?_eq_getElem hmid)
  fun_induction bisect sites pc lo hi with
  | case1 lo hi hlt hbefore ih =>
    rw [search, if_pos hlt, probe hlt h]
    change (if _ then _ else _) = _
    rw [if_pos hbefore]
    exact ih h
  | case2 lo hi hlt hbehind ih =>
    rw [search, if_pos hlt, probe hlt h]
    change (if _ then _ else _) = _
    rw [if_neg hbehind]
    exact ih (by omega)
  | case3 lo hi hge => rw [search, if_neg hge]

theorem isConstructor_eq {p : Program} (h : p.Ascending) (id pc : Int) :
    isConstructor p id pc = .done (p.isConstructor id pc) := by
  unfold isConstructor Program.isConstructor Program.sites?
  rw [slot?_eq]
  cases hs : p.slot? id with
  | none => rfl
  | some s =>
    have hmem : s ∈ p.slots := by
      cases id with
      | ofNat n => exact List.mem_of_getElem? hs
      | negSucc n => cases hs
    have hfinds : s.finds pc = (s.sites.getD []).any fun (site : Nat) => site == pc := by
      rw [Bool.eq_iff_iff, Slot.finds_iff (h s hmem), List.any_eq_true]
      simp only [beq_iff_eq]
    change (search (s.sites.getD []) pc 0 _ >>= _) = .done ((s.sites.getD []).any _)
    rw [search_eq (Nat.le_refl _), ← hfinds]
    change (if _ then _ else _) = done (Option.any _ _)
    split
    · rename_i hi
      have hget := List.getElem?_eq_getElem hi
      rw [nth_eq hget, hget]
      rfl
    · rename_i hi
      rw [List.getElem?_eq_none (Nat.le_of_not_lt hi)]
      rfl

/-! ## Instructions -/

section

variable (m : Machine) (f : Frame) (rest : List Frame)

/-- Binds an identifier; the text of its value goes into the trace. -/
def bindTag (scopes : Scopes) (i : Nat) (id : Int) (name : Text) (v : Option Value) : Bare Scopes := do
  let _ ← repr v
  return scopes.bind i id name v

def construct (id : Int) : Bare Machine := do
  let (fields, g) ← closeGroup f
  match m.scopes.value? f.scope id with
  | some (.structType t) =>
    match fields.find? fun fd => !t.hasField fd.id with
    | some fd => .failed ⟨.noSuchField t.name fd.name, g⟩
    | none => return m.newObject g rest id fields
  | some _ => .failed ⟨.notStructType (m.name id), g⟩
  | none => return m.newObject g rest id fields

def store : Bare Machine := do
  let (v, f) ← popValue m f
  let (target, f) ← popOperand f
  match target.ident with
  | some id =>
    let scopes ← bindTag m.scopes f.scope id (m.name id) (Value.copyPlace v)
    return { m with scopes := scopes, frames := f :: rest }
  | none =>
    let _ ← repr target.value
    .failed ⟨.notAssignable target.value, f⟩

def loadConst (id : Int) : Bare Machine := do
  match ← const? m.program id with
  | some v => return m.withFrames (f.pushValue v.copy :: rest)
  | none => .failed ⟨.noConst id, f⟩

def createStruct (id : Int) : Bare Machine := do
  let t : StructType := ⟨.inner m.fresh, id, m.name id, m.declared⟩
  let scopes ← bindTag m.scopes f.scope id t.name (some (.structType t))
  return { m with
    declared := []
    registry := m.registry.define t
    scopes := scopes
    fresh := m.fresh + 1
    frames := f :: rest }

def storeField (id : Int) : Bare Machine := do
  let (v, f) ← popValue m f
  let f ← addField f ⟨id, m.name id, v⟩
  return m.withFrames (f :: rest)

def makeArray (n : Int) : Bare Machine := do
  let (vs, f) ← popValues m f n
  return m.withFrames (f.pushValue (.array vs) :: rest)

def makeFn (n : Int) : Bare Machine := do
  match ← popValue m f with
  | (some (.proto p), f) =>
    if p.params ≠ n then .failed ⟨.protoParams p.params n, f⟩
    else
      let (os, f) ← popOperands f n
      let params ← of (inFrame f (os.mapM param))
      let c : Closure := ⟨.inner m.fresh, p, params, m.scopes.chain f.scope⟩
      return { m with fresh := m.fresh + 1, frames := f.pushValue (.closure c) :: rest }
  | (v, f) => .failed ⟨.notProto (← kind v), f⟩

def present : Option Value → Bare Value
  | some v => .done v
  | none => .crashed .missing

def presentAll : List (Option Value) → Bare (List Value)
  | [] => .done []
  | v :: vs => do
    let v ← present v
    return v :: (← presentAll vs)

def bindParams (s : Nat) (args : List (Option Value)) (i : Nat) (scopes : Scopes) : List Int → Bare Scopes
  | [] => .done scopes
  | id :: ids => do
    let v ← nth args i
    let scopes ← bindTag scopes s id (m.name id) v
    bindParams s args (i + 1) scopes ids

def callClosure (c : Closure) (ident : Option Int) (args : List (Option Value)) : Bare Machine :=
  if args.length ≠ c.params.length then .failed ⟨.argumentCount c.params.length args.length, f⟩
  else if m.limit ≤ rest.length + 1 then .failed ⟨.frameLimit m.limit, f⟩
  else do
    let name := (ident.map m.name).getD "<anonymous>"
    let (s, scopes) := m.scopes.add name c.scopes
    let scopes ← bindParams m s args 0 scopes c.params
    let callee : Frame := { name := name, unit := f.unit, block := c.proto.block, scope := s, returns := true }
    return { m with scopes := scopes, frames := callee :: f :: rest }

def callBuiltin (name : Text) (args : List (Option Value)) : Bare Machine :=
  if name ≠ importName then .failed ⟨.unknownBuiltin name, f⟩
  else if args.length ≠ 1 then .failed ⟨.importCount args.length, f⟩
  else do
    match ← nth args 0 with
    | some (.str path) => return m.await f rest (.importModule path)
    | _ => .failed ⟨.importPathNotStr, f⟩

def call (n : Int) : Bare Machine := do
  let (args, f) ← popValues m f n
  let (callee, f) ← popOperand f
  match callee.value, callee.ident with
  | some (.closure c), ident => callClosure m f rest c ident args
  | some (.host symbol name none), _ => return m.await f rest (.call symbol name (← presentAll args))
  | some (.host symbol name (some o)), _ =>
    return m.await f rest (.call symbol name (.object o :: (← presentAll args)))
  | some (.builtin name), _ => callBuiltin m f rest name args
  | some v, _ => do
    let _ ← repr (some v)
    .failed ⟨.notCallable v, f⟩
  | none, some id => do
    if m.fallback then return m.await f rest (.call id (m.name id) (← presentAll args))
    else .failed ⟨.unbound (m.name id), f⟩
  | none, none => .failed ⟨.unbound [], f⟩

def loadField (id : Int) : Bare Machine := do
  match ← popValue m f with
  | (some (.object o), f) =>
    let m := m.put (.loadField o.id (m.name id))
    let o := match o.field? id with
      | some v => Operand.mk (Value.copyPlace v) none
      | none => ⟨some (.host id (m.name id) (some o)), none⟩
    return m.withFrames (f.push o :: rest)
  | (v, f) => .failed ⟨.noFields (m.name id) (← kind v), f⟩

def arith (a : Arith) : Bare Machine := do
  let (v, f) ← popValue m f
  let (u, f) ← popValue m f
  return m.withFrames (f.pushValue (← apply f a u v) :: rest)

def ret (stop : Nat) : Bare Machine := do
  let (v, f) ← popResult m f
  return m.withFrames ({ f with result := v, pc := stop } :: rest)

def exec (stop pc : Nat) (i : Instr) : Bare Machine :=
  match i.op with
  | .loadIdent => do
    if ← isConstructor m.program f.block pc then construct m f rest i.arg
    else return m.loadIdent f rest i.arg
  | .store => store m f rest
  | .loadConst => loadConst m f rest i.arg
  | .createStruct => createStruct m f rest i.arg
  | .addField => return { m with declared := m.declared ++ [i.arg], frames := f :: rest }
  | .storeField => storeField m f rest i.arg
  | .makeArray => makeArray m f rest i.arg
  | .makeFn => makeFn m f rest i.arg
  | .call => call m f rest i.arg
  | .add => arith m f rest .add
  | .sub => arith m f rest .sub
  | .mul => arith m f rest .mul
  | .div => arith m f rest .div
  | .beginStruct => return m.withFrames (f.openGroup :: rest)
  | .loadField => loadField m f rest i.arg
  | .ret => ret m f rest stop
  | .unknown code _ => .failed ⟨.unknownOp code, f⟩

end

section

variable (m : Machine) (f : Frame) (rest : List Frame)

theorem bindTag_eq (scopes : Scopes) (i : Nat) (id : Int) (name : Text) (v : Option Value) :
    bindTag scopes i id name v = .done (scopes.bind i id name v) := by
  rw [bindTag, repr_eq]
  rfl

theorem construct_eq (id : Int) : construct m f rest id = of (m.construct f rest id) := by
  unfold construct Machine.construct
  rw [closeGroup_eq, done_bind]
  simp only
  cases m.scopes.value? f.scope id with
  | none => rfl
  | some v =>
    cases v with
    | structType t =>
      simp only
      cases f.closeGroup.1.find? (fun fd => !t.hasField fd.id) <;> rfl
    | _ => rfl

theorem store_eq : store m f rest = of (m.store f rest) := by
  unfold store Machine.store
  rw [popValue_eq]
  refine of_map_bind fun p => ?_
  simp only [popOperand_eq]
  refine of_bind fun q => ?_
  obtain ⟨⟨value, ident⟩, g⟩ := q
  cases ident with
  | none =>
    simp only [repr_eq, done_bind]
    rfl
  | some id =>
    simp only [bindTag_eq, done_bind]
    rfl

theorem loadConst_eq (id : Int) : loadConst m f rest id = of (m.loadConst f rest id) := by
  unfold loadConst Machine.loadConst
  rw [const?_eq]
  cases m.program.const? id <;> rfl

theorem createStruct_eq (id : Int) : createStruct m f rest id = .done (m.createStruct f rest id) := by
  simp only [createStruct, bindTag_eq, done_bind]
  rfl

theorem storeField_eq (id : Int) : storeField m f rest id = of (m.storeField f rest id) := by
  unfold storeField Machine.storeField
  rw [popValue_eq]
  refine of_map_bind fun p => ?_
  simp only [addField_eq, done_bind]
  rfl

theorem makeArray_eq (n : Int) : makeArray m f rest n = of (m.makeArray f rest n) := by
  unfold makeArray Machine.makeArray
  rw [popValues_eq]
  exact of_map_bind fun p => rfl

theorem makeFn_eq (n : Int) : makeFn m f rest n = of (m.makeFn f rest n) := by
  unfold makeFn Machine.makeFn
  rw [popValue_eq]
  refine of_map_bind fun p => ?_
  obtain ⟨v, g⟩ := p
  cases v with
  | proto p =>
    change (if p.params ≠ n then _ else _) = of (if p.params ≠ n then _ else _)
    by_cases hn : p.params ≠ n
    · rw [if_pos hn, if_pos hn]
      rfl
    · rw [if_neg hn, if_neg hn, popOperands_eq]
      exact of_bind fun q => of_bind fun params => rfl
  | _ => rfl

theorem presentAll_eq (vs : List Value) : presentAll (vs.map some) = .done vs := by
  induction vs with
  | nil => rfl
  | cons v vs ih =>
    rw [List.map_cons, presentAll, ih]
    rfl

/-- Every parameter has an argument, the one at its own place. -/
theorem bindParams_eq (s : Nat) (before args : List Value) (scopes : Scopes) (ids : List Int)
    (h : ids.length = args.length) :
    bindParams m s ((before ++ args).map some) before.length scopes ids =
      .done ((ids.zip args).foldl (fun scopes (id, v) => scopes.bind s id (m.name id) (some v)) scopes) := by
  induction ids generalizing before args scopes with
  | nil => rfl
  | cons id ids ih =>
    cases args with
    | nil => cases h
    | cons v args =>
      have hv : ((before ++ v :: args).map some)[before.length]? = some (some v) := by simp
      have hrest := ih (before ++ [v]) args (scopes.bind s id (m.name id) (some v)) (Nat.succ.inj h)
      rw [List.append_assoc, List.length_append] at hrest
      rw [bindParams, nth_eq hv, done_bind, bindTag_eq, done_bind]
      exact hrest

theorem callClosure_eq (c : Closure) (ident : Option Int) (args : List Value) :
    callClosure m f rest c ident (args.map some) = of (m.callClosure f rest c ident args) := by
  unfold callClosure Machine.callClosure
  rw [List.length_map]
  by_cases hn : args.length ≠ c.params.length
  · rw [if_pos hn, if_pos hn]
    rfl
  · rw [if_neg hn, if_neg hn]
    by_cases hl : m.limit ≤ rest.length + 1
    · rw [if_pos hl, if_pos hl]
      rfl
    · rw [if_neg hl, if_neg hl]
      have hbind (s : Nat) (scopes : Scopes) := bindParams_eq m s [] args scopes c.params (Decidable.not_not.mp hn).symm
      simp only [List.nil_append, List.length_nil] at hbind
      simp only [hbind, done_bind]
      rfl

theorem callBuiltin_eq (name : Text) (args : List Value) :
    callBuiltin m f rest name (args.map some) = of (m.callBuiltin f rest name args) := by
  unfold callBuiltin Machine.callBuiltin
  rw [List.length_map]
  by_cases hn : name ≠ importName
  · rw [if_pos hn, if_pos hn]
    rfl
  · rw [if_neg hn, if_neg hn]
    cases args with
    | nil => rfl
    | cons v vs =>
      cases vs with
      | nil => cases v <;> rfl
      | cons w vs =>
        rw [if_pos (show (v :: w :: vs).length ≠ 1 by simp)]
        cases v <;> rfl

theorem call_eq (n : Int) : call m f rest n = of (m.call f rest n) := by
  unfold call Machine.call
  rw [popValues_eq]
  refine of_map_bind fun p => ?_
  obtain ⟨args, g⟩ := p
  simp only [popOperand_eq]
  refine of_bind fun q => ?_
  obtain ⟨⟨value, ident⟩, k⟩ := q
  simp only [presentAll_eq, repr_eq, done_bind]
  cases value with
  | none =>
    cases ident with
    | none => rfl
    | some id => cases m.fallback <;> rfl
  | some v =>
    cases v with
    | closure c => exact callClosure_eq m k rest c ident args
    | builtin name => exact callBuiltin_eq m k rest name args
    | host symbol name receiver => cases receiver <;> rfl
    | _ => rfl

theorem loadField_eq (id : Int) : loadField m f rest id = of (m.loadField f rest id) := by
  unfold loadField Machine.loadField
  rw [popValue_eq]
  refine of_map_bind fun p => ?_
  obtain ⟨v, g⟩ := p
  cases v <;> rfl

theorem arith_eq (a : Arith) : arith m f rest a = of (m.arith f rest a) := by
  unfold arith Machine.arith
  rw [popValue_eq]
  refine of_map_bind fun p => ?_
  simp only [popValue_eq]
  refine of_map_bind fun q => ?_
  rw [apply_eq]
  exact of_bind fun r => rfl

theorem ret_eq (stop : Nat) : ret m f rest stop = of (m.ret f rest stop) := by
  unfold ret Machine.ret
  rw [popResult_eq]
  exact of_map_bind fun p => rfl

/-- An instruction does not crash, whatever its operand and the frame in which it runs. -/
theorem exec_eq (h : m.program.Ascending) (stop pc : Nat) (i : Instr) :
    exec m f rest stop pc i = of (m.exec f rest stop pc i) := by
  unfold exec Machine.exec
  cases i.op with
  | loadIdent =>
    simp only [isConstructor_eq h, done_bind]
    cases m.program.isConstructor f.block pc with
    | true => exact construct_eq m f rest i.arg
    | false => rfl
  | store => exact store_eq m f rest
  | loadConst => exact loadConst_eq m f rest i.arg
  | createStruct => exact createStruct_eq m f rest i.arg
  | storeField => exact storeField_eq m f rest i.arg
  | makeArray => exact makeArray_eq m f rest i.arg
  | makeFn => exact makeFn_eq m f rest i.arg
  | call => exact call_eq m f rest i.arg
  | add | sub | mul | div => exact arith_eq m f rest _
  | loadField => exact loadField_eq m f rest i.arg
  | ret => exact ret_eq m f rest stop
  | addField | beginStruct | unknown => rfl

end

end Bare

end Scriptlet

/-
  Scriptlet.Proofs.Renaming — other numbers for identifiers and blocks.

  Values carry numbers of identifiers (fields, parameters, types, functions of the host) and of
  blocks (functions and their prototypes). A renaming replaces them everywhere inside of a value,
  a scope or an action. As long as different identifiers stay different, nothing that code does
  with values can tell: looking up and binding identifiers (`Scopes.value?_rename`,
  `Scopes.bind_rename`), fields (`Value.field?_rename`), new objects (`Registry.newObject_rename`)
  and arithmetic (`Arith.apply_rename`) commute with it.
-/

import Mathlib.Logic.Function.Basic
import Scriptlet.Proofs.Instruction

namespace Scriptlet

structure Renaming where
  ident : Int → Int := id
  block : Int → Int := id
  unit : Text → Text := id

/-- Different identifiers stay different. -/
def Renaming.Faithful (ρ : Renaming) : Prop := Function.Injective ρ.ident

def Renaming.anyBlock : Renaming := { block := fun _ => 0 }

theorem Renaming.anyBlock_faithful : anyBlock.Faithful := Function.injective_id

variable {ρ : Renaming}

theorem Renaming.Faithful.beq (h : ρ.Faithful) (a b : Int) : (ρ.ident a == ρ.ident b) = (a == b) := by
  rw [Bool.eq_iff_iff, beq_iff_eq, beq_iff_eq, h.eq_iff]

/-! ## Values -/

section

variable (ρ : Renaming)

def Proto.rename (p : Proto) : Proto := { p with block := ρ.block p.block }

def Closure.rename (c : Closure) : Closure :=
  { c with proto := c.proto.rename ρ, params := c.params.map ρ.ident }

def StructType.rename (t : StructType) : StructType :=
  { t with id := ρ.ident t.id, fields := t.fields.map ρ.ident }

namespace Value

mutual

def rename : Value → Value
  | .array items => .array (renameItems items)
  | .proto p => .proto (p.rename ρ)
  | .closure c => .closure (c.rename ρ)
  | .structType t => .structType (t.rename ρ)
  | .object o => .object (renameObject o)
  | .host symbol name receiver => .host (ρ.ident symbol) name (renameReceiver receiver)
  | .none => .none
  | .int n => .int n
  | .float x => .float x
  | .str s => .str s
  | .bool b => .bool b
  | .builtin name => .builtin name
termination_by structural v => v

def renamePlace : Option Value → Option Value
  | Option.none => Option.none
  | some v => some v.rename
termination_by structural v => v

def renameItems : List (Option Value) → List (Option Value)
  | [] => []
  | v :: vs => renamePlace v :: renameItems vs
termination_by structural vs => vs

def renameReceiver : Option (ObjectOf Value) → Option (ObjectOf Value)
  | Option.none => Option.none
  | some o => some (renameObject o)
termination_by structural o => o

def renameObject : ObjectOf Value → ObjectOf Value
  | ⟨ref, id, type, typeName, fields⟩ => ⟨ref, id, ρ.ident type, typeName, renameFields fields⟩
termination_by structural o => o

def renameFields : List (FieldOf Value) → List (FieldOf Value)
  | [] => []
  | ⟨id, name, v⟩ :: fs => ⟨ρ.ident id, name, renamePlace v⟩ :: renameFields fs
termination_by structural fs => fs

end

def renameField (f : Field) : Field := ⟨ρ.ident f.id, f.name, renamePlace ρ f.value⟩

variable {ρ}

theorem renamePlace_eq (v : Option Value) : renamePlace ρ v = v.map (rename ρ) := by cases v <;> rfl

theorem renameItems_eq (vs : List (Option Value)) : renameItems ρ vs = vs.map (renamePlace ρ) := by
  induction vs with
  | nil => rfl
  | cons v vs ih => rw [renameItems, ih, List.map_cons]

theorem renameFields_eq (fs : List Field) : renameFields ρ fs = fs.map (renameField ρ) := by
  induction fs with
  | nil => rfl
  | cons f fs ih => rw [renameFields, ih, List.map_cons, renameField]

theorem renameObject_fields (o : Object) : (renameObject ρ o).fields = o.fields.map (renameField ρ) := by
  cases o
  exact renameFields_eq _

theorem renameObject_id (o : Object) : (renameObject ρ o).id = o.id := by cases o; rfl

end Value

end

namespace Arith

theorem onInts_rename (a : Arith) (x y : Int64) : (a.onInts x y).map (Value.rename ρ) = a.onInts x y := by
  cases a with
  | div =>
    simp only [onInts]
    split <;> rfl
  | _ => rfl

theorem onFloats_rename (a : Arith) (x y : Binary64) : (a.onFloats x y).rename ρ = a.onFloats x y := by
  cases a <;> rfl

/-- The numbers of identifiers and blocks play no part in arithmetic. -/
theorem apply_rename (a : Arith) (u v : Value) :
    a.apply (u.rename ρ) (v.rename ρ) = (a.apply u v).map (Value.rename ρ) := by
  cases u with
  | str s =>
    cases v with
    | str t =>
      simp only [apply, Value.rename]
      split <;> rfl
    | _ => rfl
  | int x =>
    cases v with
    | int y => exact (onInts_rename a x y).symm
    | float y => exact congrArg Except.ok (onFloats_rename a _ y).symm
    | _ => rfl
  | float x =>
    cases v with
    | int y => exact congrArg Except.ok (onFloats_rename a x _).symm
    | float y => exact congrArg Except.ok (onFloats_rename a x y).symm
    | _ => rfl
  | _ => cases v <;> rfl

end Arith

/-! ## Plain data -/

namespace Value

mutual

/-- Numbers, texts, truth values, none, and arrays of them. -/
def isPlain : Value → Bool
  | .none | .int _ | .float _ | .str _ | .bool _ => true
  | .array items => arePlain items
  | _ => false
termination_by structural v => v

def isPlainPlace : Option Value → Bool
  | Option.none => true
  | some v => v.isPlain
termination_by structural v => v

def arePlain : List (Option Value) → Bool
  | [] => true
  | v :: vs => isPlainPlace v && arePlain vs
termination_by structural vs => vs

end

mutual

theorem rename_plain : ∀ {v : Value}, v.isPlain = true → v.rename ρ = v
  | .array items, h => by rw [rename, renameItems_plain h]
  | .none, _ | .int _, _ | .float _, _ | .str _, _ | .bool _, _ => rfl

theorem renamePlace_plain : ∀ {v}, isPlainPlace v = true → renamePlace ρ v = v
  | Option.none, _ => rfl
  | some v, h => by rw [renamePlace, rename_plain h]

theorem renameItems_plain : ∀ {vs}, arePlain vs = true → renameItems ρ vs = vs
  | [], _ => rfl
  | v :: vs, h => by
    simp only [arePlain, Bool.and_eq_true] at h
    rw [renameItems, renamePlace_plain h.1, renameItems_plain h.2]

end

end Value

/-! ## Objects -/

namespace Value

theorem field?_rename (h : ρ.Faithful) (o : Object) (id : Int) :
    (renameObject ρ o).field? (ρ.ident id) = (o.field? id).map (renamePlace ρ) := by
  unfold ObjectOf.field?
  rw [renameObject_fields, List.find?_map]
  have : ((fun f : Field => f.id == ρ.ident id) ∘ renameField ρ) = fun f => f.id == id := by
    funext f
    exact h.beq f.id id
  rw [this]
  cases o.fields.find? fun f => f.id == id <;> rfl

theorem setIn_rename (h : ρ.Faithful) (id : Int) (name : Text) (v : Option Value) (fs : List Field) :
    (ObjectOf.setIn id name v fs).map (renameField ρ)
      = ObjectOf.setIn (ρ.ident id) name (renamePlace ρ v) (fs.map (renameField ρ)) := by
  induction fs with
  | nil => rfl
  | cons f fs ih =>
    simp only [ObjectOf.setIn, List.map_cons]
    have hid : (renameField ρ f).id = ρ.ident id ↔ f.id = id := h.eq_iff
    by_cases e : f.id = id
    · rw [if_pos e, if_pos (hid.mpr e)]
      rfl
    · rw [if_neg e, if_neg (hid.not.mpr e), List.map_cons, ih]

theorem setField_rename (h : ρ.Faithful) (o : Object) (id : Int) (name : Text) (v : Option Value) :
    renameObject ρ (o.setField id name v) = (renameObject ρ o).setField (ρ.ident id) name (renamePlace ρ v) := by
  obtain ⟨ref, n, type, typeName, fields⟩ := o
  simp only [ObjectOf.setField, renameObject, renameFields_eq, setIn_rename h]

end Value

theorem StructType.hasField_rename (h : ρ.Faithful) (t : StructType) (id : Int) :
    (t.rename ρ).hasField (ρ.ident id) = t.hasField id := by
  rw [hasField, hasField, Bool.eq_iff_iff, List.contains_iff_mem, List.contains_iff_mem]
  exact List.mem_map_of_injective h

namespace Registry

/-- A new object with renamed fields is the renamed object. -/
theorem newObject_rename (h : ρ.Faithful) {r s : Registry} (hl : s.last = r.last) (ref : Ref) (type : Int) (name : Text)
    (fields : List Field) :
    (s.newObject ref (ρ.ident type) name (fields.map (Value.renameField ρ))).1
      = Value.renameObject ρ (r.newObject ref type name fields).1 := by
  unfold newObject
  rw [hl]
  have fold (o : Object) :
      (fields.map (Value.renameField ρ)).foldl (fun (o : Object) (f : Field) => o.setField f.id f.name f.value)
          (Value.renameObject ρ o)
        = Value.renameObject ρ (fields.foldl (fun (o : Object) (f : Field) => o.setField f.id f.name f.value) o) := by
    induction fields generalizing o with
    | nil => rfl
    | cons f fs ih =>
      simp only [List.map_cons, List.foldl_cons]
      rw [← ih, Value.setField_rename h]
      rfl
  exact fold ⟨ref, r.last + 1, type, name, []⟩

end Registry

/-! ## Scopes -/

section

variable (ρ : Renaming)

def Tag.rename (t : Tag) : Tag := ⟨ρ.ident t.id, t.name, t.value.map (Value.rename ρ)⟩

def Table.rename (t : Table) : Table := ⟨t.tags.map (Tag.rename ρ)⟩

def Scope.rename (s : Scope) : Scope := { s with table := s.table.rename ρ }

def Scopes.rename (s : Scopes) : Scopes := ⟨s.list.map (Scope.rename ρ)⟩

end

namespace Table

theorem resolve?_rename (h : ρ.Faithful) (t : Table) (id : Int) :
    (t.rename ρ).resolve? (ρ.ident id) = (t.resolve? id).map (Tag.rename ρ) := by
  unfold resolve? rename
  rw [List.find?_map]
  congr 2
  funext u
  exact h.beq u.id id

theorem insert_rename (h : ρ.Faithful) (t : Table) (u : Tag) :
    (t.insert u).rename ρ = (t.rename ρ).insert (u.rename ρ) := by
  unfold insert rename
  congr 1
  induction t.tags with
  | nil => rfl
  | cons x xs ih =>
    simp only [putIn, List.map_cons]
    have hid : (x.rename ρ).id = (u.rename ρ).id ↔ x.id = u.id := h.eq_iff
    by_cases e : x.id = u.id
    · rw [if_pos e, if_pos (hid.mpr e), List.map_cons]
    · rw [if_neg e, if_neg (hid.not.mpr e), List.map_cons, ih]

theorem bind_rename (h : ρ.Faithful) (t : Table) (id : Int) (name : Text) (v : Option Value) :
    (t.bind id name v).rename ρ = (t.rename ρ).bind (ρ.ident id) name (v.map (Value.rename ρ)) := by
  unfold bind
  rw [resolve?_rename h]
  cases t.resolve? id with
  | none => exact insert_rename h t _
  | some u => exact insert_rename h t _

end Table

namespace Scopes

theorem get?_rename (s : Scopes) (i : Nat) : (s.rename ρ).get? i = (s.get? i).map (Scope.rename ρ) := by
  simp [rename, get?]

theorem chain_rename (s : Scopes) (i : Nat) : (s.rename ρ).chain i = s.chain i := by
  unfold chain
  rw [get?_rename]
  cases s.get? i <;> rfl

theorem table_rename (s : Scopes) (i : Nat) : (s.rename ρ).table i = (s.table i).rename ρ := by
  unfold table
  rw [get?_rename]
  cases s.get? i <;> rfl

theorem add_rename (s : Scopes) (name : Text) (outer : List Nat) :
    (s.rename ρ).add name outer = ((s.add name outer).1, (s.add name outer).2.rename ρ) := by
  simp [rename, add, Scope.rename, Table.rename]

theorem bind_rename (h : ρ.Faithful) (s : Scopes) (i : Nat) (id : Int) (name : Text) (v : Option Value) :
    (s.bind i id name v).rename ρ = (s.rename ρ).bind i (ρ.ident id) name (v.map (Value.rename ρ)) := by
  unfold bind update rename
  congr 1
  refine Array.ext_getElem? fun j => ?_
  simp only [Array.getElem?_map, Array.getElem?_modify]
  by_cases e : i = j
  · simp only [e, if_true]
    cases s.list[j]? with
    | none => rfl
    | some c => simp [Scope.rename, Table.bind_rename h]
  · simp only [e, if_false]

/-- Looking up commutes with renaming. -/
theorem value?_rename (h : ρ.Faithful) (s : Scopes) (i : Nat) (id : Int) :
    (s.rename ρ).value? i (ρ.ident id) = (s.value? i id).map (Value.rename ρ) := by
  unfold value? resolve? resolveIn?
  simp only [chain_rename, table_rename, Table.resolve?_rename h]
  induction s.chain i with
  | nil => rfl
  | cons j js ih =>
    simp only [List.findSome?_cons]
    cases (s.table j).resolve? id with
    | none => exact ih
    | some t => rfl

end Scopes

/-! ## Actions -/

def Action.rename (ρ : Renaming) : Action → Action
  | .storeField id field v => .storeField id field (Value.renamePlace ρ v)
  | .call symbol name args => .call (ρ.ident symbol) name (args.map (Value.rename ρ))
  | .construct id type => .construct id type
  | .destruct id => .destruct id
  | .loadField id field => .loadField id field
  | .importModule path => .importModule path
  | .quit => .quit

end Scriptlet

/-
  Scriptlet.Proofs.Equality — what equality looks at, and copies.

  (1) Values are equal if and only if they agree in what equality looks at (`essence`) and none of them has a
      not-a-number in it (`equalPlace_iff`), so that all laws of equality are those of `=`.
  (2) Copies are interchangeable with their originals, and so is what an instruction puts where it copies a
      constant, an operand or a field (`copies_exec`).
-/

import Scriptlet.Proofs.Instruction

namespace Scriptlet

/-- What numeric equality looks at: the bits, but that the zeros are one. -/
def Binary64.essence (x : Binary64) : Binary64 := if x.isZero then .zero else x

theorem Binary64.equal_iff {x y : Binary64} :
    x.equal y = true ↔ x.essence = y.essence ∧ x.isNaN = false ∧ y.isNaN = false := by
  have hagree : x.essence = y.essence ↔ x.bits = y.bits ∨ x.isZero = true ∧ y.isZero = true := by
    have hzero : Binary64.zero.isZero = true := by decide
    unfold essence
    obtain ⟨a⟩ := x
    obtain ⟨b⟩ := y
    by_cases hx : Binary64.isZero ⟨a⟩ = true <;> by_cases hy : Binary64.isZero ⟨b⟩ = true <;> simp only [hx, hy]
    · simp
    · simp only [if_true, Bool.false_eq_true, if_false, and_false, or_false]
      exact ⟨fun h => absurd (h ▸ hzero) hy, fun h => absurd (h ▸ hx) hy⟩
    · simp only [if_true, Bool.false_eq_true, if_false, false_and, or_false]
      exact ⟨fun h => absurd (h ▸ hzero) hx, fun h => absurd (h ▸ hy) hx⟩
    · simp
  rw [hagree]
  simp only [equal, Bool.and_eq_true, Bool.or_eq_true, Bool.not_eq_true', beq_iff_eq]
  tauto

namespace Value

/-! ## (1) Equality -/

mutual

/-- Is there a not-a-number in the value, at any depth of arrays? -/
def hasNaN : Value → Bool
  | .float x => x.isNaN
  | .array items => anyNaN items
  | _ => false
termination_by structural v => v

def placeNaN : Option Value → Bool
  | Option.none => false
  | some v => v.hasNaN
termination_by structural v => v

def anyNaN : List (Option Value) → Bool
  | [] => false
  | v :: vs => placeNaN v || anyNaN vs
termination_by structural vs => vs

end

mutual

/-- What equality looks at: of functions, types and objects their identity alone. -/
def essence : Value → Value
  | .float x => .float x.essence
  | .array items => .array (essences items)
  | .closure c => .closure ⟨c.ref, default, [], []⟩
  | .structType t => .structType ⟨t.ref, 0, [], []⟩
  | .object o => .object ⟨o.ref, 0, 0, [], []⟩
  | .host symbol name receiver => .host symbol name (receiver.map fun o => ⟨o.ref, 0, 0, [], []⟩)
  | v => v
termination_by structural v => v

def essencePlace : Option Value → Option Value
  | Option.none => Option.none
  | some v => some v.essence
termination_by structural v => v

def essences : List (Option Value) → List (Option Value)
  | [] => []
  | v :: vs => essencePlace v :: essences vs
termination_by structural vs => vs

end

theorem receiver_iff {r q : Option Object} : r.map (·.ref) = q.map (·.ref) ↔
    r.map (fun o => (⟨o.ref, 0, 0, [], []⟩ : Object)) = q.map fun o => ⟨o.ref, 0, 0, [], []⟩ := by
  cases r <;> cases q <;> simp

mutual

theorem equal_iff (u v : Value) : u.equal v = true ↔ u.essence = v.essence ∧ u.hasNaN = false ∧ v.hasNaN = false := by
  cases u with
  | array xs => cases v <;> simp [equal, essence, hasNaN, equalAll_iff xs]
  | float x => cases v <;> simp [equal, essence, hasNaN, Binary64.equal_iff]
  | host s n r => cases v <;> simp [equal, essence, hasNaN, ← receiver_iff, and_assoc]
  | _ => cases v <;> simp [equal, essence, hasNaN]

theorem equalPlace_iff (u v : Option Value) :
    equalPlace u v = true ↔ essencePlace u = essencePlace v ∧ placeNaN u = false ∧ placeNaN v = false := by
  cases u with
  | none => cases v <;> simp [equalPlace, essencePlace, placeNaN]
  | some u => cases v <;> simp [equalPlace, essencePlace, placeNaN, equal_iff u]

theorem equalAll_iff (us vs : List (Option Value)) :
    equalAll us vs = true ↔ essences us = essences vs ∧ anyNaN us = false ∧ anyNaN vs = false := by
  cases us with
  | nil => cases vs <;> simp [equalAll, essences, anyNaN]
  | cons u us =>
    cases vs with
    | nil => simp [equalAll, essences]
    | cons v vs =>
      simp only [equalAll, essences, anyNaN, Bool.and_eq_true, Bool.or_eq_false_iff, List.cons.injEq, equalPlace_iff u,
        equalAll_iff us]
      tauto

end

/-! ## (2) Copies -/

/-- What is in the places cannot be told apart by comparing it with anything, by its text or by copying it. -/
structure Interchangeable (v w : Option Value) : Prop where
  equal (u : Option Value) : equalPlace v u = equalPlace w u ∧ equalPlace u v = equalPlace u w
  text : repr v = repr w
  copy : copyPlace v = copyPlace w

theorem interchangeable_copy (v : Option Value) : Interchangeable (copyPlace v) v := by
  rw [copyPlace_eq]
  exact ⟨fun _ => ⟨rfl, rfl⟩, rfl, rfl⟩

end Value

namespace Machine

open Value (equalPlace copyPlace placeNaN Interchangeable interchangeable_copy)

variable (m : Machine) (f : Frame) (rest : List Frame)

/-- What the instruction made of the machine, where it copies: the constant that is loaded, the value that a variable
    gets, and the field that is loaded, if the object has it, are copies that are interchangeable with the originals. -/
def Copies (i : Instr) (m' : Machine) : Prop :=
  match i.op with
  | .loadConst => ∃ v : Value, m.program.const? i.arg = some v ∧
      m' = m.withFrames (f.pushValue v.copy :: rest) ∧ Interchangeable (some v.copy) (some v)
  | .store => ∃ v j t id os, f.operands = ⟨some v, j⟩ :: ⟨t, some id⟩ :: os ∧
      m' = { m with
        scopes := m.scopes.bind f.scope id (m.name id) (some v.copy), frames := setOperands f os :: rest } ∧
      Interchangeable (some v.copy) (some v)
  | .loadField => ∃ o j os, f.operands = ⟨some (.object o), j⟩ :: os ∧ ∀ v, o.field? i.arg = some v →
      m'.frames = (setOperands f os).push ⟨copyPlace v, none⟩ :: rest ∧ Interchangeable (copyPlace v) v
  | _ => True

variable {m f rest} {stop pc : Nat} {i : Instr} {m' : Machine}

theorem copies_exec (h : m.exec f rest stop pc i = .ok m') : m.Copies f rest i m' := by
  cases exec_ok h with
  | @loadConst id v hv => exact ⟨v, hv, by rw [Value.copy_eq], interchangeable_copy (some v)⟩
  | @store n v j t id os hf => exact ⟨v, j, t, id, os, hf, by rw [Value.copy_eq], interchangeable_copy (some v)⟩
  | @loadField id o j os hf =>
    refine ⟨o, j, os, hf, fun v hv => ⟨?_, interchangeable_copy v⟩⟩
    simp only [withFrames, member, hv, Value.copyPlace_eq]
  | @arith a o n u v r j k os ho hf hr =>
    subst ho
    cases a <;> trivial
  | _ => trivial

/-- Equality is symmetric and transitive, and what is equal to itself is what has no not-a-number in it. Copies are
    equal to the same values as their originals, have the same text and the same copies; and this holds of what the
    instructions copy. -/
theorem equality_coherent (u v w : Option Value) :
    equalPlace u v = equalPlace v u ∧
    (equalPlace u v = true → equalPlace v w = true → equalPlace u w = true) ∧
    (equalPlace v v = true ↔ placeNaN v = false) ∧
    equalPlace (copyPlace v) w = equalPlace v w ∧ Value.repr (copyPlace v) = Value.repr v ∧
    copyPlace (copyPlace v) = copyPlace v ∧
    ∀ m f rest stop pc i m', Machine.exec m f rest stop pc i = .ok m' → m.Copies f rest i m' := by
  have hcopy := interchangeable_copy v
  refine ⟨?_, fun huv hvw => ?_, ?_, (hcopy.equal w).1, hcopy.text, hcopy.copy, fun _ _ _ _ _ _ _ h => copies_exec h⟩
  · rw [Bool.eq_iff_iff, Value.equalPlace_iff, Value.equalPlace_iff, eq_comm, and_comm (a := placeNaN u = false)]
  · obtain ⟨huv, hu, -⟩ := (Value.equalPlace_iff u v).mp huv
    obtain ⟨hvw, -, hw⟩ := (Value.equalPlace_iff v w).mp hvw
    exact (Value.equalPlace_iff u w).mpr ⟨huv.trans hvw, hu, hw⟩
  · rw [Value.equalPlace_iff]
    simp

/-- An array with a zero of the sign, and with an object that has a field or none, but always one identity. -/
def signed (negative : Bool) : Value :=
  .array [none, some (.float (.withSign negative 0)),
    some (.array [some (.object ⟨.inner 0, 1, 0, "Ball", if negative then [] else [⟨4, "x", none⟩]⟩)])]

def holding : Machine := { program := { consts := [signed true] } }

def idle : Frame := { name := [], block := 0, scope := 0 }

theorem equality_coherent_signed :
    equalPlace (some (signed true)) (some (signed false)) = true ∧
      equalPlace (some (signed false)) (some (signed true)) = true ∧
      equalPlace (some (signed true)) (some (signed true)) = true ∧
      ∃ m', holding.exec idle [] 1 0 ⟨.loadConst, 0⟩ = .ok m' ∧ holding.Copies idle [] ⟨.loadConst, 0⟩ m' := by
  have hleft : equalPlace (some (signed true)) (some (signed false)) = true := by decide
  have hright : equalPlace (some (signed false)) (some (signed true)) = true := by decide
  obtain ⟨-, htrans, -, -, -, -, hexec⟩ :=
    equality_coherent (some (signed true)) (some (signed false)) (some (signed true))
  exact ⟨hleft, hright, htrans hleft hright, _, rfl, hexec _ _ _ 1 0 _ _ rfl⟩

-- A not-a-number is not equal to itself, also two arrays deep.
example : equalPlace (some (.array [some (.array [some (.float .nan)])]))
    (some (.array [some (.array [some (.float .nan)])])) = false := by decide

end Machine

end Scriptlet

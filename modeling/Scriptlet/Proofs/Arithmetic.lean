/-
  Scriptlet.Proofs.Arithmetic — what the four operations give, and when they fail.

  (1) On integers an operation gives the exact result modulo `2 ^ 64`, and a quotient is exact but for
      the one that does not fit (`onInts_ok`).
  (2) `Gives` lists what an operation can come to, by the operands alone; `apply_gives` says that
      nothing else happens.
  (3) A machine that comes to an operation in the middle of a step replaces the operands by the
      result, or halts there, behind the operation and without its operands (`Reckons.halts`).
-/

import Scriptlet.Proofs.Discipline
import Scriptlet.Proofs.Driving

namespace Scriptlet

variable {a : Arith} {v : Value}

namespace Arith

/-! ## (1) Integers -/

/-- `z` is `n` modulo `2 ^ 64`, in the range of 64-bit integers. -/
def Reduces (n z : Int) : Prop :=
  -0x8000000000000000 ≤ z ∧ z ≤ 0x7FFFFFFFFFFFFFFF ∧ 0x10000000000000000 ∣ z - n

/-- What an operation is to give on integers. Division truncates towards zero, and the negation of the least integer,
    which is too large, is that integer again. -/
def OnIntegers : Arith → Int → Int → Int → Prop
  | .add, x, y, z => Reduces (x + y) z
  | .sub, x, y, z => Reduces (x - y) z
  | .mul, x, y, z => Reduces (x * y) z
  | .div, x, y, z => z = if x = -0x8000000000000000 ∧ y = -1 then x else x.tdiv y

theorem reduces_of_bmod {n z : Int} (h : z = n.bmod (2 ^ 64)) : Reduces n z := by
  obtain ⟨hlow, hhigh, hdvd⟩ := (Int.bmod_eq_iff (by decide)).mp h.symm
  refine ⟨?_, ?_, ?_⟩
  · simpa using hlow
  · omega
  · exact hdvd

theorem toInt_div_truncates (x y : Int64) :
    (x / y).toInt = if x.toInt = -0x8000000000000000 ∧ y.toInt = -1 then x.toInt else x.toInt.tdiv y.toInt := by
  have hleast : x.toInt = -0x8000000000000000 ↔ x = Int64.minValue := by
    rw [← Int64.toInt_inj]
    rfl
  have hminus : y.toInt = -1 ↔ y = -1 := by
    rw [← Int64.toInt_inj]
    rfl
  split
  · rename_i h
    rw [hleast, hminus] at h
    rw [h.1, h.2]
    rfl
  · rename_i h
    rw [hleast, hminus, not_and_or] at h
    rcases h with h | h
    · exact Int64.toInt_div_of_ne_left x y h
    · exact Int64.toInt_div_of_ne_right x y h

theorem onInts_ok {x y : Int64} (hy : a = .div → y ≠ 0) :
    ∃ z : Int64, a.onInts x y = .ok (.int z) ∧ a.OnIntegers x.toInt y.toInt z.toInt := by
  cases a with
  | add => exact ⟨x + y, rfl, reduces_of_bmod (Int64.toInt_add x y)⟩
  | sub => exact ⟨x - y, rfl, reduces_of_bmod (Int64.toInt_sub x y)⟩
  | mul => exact ⟨x * y, rfl, reduces_of_bmod (Int64.toInt_mul x y)⟩
  | div => exact ⟨x / y, if_neg (hy rfl), toInt_div_truncates x y⟩

theorem onFloats_float (a : Arith) (x y : Binary64) : ∃ z, a.onFloats x y = .float z := by
  cases a <;> exact ⟨_, rfl⟩

/-! ## (2) Values -/

def ByZero (a : Arith) (u v : Value) : Prop := a = .div ∧ u.kind = .int ∧ v = .int 0

def Joins (a : Arith) (u v : Value) : Prop := a = .add ∧ u.kind = .str ∧ v.kind = .str

inductive Gives (a : Arith) : Value → Value → Except Fault Value → Prop
  | text (s t : Text) : a = .add → Gives a (.str s) (.str t) (.ok (.str (s ++ t)))
  | integer {x y z : Int64} : (a = .div → y ≠ 0) → a.OnIntegers x.toInt y.toInt z.toInt →
      Gives a (.int x) (.int y) (.ok (.int z))
  | float {u v : Value} (z : Binary64) : u.isNumeric = true → v.isNumeric = true → u.kind = .float ∨ v.kind = .float →
      Gives a u v (.ok (.float z))
  | byZero (x : Int64) : a = .div → Gives a (.int x) (.int 0) (.error .divisionByZero)
  | mismatch {u v : Value} {e : Fault} : e.toClass = .typeMismatch → ¬a.Joins u v →
      ¬(u.isNumeric = true ∧ v.isNumeric = true) → Gives a u v (.error e)

theorem isNumeric_iff : v.isNumeric = true ↔ (∃ x, v = .int x) ∨ ∃ x, v = .float x := by
  cases v <;> simp [Value.isNumeric]

theorem kind_str_iff : v.kind = .str ↔ ∃ s, v = .str s := by
  cases v <;> simp [Value.kind]

theorem kind_int_iff : v.kind = .int ↔ ∃ x, v = .int x := by
  cases v <;> simp [Value.kind]

theorem apply_gives (a : Arith) (u v : Value) : Gives a u v (a.apply u v) := by
  have floats {u v : Value} (x y : Binary64) (hu : u.isNumeric = true) (hv : v.isNumeric = true)
      (h : u.kind = .float ∨ v.kind = .float) : Gives a u v (.ok (a.onFloats x y)) := by
    obtain ⟨z, hz⟩ := onFloats_float a x y
    exact hz ▸ .float z hu hv h
  fun_cases Arith.apply a u v with
  | case1 s t h => exact .text s t h
  | case2 s t h => exact .mismatch rfl (fun hj => h hj.1) (by simp [Value.isNumeric])
  | case3 x y =>
    by_cases hy : a = .div ∧ y = 0
    · obtain ⟨rfl, rfl⟩ := hy
      exact .byZero x rfl
    · have hdivisor : a = .div → y ≠ 0 := fun ha h0 => hy ⟨ha, h0⟩
      obtain ⟨z, hz, hexact⟩ := onInts_ok (x := x) hdivisor
      exact hz ▸ .integer hdivisor hexact
  | case4 x y => exact floats _ _ rfl rfl (.inr rfl)
  | case5 x y => exact floats _ _ rfl rfl (.inl rfl)
  | case6 x y => exact floats _ _ rfl rfl (.inl rfl)
  | case7 u v texts ints intFloat floatInt floatsBoth =>
    refine .mismatch rfl ?_ ?_
    · rintro ⟨-, hu, hv⟩
      obtain ⟨s, rfl⟩ := kind_str_iff.mp hu
      obtain ⟨t, rfl⟩ := kind_str_iff.mp hv
      exact texts s t rfl rfl
    · rintro ⟨hu, hv⟩
      rcases isNumeric_iff.mp hu with ⟨x, rfl⟩ | ⟨x, rfl⟩ <;> rcases isNumeric_iff.mp hv with ⟨y, rfl⟩ | ⟨y, rfl⟩
      · exact ints x y rfl rfl
      · exact intFloat x y rfl rfl
      · exact floatInt x y rfl rfl
      · exact floatsBoth x y rfl rfl

section

variable {u r : Value} {e : Fault}

theorem Gives.succeeds (h : Gives a u v (.ok r)) :
    a.Joins u v ∨ u.isNumeric = true ∧ v.isNumeric = true ∧ ¬a.ByZero u v := by
  cases h with
  | text s t ha => exact .inl ⟨ha, rfl, rfl⟩
  | integer hy =>
    refine .inr ⟨rfl, rfl, ?_⟩
    rintro ⟨ha, -, hv⟩
    exact hy ha (Value.int.inj hv)
  | float z hu hv hf =>
    refine .inr ⟨hu, hv, ?_⟩
    rintro ⟨-, hint, rfl⟩
    rcases hf with hf | hf
    · rw [hint] at hf
      cases hf
    · cases hf

theorem Gives.fails (h : Gives a u v (.error e)) :
    a.ByZero u v ∧ e.toClass = .divisionByZero ∨
      e.toClass = .typeMismatch ∧ ¬a.Joins u v ∧ ¬(u.isNumeric = true ∧ v.isNumeric = true) := by
  cases h with
  | byZero x ha => exact .inl ⟨⟨ha, rfl, rfl⟩, rfl⟩
  | mismatch he hjoin hnum => exact .inr ⟨he, hjoin, hnum⟩

theorem ByZero.isNumeric (h : a.ByZero u v) : u.isNumeric = true ∧ v.isNumeric = true := by
  obtain ⟨-, hu, rfl⟩ := h
  obtain ⟨x, rfl⟩ := kind_int_iff.mp hu
  exact ⟨rfl, rfl⟩

theorem ByZero.not_joins (h : a.ByZero u v) : ¬a.Joins u v := by
  rintro ⟨ha, -⟩
  rw [h.1] at ha
  cases ha

theorem apply_ok_iff :
    (∃ r, a.apply u v = .ok r) ↔ a.Joins u v ∨ u.isNumeric = true ∧ v.isNumeric = true ∧ ¬a.ByZero u v := by
  have hgives := apply_gives a u v
  cases hr : a.apply u v with
  | ok r => exact iff_of_true ⟨r, rfl⟩ (hr ▸ hgives).succeeds
  | error e =>
    refine iff_of_false (by simp) ?_
    rintro (hjoin | ⟨hu, hv, hzero⟩) <;> rcases (hr ▸ hgives).fails with ⟨hzero', -⟩ | ⟨-, hjoin', hnum⟩
    · exact hzero'.not_joins hjoin
    · exact hjoin' hjoin
    · exact hzero hzero'
    · exact hnum ⟨hu, hv⟩

theorem apply_byZero_iff : (∃ e, a.apply u v = .error e ∧ e.toClass = .divisionByZero) ↔ a.ByZero u v := by
  have hgives := apply_gives a u v
  cases hr : a.apply u v with
  | ok r =>
    refine iff_of_false (by simp) fun hzero => ?_
    rcases (hr ▸ hgives).succeeds with hjoin | ⟨-, -, hzero'⟩
    · exact hzero.not_joins hjoin
    · exact hzero' hzero
  | error e =>
    rcases (hr ▸ hgives).fails with ⟨hzero, he⟩ | ⟨he, -, hnum⟩
    · exact iff_of_true ⟨e, rfl, he⟩ hzero
    · refine iff_of_false ?_ fun hzero => hnum hzero.isNumeric
      rintro ⟨e', he', hclass⟩
      cases he'
      rw [he] at hclass
      cases hclass

/-- What an operation gives is determined by the kinds of its operands. -/
theorem Gives.result (h : Gives a u v (.ok r)) :
    (∀ s t, u = .str s → v = .str t → r = .str (s ++ t)) ∧
      (∀ x y, u = .int x → v = .int y → ∃ z, r = .int z ∧ a.OnIntegers x.toInt y.toInt z.toInt) ∧
      (u.kind = .float ∨ v.kind = .float → r.kind = .float) := by
  cases h with
  | text s t =>
    refine ⟨fun s' t' hs ht => ?_, fun x y hx => ?_, ?_⟩
    · rw [Value.str.inj hs, Value.str.inj ht]
    · cases hx
    · simp [Value.kind]
  | @integer x y z _ hz =>
    refine ⟨fun s t hs => ?_, fun x' y' hx hy => ?_, ?_⟩
    · cases hs
    · cases hx
      cases hy
      exact ⟨z, rfl, hz⟩
    · simp [Value.kind]
  | float z hu hv hf =>
    refine ⟨fun s t hs => ?_, fun x y hx hy => ?_, fun _ => rfl⟩
    · rw [hs] at hu
      cases hu
    · rw [hx, hy] at hf
      simp [Value.kind] at hf

end

end Arith

namespace Machine

/-! ## (3) Machines -/

structure Reckons (m : Machine) (a : Arith) (u v : Value) (f : Frame) (rest : List Frame) (n : Int) (os : List Operand) :
    Prop where
  aborted : m.aborted = false
  awaiting : m.awaiting = false
  frames : m.frames = f :: rest
  instr : ∃ code, m.program.block? f.block = some code ∧ code[f.pc]? = some ⟨a.op, n⟩
  operands : ∃ i j, f.operands = ⟨some v, i⟩ :: ⟨some u, j⟩ :: os

section

variable {m k : Machine} {u : Value} {f : Frame} {rest : List Frame} {n : Int} {os : List Operand}

theorem arith_eq {i j : Option Int} (h : f.operands = ⟨some v, i⟩ :: ⟨some u, j⟩ :: os) :
    m.arith f rest a =
      (inFrame (setOperands f os) (a.apply u v)).map fun r => m.withFrames ((setOperands f os).pushValue r :: rest) := by
  simp only [arith, popValue, popOperand, Frame.pop?, h, bind, Except.bind, resolved, pure, Except.pure, inFrame,
    Except.mapError]
  cases a.apply u v <;> rfl

def behindOperation (f : Frame) (os : List Operand) : Frame := { f with pc := f.pc + 1, operands := os }

def reckoned (m : Machine) (f : Frame) (rest : List Frame) (os : List Operand) (r : Value) : Machine :=
  m.withFrames ((behindOperation f os).pushValue r :: rest)

theorem Reckons.tick (h : k.Reckons a u v f rest n os) :
    k.tick .quiet = match a.apply u v with
      | .ok r => .go (k.reckoned f rest os r)
      | .error e => .stop (k.withFrames (behindOperation f os :: rest)) (.fault f.block f.pc ⟨a.op, n⟩ e) := by
  obtain ⟨code, hblock, hinstr⟩ := h.instr
  obtain ⟨i, j, hoperands⟩ := h.operands
  have hexec : k.exec { f with pc := f.pc + 1 } rest code.length f.pc ⟨a.op, n⟩ =
      (inFrame (behindOperation f os) (a.apply u v)).map (k.reckoned f rest os) :=
    (exec_arith a n).trans (arith_eq hoperands)
  rw [tick_instr h.aborted h.frames hblock hinstr, hexec]
  cases a.apply u v with
  | ok r =>
    have hgo : (k.reckoned f rest os r).awaiting = false := h.awaiting
    simp only [inFrame, Except.mapError, Except.map, hgo, Bool.false_eq_true, if_false]
  | error e => rfl

/-- A step that comes to an operation that fails ends there. -/
theorem Reckons.halts {c : Signals} {t : Nat} (h : k.Reckons a u v f rest n os) (hm : m.IsReady) (hp : Passes c m t k)
    (hc : c t = .quiet) {e : Fault} (he : a.apply u v = .error e) :
    m.step c = (.error (.failed (.fault f.block f.pc ⟨a.op, n⟩ e)),
      (k.withFrames (behindOperation f os :: rest)).halt (.fault f.block f.pc ⟨a.op, n⟩ e)) := by
  have hstop : k.tick (c t) = .stop (k.withFrames (behindOperation f os :: rest)) (.fault f.block f.pc ⟨a.op, n⟩ e) := by
    rw [hc, h.tick, he]
  obtain ⟨d, hsteps⟩ := hp.steps (.stop hstop)
  exact hm.step_eq hsteps

end

/-- An operation succeeds if and only if texts are added, or both operands are numbers and no integer is divided by
    the integer zero. It fails for a division by zero exactly in that case, and otherwise because the kinds do
    not match. Texts are joined; two integers give the exact result modulo `2 ^ 64`, or the quotient truncated
    towards zero; with a float the result is a float. A machine replaces the operands by the result. If there is none
    the step halts it: the operands are gone from the frame, which stands behind the operation, and nothing was put
    in their place. -/
theorem arithmetic_classified (a : Arith) (u v : Value) :
    ((∃ r, a.apply u v = .ok r) ↔ a.Joins u v ∨ u.isNumeric = true ∧ v.isNumeric = true ∧ ¬a.ByZero u v) ∧
    ((∃ e, a.apply u v = .error e ∧ e.toClass = .divisionByZero) ↔ a.ByZero u v) ∧
    (∀ e, a.apply u v = .error e → ¬a.ByZero u v → e.toClass = .typeMismatch) ∧
    (∀ r, a.apply u v = .ok r →
      (∀ s t, u = .str s → v = .str t → r = .str (s ++ t)) ∧
      (∀ x y, u = .int x → v = .int y → ∃ z, r = .int z ∧ a.OnIntegers x.toInt y.toInt z.toInt) ∧
      (u.kind = .float ∨ v.kind = .float → r.kind = .float)) ∧
    ∀ c t m k f rest n os, m.IsReady → Passes c m t k → c t = .quiet → k.Reckons a u v f rest n os →
      (∀ r, a.apply u v = .ok r → k.tick .quiet = .go (k.reckoned f rest os r)) ∧
      ∀ e, a.apply u v = .error e →
        (m.step c).1 = .error (.failed (.fault f.block f.pc ⟨a.op, n⟩ e)) ∧
        (m.step c).2.halted = some (.fault f.block f.pc ⟨a.op, n⟩ e) ∧
        (m.step c).2.frames = { f with pc := f.pc + 1, operands := os } :: rest := by
  have hgives := Arith.apply_gives a u v
  refine ⟨Arith.apply_ok_iff, Arith.apply_byZero_iff, fun e he hzero => ?_, fun r hr => (hr ▸ hgives).result, ?_⟩
  · rcases (he ▸ hgives).fails with ⟨hzero', -⟩ | ⟨hclass, -⟩
    · exact absurd hzero' hzero
    · exact hclass
  · intro c t m k f rest n os hm hp hc hk
    refine ⟨fun r hr => by rw [hk.tick, hr], fun e he => ?_⟩
    rw [hk.halts hm hp hc he]
    exact ⟨rfl, rfl, rfl⟩

/-- The least integer is divided by minus one, and what that gives by zero. -/
def quotients : Machine where
  program := {
    consts := [.int Int64.minValue, .int (-1), .int 0]
    slots := [⟨some [⟨.loadConst, 0⟩, ⟨.loadConst, 1⟩, ⟨.div, 0⟩, ⟨.loadConst, 2⟩, ⟨.div, 0⟩], none⟩] }
  frames := [{ name := [], block := 0, scope := 0 }]

def overZero : Frame where
  name := []
  block := 0
  pc := 4
  scope := 0
  operands := [⟨some (.int 0), none⟩, ⟨some (.int Int64.minValue), none⟩]

theorem arithmetic_classified_quotients :
    quotients.IsReady ∧ Passes false quotients 4 (quotients.withFrames [overZero]) ∧
      (quotients.withFrames [overZero]).Reckons .div (.int Int64.minValue) (.int 0) overZero [] 0 [] ∧
      (quotients.step false).1 = .error (.failed (.fault 0 4 ⟨.div, 0⟩ .divisionByZero)) ∧
      (quotients.step false).2.frames = [{ overZero with pc := 5, operands := [] }] := by
  have hready : quotients.IsReady := ⟨rfl, rfl⟩
  have hpasses : Passes false quotients 4 (quotients.withFrames [overZero]) :=
    .go rfl rfl (.go rfl rfl (.go rfl rfl (.go rfl rfl .start rfl) rfl) rfl) rfl
  have hreckons : (quotients.withFrames [overZero]).Reckons .div (.int Int64.minValue) (.int 0) overZero [] 0 [] :=
    ⟨rfl, rfl, rfl, ⟨_, rfl, rfl⟩, none, none, rfl⟩
  obtain ⟨-, -, -, -, hmachine⟩ := arithmetic_classified .div (.int Int64.minValue) (.int 0)
  obtain ⟨herror, -, hframes⟩ := (hmachine _ _ _ _ _ _ _ _ hready hpasses rfl hreckons).2 .divisionByZero rfl
  exact ⟨hready, hpasses, hreckons, herror, hframes⟩

end Machine

end Scriptlet

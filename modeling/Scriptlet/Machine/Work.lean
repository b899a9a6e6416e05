/-
  Scriptlet.Machine.Work — every run ends.

  `Machine.work` bounds how much is left to do. A frame with `n` instructions left counts
  `n + 1` units, and a unit is worth more the deeper down the frame stands: a call uses up one
  unit of the caller and adds a frame whose units, all together, are worth less than that.
  As frames stand at most as deep as the limit allows, every tick makes the work smaller
  (`tick_go_work`, `tick_pause_work`), and so does every step (`step_work`).
-/

import Scriptlet.Machine.Step

namespace Scriptlet

variable {α : Type}

namespace Program

def blockLength (p : Program) (id : Int) : Nat := ((p.block? id).getD []).length

theorem foldl_max_ge (l : List Slot) (n : Nat) :
    n ≤ l.foldl (fun n s => max n (s.code.getD []).length) n := by
  induction l generalizing n with
  | nil => exact Nat.le_refl n
  | cons s l ih => exact Nat.le_trans (Nat.le_max_left ..) (ih _)

theorem length_le_foldl_max {l : List Slot} {s : Slot} (h : s ∈ l) (n : Nat) :
    (s.code.getD []).length ≤ l.foldl (fun n s => max n (s.code.getD []).length) n := by
  induction l generalizing n with
  | nil => cases h
  | cons t l ih =>
    cases h with
    | head => exact Nat.le_trans (Nat.le_max_right ..) (foldl_max_ge l _)
    | tail _ h => exact ih h _

theorem mem_of_nth? {l : List α} {id : Int} {a : α} (h : nth? l id = some a) : a ∈ l := by
  unfold nth? at h
  split at h
  · exact List.mem_of_getElem? h
  · cases h

theorem blockLength_le_longest (p : Program) (id : Int) : p.blockLength id ≤ p.longest := by
  unfold blockLength block? slot?
  cases h : nth? p.slots id with
  | none => simp
  | some s => exact length_le_foldl_max (mem_of_nth? h) 0

end Program

namespace Machine

def left (p : Program) (f : Frame) : Nat := p.blockLength f.block - f.pc

def workOf (p : Program) (limit base : Nat) : List Frame → Nat
  | [] => 0
  | f :: rest => (left p f + 1) * base ^ (limit - rest.length) + workOf p limit base rest

def work (m : Machine) : Nat := workOf m.program m.limit (m.program.longest + 2) m.frames

/-! ## How instructions change the frames -/

/-- An instruction leaves the frame in its block, not before where it was, and may put a callee
    above it. -/
inductive Moves (m : Machine) (f : Frame) (rest : List Frame) : List Frame → Prop
  | stay (g : Frame) : g.block = f.block → f.pc ≤ g.pc → Moves m f rest (g :: rest)
  | call (c g : Frame) : c.pc = 0 → g.block = f.block → f.pc ≤ g.pc → rest.length + 1 < m.limit →
      Moves m f rest (c :: g :: rest)

structure Keeps (m m' : Machine) : Prop where
  program : m'.program = m.program
  limit : m'.limit = m.limit
  quitting : m'.quitting = m.quitting

def SamePlace (f g : Frame) : Prop := g.block = f.block ∧ g.pc = f.pc

theorem SamePlace.trans {f g h : Frame} (a : SamePlace f g) (b : SamePlace g h) : SamePlace f h :=
  ⟨b.1.trans a.1, b.2.trans a.2⟩

theorem samePlace_push (f : Frame) (o : Operand) : SamePlace f (f.push o) := ⟨rfl, rfl⟩

variable {f g : Frame} {m m' : Machine} {rest : List Frame} {c : Signals} {s : Signal}

theorem popOperand_place {o : Operand} (h : popOperand f = .ok (o, g)) : SamePlace f g := by
  unfold popOperand Frame.pop? at h
  cases hf : f.operands with
  | nil => simp [hf] at h
  | cons a as =>
    simp only [hf, Except.ok.injEq, Prod.mk.injEq] at h
    exact h.2 ▸ ⟨rfl, rfl⟩

theorem popOperands_place {n : Int} {os : List Operand} (h : popOperands f n = .ok (os, g)) : SamePlace f g := by
  unfold popOperands Frame.popN? at h
  split at h
  · rename_i p hp
    split at hp
    · cases hp
    · simp only [Option.some.injEq] at hp
      simp only [Except.ok.injEq] at h
      rw [← hp, Prod.mk.injEq] at h
      exact h.2 ▸ ⟨rfl, rfl⟩
  · cases h

theorem popValue_place {v : Value} (h : m.popValue f = .ok (v, g)) : SamePlace f g := by
  unfold popValue at h
  cases hp : popOperand f with
  | error e => simp [hp, bind, Except.bind] at h
  | ok p =>
    obtain ⟨o, k⟩ := p
    have hk := popOperand_place hp
    cases hr : inFrame k (m.resolved o) with
    | error e => simp [hp, hr, bind, Except.bind] at h
    | ok u =>
      simp only [hp, hr, bind, Except.bind, pure, Except.pure, Except.ok.injEq, Prod.mk.injEq] at h
      exact h.2 ▸ hk

theorem popValues_place {n : Int} {vs : List Value} (h : m.popValues f n = .ok (vs, g)) : SamePlace f g := by
  unfold popValues at h
  cases hp : popOperands f n with
  | error e => simp [hp, bind, Except.bind] at h
  | ok p =>
    obtain ⟨os, k⟩ := p
    have hk := popOperands_place hp
    cases hr : inFrame k (os.mapM m.resolved) with
    | error e => simp [hp, hr, bind, Except.bind] at h
    | ok us =>
      simp only [hp, hr, bind, Except.bind, pure, Except.pure, Except.ok.injEq, Prod.mk.injEq] at h
      exact h.2 ▸ hk

theorem popResult_place {v : Value} (h : m.popResult f = .ok (v, g)) : SamePlace f g := by
  unfold popResult Frame.pop? at h
  cases hf : f.operands with
  | nil =>
    simp only [hf, Except.ok.injEq, Prod.mk.injEq] at h
    exact h.2 ▸ ⟨rfl, rfl⟩
  | cons a as =>
    cases hr : inFrame { f with operands := as } (m.resolved a) with
    | error e => simp [hf, hr, bind, Except.bind] at h
    | ok u =>
      simp only [hf, hr, bind, Except.bind, pure, Except.pure, Except.ok.injEq, Prod.mk.injEq] at h
      exact h.2 ▸ ⟨rfl, rfl⟩

theorem closeGroup_place (f : Frame) : SamePlace f f.closeGroup.2 := by
  unfold Frame.closeGroup
  split <;> exact ⟨rfl, rfl⟩

theorem addField_place (f : Frame) (fd : Field) : SamePlace f (f.addField fd) := by
  unfold Frame.addField
  split <;> exact ⟨rfl, rfl⟩

/-- An instruction that keeps the frame in its place. -/
theorem moves_of_place (h : SamePlace f g) :
    Moves m f rest (g :: rest) := .stay g h.1 (Nat.le_of_eq h.2.symm)

def Fine (m : Machine) (f : Frame) (rest : List Frame) (r : Except Stuck Machine) : Prop :=
  ∀ m', r = .ok m' → Keeps m m' ∧ Moves m f rest m'.frames

theorem fine_error (e : Stuck) : Fine m f rest (.error e) := by
  intro m' h
  cases h

theorem fine_ok (k : Keeps m m') (hf : m'.frames = g :: rest) (h : SamePlace f g) : Fine m f rest (.ok m') := by
  intro m'' e
  cases e
  exact ⟨k, hf ▸ moves_of_place h⟩

/-- To be fine after a value was taken from the frame. -/
theorem fine_bind {x : Except Stuck (α × Frame)}
    {k : α × Frame → Except Stuck Machine} (hx : ∀ a g, x = .ok (a, g) → SamePlace f g)
    (hk : ∀ a g, SamePlace f g → Fine m f rest (k (a, g))) : Fine m f rest (x >>= k) := by
  intro m' h
  cases e : x with
  | error e' => simp [e, bind, Except.bind] at h
  | ok p =>
    obtain ⟨a, g⟩ := p
    simp only [e, bind, Except.bind] at h
    exact hk a g (hx a g e) m' h

/-- To be fine after something else was computed. -/
theorem fine_bind_pure {x : Except Stuck α} {k : α → Except Stuck Machine} (hk : ∀ a, Fine m f rest (k a)) :
    Fine m f rest (x >>= k) := by
  intro m' h
  cases e : x with
  | error e' => simp [e, bind, Except.bind] at h
  | ok a =>
    simp only [e, bind, Except.bind] at h
    exact hk a m' h

theorem fine_callClosure (m : Machine) (h : SamePlace f g) (c : Closure) (ident : Option Int) (args : List Value) :
    Fine m f rest (m.callClosure g rest c ident args) := by
  unfold callClosure
  split
  · exact fine_error _
  · split
    · exact fine_error _
    · rename_i hl
      intro m' e
      cases e
      exact ⟨⟨rfl, rfl, rfl⟩, .call _ g rfl h.1 (Nat.le_of_eq h.2.symm) (Nat.lt_of_not_le hl)⟩

theorem fine_callBuiltin (m : Machine) (h : SamePlace f g) (name : Text) (args : List Value) :
    Fine m f rest (m.callBuiltin g rest name args) := by
  unfold callBuiltin
  split
  · exact fine_error _
  · split
    · exact fine_ok ⟨rfl, rfl, rfl⟩ rfl h
    · exact fine_error _
    · exact fine_error _

theorem fine_await (m : Machine) (h : SamePlace f g) (a : Action) :
    Fine m f rest (.ok (m.await g rest a)) := fine_ok ⟨rfl, rfl, rfl⟩ rfl h

theorem fine_newObject (m : Machine) (h : SamePlace f g) (id : Int) (fields : List Field) :
    Fine m f rest (.ok (m.newObject g rest id fields)) :=
  fine_ok ⟨rfl, rfl, rfl⟩ rfl (h.trans (samePlace_push g _))

theorem fine_arith (m : Machine) (f : Frame) (rest : List Frame) (a : Arith) :
    Fine m f rest (m.arith f rest a) :=
  fine_bind (fun _ _ => popValue_place) fun _ _ h =>
    fine_bind (fun _ _ e => h.trans (popValue_place e)) fun _ _ h =>
      fine_bind_pure fun _ => fine_ok ⟨rfl, rfl, rfl⟩ rfl (h.trans (samePlace_push _ _))

theorem fine_call (m : Machine) (f : Frame) (rest : List Frame) (n : Int) : Fine m f rest (m.call f rest n) := by
  refine fine_bind (fun _ _ => popValues_place) fun args g h =>
    fine_bind (fun _ _ e => h.trans (popOperand_place e)) fun callee g h => ?_
  dsimp only
  split
  · exact fine_callClosure m h _ _ _
  · exact fine_await m h _
  · exact fine_await m h _
  · exact fine_callBuiltin m h _ _
  · exact fine_error _
  · split
    · exact fine_await m h _
    · exact fine_error _
  · exact fine_error _

theorem fine_construct (m : Machine) (f : Frame) (rest : List Frame) (id : Int) :
    Fine m f rest (m.construct f rest id) := by
  unfold construct
  simp only
  split
  · split
    · exact fine_error _
    · exact fine_newObject m (closeGroup_place f) _ _
  · exact fine_error _
  · exact fine_newObject m (closeGroup_place f) _ _

theorem fine_store (m : Machine) (f : Frame) (rest : List Frame) : Fine m f rest (m.store f rest) := by
  refine fine_bind (fun _ _ => popValue_place) fun v g h =>
    fine_bind (fun _ _ e => h.trans (popOperand_place e)) fun target g h => ?_
  dsimp only
  split
  · exact fine_ok ⟨rfl, rfl, rfl⟩ rfl h
  · exact fine_error _

theorem fine_makeFn (m : Machine) (f : Frame) (rest : List Frame) (n : Int) :
    Fine m f rest (m.makeFn f rest n) := by
  refine fine_bind (fun _ _ => popValue_place) fun v g h => ?_
  split
  · rename_i p g' e
    simp only [Prod.mk.injEq] at e
    obtain ⟨rfl, rfl⟩ := e
    split
    · exact fine_error _
    · exact fine_bind (fun _ _ e => h.trans (popOperands_place e)) fun _ _ h =>
        fine_bind_pure fun _ => fine_ok ⟨rfl, rfl, rfl⟩ rfl (h.trans (samePlace_push _ _))
  · exact fine_error _

theorem fine_loadField (m : Machine) (f : Frame) (rest : List Frame) (id : Int) :
    Fine m f rest (m.loadField f rest id) := by
  refine fine_bind (fun _ _ => popValue_place) fun v g h => ?_
  split
  · rename_i o g' e
    simp only [Prod.mk.injEq] at e
    obtain ⟨rfl, rfl⟩ := e
    exact fine_ok ⟨rfl, rfl, rfl⟩ rfl (h.trans (samePlace_push _ _))
  · exact fine_error _

theorem fine_exec (m : Machine) (f : Frame) (rest : List Frame) (stop pc : Nat) (i : Instr)
    (hs : f.pc ≤ stop) : Fine m f rest (m.exec f rest stop pc i) := by
  unfold exec
  split
  · split
    · exact fine_construct m f rest _
    · exact fine_ok ⟨rfl, rfl, rfl⟩ rfl (samePlace_push f _)
  · exact fine_store m f rest
  · unfold loadConst
    split
    · exact fine_ok ⟨rfl, rfl, rfl⟩ rfl (samePlace_push f _)
    · exact fine_error _
  · exact fine_ok ⟨rfl, rfl, rfl⟩ rfl ⟨rfl, rfl⟩
  · exact fine_ok ⟨rfl, rfl, rfl⟩ rfl ⟨rfl, rfl⟩
  · exact fine_bind (fun _ _ => popValue_place) fun _ _ h =>
      fine_ok ⟨rfl, rfl, rfl⟩ rfl (h.trans (addField_place _ _))
  · exact fine_bind (fun _ _ => popValues_place) fun _ _ h =>
      fine_ok ⟨rfl, rfl, rfl⟩ rfl (h.trans (samePlace_push _ _))
  · exact fine_makeFn m f rest _
  · exact fine_call m f rest _
  · exact fine_arith m f rest _
  · exact fine_arith m f rest _
  · exact fine_arith m f rest _
  · exact fine_arith m f rest _
  · exact fine_ok ⟨rfl, rfl, rfl⟩ rfl ⟨rfl, rfl⟩
  · exact fine_loadField m f rest _
  · refine fine_bind (fun _ _ => popResult_place) fun v g h => ?_
    intro m' e
    cases e
    exact ⟨⟨rfl, rfl, rfl⟩, .stay _ h.1 hs⟩
  · exact fine_error _

/-! ## Ticks and steps use up work -/

theorem workOf_pos {p : Program} {limit base : Nat} (hb : 0 < base) (f : Frame) (rest : List Frame) :
    workOf p limit base rest < workOf p limit base (f :: rest) := by
  have : 0 < (left p f + 1) * base ^ (limit - rest.length) :=
    Nat.mul_pos (Nat.succ_pos _) (Nat.pow_pos hb)
  simp only [workOf]
  omega

theorem workOf_deliver (p : Program) (limit base : Nat) (v : Value) (fs : List Frame) :
    workOf p limit base (deliver v fs) = workOf p limit base fs := by
  cases fs <;> rfl

/-- A move from a place that is not the end of the block uses up work. -/
theorem moves_work {fs : List Frame} (hg : g.block = f.block)
    (hp : f.pc = g.pc + 1) (hl : g.pc < m.program.blockLength g.block) (h : Moves m f rest fs) :
    workOf m.program m.limit (m.program.longest + 2) fs
      < workOf m.program m.limit (m.program.longest + 2) (g :: rest) := by
  generalize hb : m.program.longest + 2 = base
  have lower {k : Frame} (hk : k.block = f.block) (hpc : f.pc ≤ k.pc) :
      left m.program k + 1 ≤ left m.program g := by
    simp only [left, hk, ← hg]
    omega
  cases h with
  | stay k hk hpc =>
    have := lower hk hpc
    have : (left m.program k + 1) * base ^ (m.limit - rest.length)
        < (left m.program g + 1) * base ^ (m.limit - rest.length) :=
      Nat.mul_lt_mul_of_pos_right (by omega) (Nat.pow_pos (by omega))
    simp only [workOf]
    omega
  | call c k hc hk hpc hlim =>
    have h1 := lower hk hpc
    have h2 : left m.program c ≤ m.program.longest := by
      simp only [left, hc]
      exact m.program.blockLength_le_longest c.block
    have h3 : m.limit - rest.length = (m.limit - (rest.length + 1)) + 1 := by omega
    have h4 : 0 < base ^ (m.limit - (rest.length + 1)) := Nat.pow_pos (by omega)
    have h5 : (left m.program c + 1) * base ^ (m.limit - (rest.length + 1))
        < base ^ (m.limit - rest.length) := by
      rw [h3, Nat.pow_succ, Nat.mul_comm (base ^ _) base]
      exact Nat.mul_lt_mul_of_pos_right (by omega) h4
    have h6 : (left m.program k + 1) * base ^ (m.limit - rest.length) + base ^ (m.limit - rest.length)
        ≤ (left m.program g + 1) * base ^ (m.limit - rest.length) := by
      rw [← Nat.succ_mul]
      exact Nat.mul_le_mul_right _ (by omega)
    simp only [workOf, List.length_cons]
    omega

/-- An instruction uses up work. -/
theorem exec_work {code : Block} {i : Instr}
    (hb : m.program.block? f.block = some code) (hi : code[f.pc]? = some i) (hf : m.frames = f :: rest)
    (h : m.exec { f with pc := f.pc + 1 } rest code.length f.pc i = .ok m') :
    m'.quitting = m.quitting ∧ m'.work < m.work := by
  have hpc : f.pc < code.length := (List.getElem?_eq_some_iff.mp hi).1
  obtain ⟨k, moves⟩ := fine_exec m { f with pc := f.pc + 1 } rest code.length f.pc i hpc m' h
  refine ⟨k.quitting, ?_⟩
  have hl : f.pc < m.program.blockLength f.block := by simpa [Program.blockLength, hb] using hpc
  simp only [work, k.program, k.limit, hf]
  exact moves_work (f := { f with pc := f.pc + 1 }) rfl rfl hl moves

theorem terminate_work (m : Machine) : m.terminate.work = m.work := by
  unfold terminate
  split <;> rfl

theorem leave_work (hf : m.frames = f :: rest) (h : m.leave f rest = .ok m') : m'.work < m.work := by
  have lt : workOf m.program m.limit (m.program.longest + 2) rest < m.work := by
    simp only [work, hf]
    exact workOf_pos (by omega) f rest
  have go (fs : List Frame) (hfs : workOf m.program m.limit (m.program.longest + 2) fs
      = workOf m.program m.limit (m.program.longest + 2) rest)
      (e : m' = if fs.isEmpty then (m.withFrames fs).terminate else m.withFrames fs) : m'.work < m.work := by
    have keep : (m.withFrames fs).work < m.work := Nat.lt_of_le_of_lt (Nat.le_of_eq hfs) lt
    rw [e]
    split
    · exact Nat.lt_of_le_of_lt (Nat.le_of_eq (terminate_work _)) keep
    · exact keep
  unfold leave at h
  split at h
  · cases hr : m.frameResult f with
    | error e => simp [hr, Except.map, bind, Except.bind] at h
    | ok v =>
      simp only [hr, Except.map, bind, Except.bind, pure, Except.pure, Except.ok.injEq] at h
      exact go _ (workOf_deliver ..) h.symm
  · simp only [bind, Except.bind, pure, Except.pure, Except.ok.injEq] at h
    exact go _ rfl h.symm

theorem tick_go_work (h : m.tick s = .go m') : m.frames ≠ [] ∧ m'.work < m.work := by
  unfold tick at h
  split at h
  · cases h
  · split at h
    · cases h
    · cases h
    · split at h
      · cases h
      · rename_i f rest hf
        refine ⟨by simp [hf], ?_⟩
        split at h
        · cases h
        · rename_i code hb
          split at h
          · split at h <;> cases h
          · rename_i i hi
            split at h
            · rename_i m'' he
              split at h
              · cases h
              · cases h
                exact (exec_work hb hi hf he).2
            · cases h

theorem tick_pause_work (h : m.tick s = .pause m') (hf : m.frames ≠ []) : m'.work < m.work := by
  unfold tick at h
  split at h
  · cases h
  · split at h
    · cases h
    · cases h
    · split at h
      · rename_i hn
        exact absurd hn hf
      · rename_i f rest hf
        split at h
        · cases h
        · rename_i code hb
          split at h
          · split at h
            · rename_i m'' he
              cases h
              exact leave_work hf he
            · cases h
          · rename_i i hi
            split at h
            · rename_i m'' he
              split at h
              · cases h
                exact (exec_work hb hi hf he).2
              · cases h
            · cases h

theorem tick_empty (h : m.tick s = .pause m') (hf : m.frames = []) : m' = m.terminate := by
  unfold tick at h
  split at h
  · cases h
  · split at h
    · cases h
    · cases h
    · simp only [hf] at h
      cases h
      rfl

theorem ticks_work {n : Nat} (h : ticks c n m = (.ok (), m')) : m'.work ≤ m.work := by
  induction n generalizing m c with
  | zero =>
    simp only [ticks, Prod.mk.injEq, true_and] at h
    exact h ▸ Nat.le_refl _
  | succ n ih =>
    unfold ticks at h
    split at h
    · rename_i m'' ht
      exact Nat.le_trans (ih h) (Nat.le_of_lt (tick_go_work ht).2)
    · rename_i m'' ht
      simp only [Prod.mk.injEq, true_and] at h
      subst h
      by_cases hf : m.frames = []
      · rw [tick_empty ht hf]
        exact Nat.le_of_eq (terminate_work m)
      · exact Nat.le_of_lt (tick_pause_work ht hf)
    · cases h

theorem stepBound_pos (m : Machine) : 0 < m.stepBound := Nat.mul_pos (Nat.succ_pos _) (Nat.succ_pos _)

/-- A step without an error uses up work, or finds nothing to do and asks the host to quit. -/
theorem step_work (h : m.step c = (.ok (), m')) : m'.work < m.work ∨ m' = m.terminate := by
  unfold step at h
  split at h
  · cases h
  · split at h
    · cases h
    · obtain ⟨n, hn⟩ := Nat.exists_eq_succ_of_ne_zero (Nat.ne_of_gt m.stepBound_pos)
      rw [hn, ticks] at h
      split at h
      · rename_i m'' ht
        exact .inl (Nat.lt_of_le_of_lt (ticks_work h) (tick_go_work ht).2)
      · rename_i m'' ht
        simp only [Prod.mk.injEq, true_and] at h
        subst h
        by_cases hf : m.frames = []
        · exact .inr (tick_empty ht hf)
        · exact .inl (tick_pause_work ht hf)
      · cases h

end Machine

end Scriptlet

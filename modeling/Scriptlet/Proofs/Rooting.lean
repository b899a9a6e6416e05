/-
  Scriptlet.Proofs.Rooting — scopes are around later scopes only.

  A function is made in a scope and remembers it and those around it. A call of the function has a new
  scope inside of these. So the scopes around a scope are earlier than itself (`Rooted`), provided that
  no function comes from elsewhere: programs have none among their constants (`Program.Functionless`),
  and the host replies with functions that were made in scopes of the machine (`Request.Proper`).
-/

import Scriptlet.Proofs.Reach
import Scriptlet.Proofs.Sites

namespace Scriptlet

/-! ## Constants -/

def Program.Functionless (p : Program) : Prop := ∀ v ∈ p.consts, v.Every fun _ => False

theorem Value.isFlat_of_isLiteral {v : Value} (h : Lower.isLiteral v = true) : v.isFlat = true := by
  cases v <;> simp_all [Lower.isLiteral, isFlat]

theorem functionless_invariant : Lower.Invariant Program.Functionless where
  intern _ h := h
  literal {p v} hv h := by
    have hv : v.Every fun _ => False := (Value.inherited_every _).flat (Value.isFlat_of_isLiteral hv)
    exact List.forall_mem_append.mpr ⟨h, List.forall_mem_singleton.mpr hv⟩
  proto f h := List.forall_mem_append.mpr ⟨h, List.forall_mem_singleton.mpr trivial⟩
  reserve h := h
  fill _ _ _ h := h

namespace Const

mutual

theorem every_toValue : ∀ {c : Const} {v : Value}, c.toValue = .ok v → v.Every fun _ => False
  | .mk kind int float str bool items block params, v => by
    intro h
    unfold toValue at h
    split at h
    · cases h; trivial
    · cases h; trivial
    · cases h; trivial
    · cases h; trivial
    · cases h; trivial
    · cases hvs : toValues items with
      | error e =>
        rw [hvs] at h
        cases h
      | ok vs =>
        rw [hvs] at h
        cases h
        refine Value.everyItem_iff.mpr fun v hv => ?_
        obtain ⟨u, hu, rfl⟩ := List.mem_map.mp hv
        exact every_toValues hvs u hu
    · cases h; trivial
    · cases h

theorem every_toValues : ∀ {cs vs}, toValues cs = .ok vs → ∀ v ∈ vs, v.Every fun _ => False
  | [], vs => by
    intro h
    cases h
    exact List.forall_mem_nil _
  | c :: cs, vs => by
    intro h
    unfold toValues at h
    obtain ⟨v, hv, h⟩ := Machine.bind_ok.mp h
    obtain ⟨vs, hvs, h⟩ := Machine.bind_ok.mp h
    cases h
    exact List.forall_mem_cons.mpr ⟨every_toValue hv, every_toValues hvs⟩

end

end Const

theorem Image.functionless {i : Image} {p : Program} (h : i.toProgram = .ok p) : p.Functionless := by
  obtain ⟨-, hconsts, -, -⟩ := toProgram_ok h
  have hall := Machine.mapM_ok.mp hconsts
  unfold Program.Functionless
  generalize p.consts = vs, i.consts.getD [] = cs at hall
  induction hall with
  | nil => exact List.forall_mem_nil _
  | cons hv _ ih => exact List.forall_mem_cons.mpr ⟨Const.every_toValue hv, ih⟩

/-! ## Scopes -/

namespace Scopes

variable {s : Scopes}

theorem get?_bind_ne {i j : Nat} (h : j ≠ i) (id : Int) (name : Text) (v : Option Value) :
    (s.bind i id name v).get? j = s.get? j := by
  unfold bind update get?
  rw [Array.getElem?_modify, if_neg (Ne.symm h)]

theorem size_bind (i : Nat) (id : Int) (name : Text) (v : Option Value) :
    (s.bind i id name v).list.size = s.list.size := by
  simp [bind, update]

theorem get?_add {j : Nat} (h : j < s.list.size) (name : Text) (outer : List Nat) :
    (s.add name outer).2.get? j = s.get? j := by
  have hne : j ≠ s.list.size := Nat.ne_of_lt h
  simp [add, get?, Array.getElem?_push, hne]

theorem size_add (name : Text) (outer : List Nat) : (s.add name outer).2.list.size = s.list.size + 1 := by
  simp [add]

theorem size_initial (ids : Text → Int) (names : List Text) : (initial ids names).list.size = 1 :=
  List.foldlRecOn (motive := fun s : Scopes => s.list.size = 1) _ _ (size_bind ..)
    fun _ hs _ _ => (size_bind ..).trans hs

end Scopes

namespace Machine

/-- The function was made in scopes with a smaller number. -/
def MadeBelow (n : Nat) (c : Closure) : Prop := ∀ k ∈ c.scopes, k < n

/-- The scopes around a scope are earlier ones, and all functions were made in scopes that are there. -/
structure Rooted (m : Machine) : Prop where
  nested : Nested m
  older : ∀ i, i < m.scopes.list.size → ∀ j ∈ m.scopes.chain i, j ≤ i
  consts : m.program.Functionless
  made : m.Every (MadeBelow m.scopes.list.size)

section

variable {m m' : Machine} {f : Frame} {rest : List Frame} {stop pc : Nat} {i : Instr}

theorem get?_callScope {j : Nat} (h : j < m.scopes.list.size) (name : Text) (c : Closure) (args : List Value) :
    (m.callScope name c args).2.get? j = m.scopes.get? j := by
  have hne : j ≠ m.scopes.list.size := Nat.ne_of_lt h
  exact List.foldlRecOn (motive := fun s : Scopes => s.get? j = m.scopes.get? j) _ _ (Scopes.get?_add h name c.scopes)
    fun s hs _ _ => (Scopes.get?_bind_ne hne _ _ _).trans hs

theorem size_callScope (name : Text) (c : Closure) (args : List Value) :
    (m.callScope name c args).2.list.size = m.scopes.list.size + 1 :=
  List.foldlRecOn (motive := fun s : Scopes => s.list.size = m.scopes.list.size + 1) _ _ (Scopes.size_add name c.scopes)
    fun _ hs _ _ => (Scopes.size_bind _ _ _ _).trans hs

/-- A new scope is that of a call, inside of the scopes of the function. -/
theorem Does.chain_new (h : Does m f rest stop pc i m') {k : Nat} (hk : m.scopes.list.size ≤ k)
    (hk' : k < m'.scopes.list.size) :
    ∃ c j, ⟨some (.closure c), j⟩ ∈ f.operands ∧ m'.scopes.chain k = k :: c.scopes := by
  cases h with
  | @invoke as os vs c j ho =>
    have hw := within_callScope m ((j.map m.name).getD "<anonymous>") c vs
    have hlt : m.scopes.list.size < (m.scopes.add ((j.map m.name).getD "<anonymous>") c.scopes).2.list.size := by
      rw [Scopes.size_add]
      exact Nat.lt_succ_self _
    obtain rfl : k = m.scopes.list.size := by
      replace hk' : k < (m.callScope ((j.map m.name).getD "<anonymous>") c vs).2.list.size := hk'
      rw [size_callScope] at hk'
      omega
    exact ⟨c, j, by simp [ho], (hw.chain _ hlt).trans (Scopes.chain_add _ _ _)⟩
  | store =>
    rw [Scopes.size_bind] at hk'
    omega
  | createStruct id =>
    replace hk' : k < (m.scopes.bind _ _ _ _).list.size := hk'
    rw [Scopes.size_bind] at hk'
    omega
  | _ => exact absurd hk' (Nat.not_lt.mpr hk)

theorem Rooted.chain_lt (h : Rooted m) {k : Nat} (hk : k < m.scopes.list.size) :
    ∀ j ∈ m.scopes.chain k, j < m.scopes.list.size := fun j hj => Nat.lt_of_le_of_lt (h.older k hk j hj) hk

/-- Other frames and another program make no difference to the scopes. -/
theorem Rooted.change (h : Rooted m) (hs : m'.scopes = m.scopes) (hp : m'.program.Functionless)
    (hin : ∀ f ∈ m'.frames, f.scope < m.scopes.list.size)
    (hfs : ∀ f ∈ m'.frames, f.Every (MadeBelow m.scopes.list.size)) : Rooted m' := by
  refine ⟨⟨?_, ?_, ?_⟩, ?_, hp, ?_, ?_⟩ <;> rw [hs]
  · exact h.nested.outermost
  · exact h.nested.there
  · exact hin
  · exact h.older
  · exact h.made.scopes
  · exact hfs

theorem Rooted.exec {code : Block} (h : Rooted m) (hw : m.awaiting = false) (hf : m.frames = f :: rest)
    (hb : m.program.block? f.block = some code) (hi : code[f.pc]? = some i)
    (hd : Does m { f with pc := f.pc + 1 } rest code.length f.pc i m') : Rooted m' := by
  have hframes : ∀ g ∈ f :: rest, g.Every (MadeBelow m.scopes.list.size) := hf ▸ h.made.frames
  obtain ⟨htop, hrest⟩ := List.forall_mem_cons.mp hframes
  replace htop : Frame.Every (MadeBelow m.scopes.list.size) { f with pc := f.pc + 1 } :=
    ⟨htop.operands, htop.groups, htop.result⟩
  have hscope : f.scope < m.scopes.list.size := h.nested.inside f (by simp [hf])
  have hwithin := hd.within_scopes
  have hmade : m'.Every (MadeBelow m.scopes.list.size) := by
    refine hd.every h.made.scopes htop hrest ?_ ?_
    · intro v _ hv
      exact (h.consts v (Program.mem_of_const? hv)).mono fun _ hno => hno.elim
    · intro p i' as os ids _ _ _ _ _
      exact h.chain_lt hscope
  refine ⟨kept_nested.exec h.nested hw hf hb hi hd, ?_, hd.program ▸ h.consts, ?_⟩
  · intro k hk j hj
    by_cases hold : k < m.scopes.list.size
    · rw [hwithin.chain k hold] at hj
      exact h.older k hold j hj
    · obtain ⟨c, ident, hc, e⟩ := hd.chain_new (Nat.le_of_not_lt hold) hk
      rw [e] at hj
      rcases List.mem_cons.mp hj with rfl | hj
      · exact Nat.le_refl _
      · have hlt : j < m.scopes.list.size := htop.operands _ hc j hj
        omega
  · exact hmade.mono fun c hc k hk => Nat.lt_of_lt_of_le (hc k hk) hwithin.size

theorem kept_rooted : Kept Rooted where
  exec := Rooted.exec
  spend {m f g rest} h hf hg := by
    have hin := (kept_nested.spend h.nested hf hg).inside
    have hfs : ∀ k ∈ f :: rest, k.Every (MadeBelow m.scopes.list.size) := hf ▸ h.made.frames
    rw [List.forall_mem_cons] at hfs
    exact h.change rfl h.consts hin (List.forall_mem_cons.mpr ⟨hfs.1.spend hg, hfs.2⟩)
  drop {m f rest} h hf := by
    have hin : ∀ g ∈ f :: rest, g.scope < m.scopes.list.size := hf ▸ h.nested.inside
    have hfs : ∀ g ∈ f :: rest, g.Every (MadeBelow m.scopes.list.size) := hf ▸ h.made.frames
    rw [List.forall_mem_cons] at hin hfs
    exact h.change rfl h.consts hin.2 hfs.2
  deliver {m f rest v} h hf hv := by
    have hin : ∀ g ∈ f :: rest, g.scope < m.scopes.list.size := hf ▸ h.nested.inside
    have hfs : ∀ g ∈ f :: rest, g.Every (MadeBelow m.scopes.list.size) := hf ▸ h.made.frames
    rw [List.forall_mem_cons] at hin hfs
    refine h.change rfl h.consts (scopes_deliver (P := (· < m.scopes.list.size)) hin.2) ?_
    exact all_deliver (all_frameResult (Value.inherited_every _) hv hfs.1) hfs.2
  terminate {m} h := by
    unfold Machine.terminate
    split
    · exact h
    · exact h.change rfl h.consts h.nested.inside h.made.frames
  abort h := h.change rfl h.consts h.nested.inside h.made.frames
  halt _ h _ := h.change rfl h.consts h.nested.inside h.made.frames

/-- If the host gives a reply, the functions inside of it were made in scopes of the machine. -/
def Request.Proper (m : Machine) : Request → Prop
  | .resume v => Value.EveryPlace (MadeBelow m.scopes.list.size) v
  | _ => True

/-- A frame for the code of a unit has nothing in it. -/
theorem Rooted.enter (h : Rooted m) (hs : m'.scopes = m.scopes) (hf : m'.frames = m.frames)
    (hp : m'.program.Functionless) (name : Text) (block : Int) : Rooted (m'.enter name block) := by
  refine h.change hs hp ?_ ?_ <;> simp only [Machine.enter, List.forall_mem_cons, hf]
  · exact ⟨h.nested.there, h.nested.inside⟩
  · exact ⟨⟨by simp, by simp, trivial⟩, h.made.frames⟩

theorem Rooted.becomes {name : Text} {ns : List Node} (h : Rooted m) (hb : Becomes m name ns m') : Rooted m' := by
  have hq := hb.invariant functionless_invariant h.consts
  cases hb with
  | refused => exact h
  | failedAgain | failedNew => exact h.change rfl hq h.nested.inside h.made.frames
  | @again _ p | @new _ p =>
    change p.Functionless at hq
    refine h.enter ?_ ?_ hq _ _ <;> rfl

theorem Rooted.apply (h : Rooted m) {r : Request} (hr : r.Proper m) : Rooted (r.apply m) := by
  generalize hk : r.apply m = k
  cases r.changes hk with
  | unread | unawaited => exact h
  | read hb | loaded hb => exact h.becomes hb
  | stepped c => exact kept_rooted.step h
  | drained | aborted => exact h.change rfl h.consts h.nested.inside h.made.frames
  | reset => exact h.change rfl h.consts (List.forall_mem_nil _) (List.forall_mem_nil _)
  | @resumed v =>
    refine h.change rfl h.consts (scopes_deliver (P := (· < m.scopes.list.size)) h.nested.inside) ?_
    refine all_deliver ?_ h.made.frames
    cases v with
    | none => trivial
    | some v => exact hr

theorem Initial.rooted (h : Initial m) : Rooted m := by
  have hnested := h.nested
  have hstart : ∃ ids names, m.scopes = Scopes.initial ids names ∧ m.program.Functionless ∧
      ∀ f ∈ m.frames, f.Every (MadeBelow m.scopes.list.size) := by
    cases h with
    | new o =>
      rw [Machine.new, ofProgram_eq]
      have hconsts : ({} : Program).Functionless := List.forall_mem_nil _
      exact ⟨_, _, rfl, hconsts, List.forall_mem_nil _⟩
    | @ofImage i o _ h =>
      obtain ⟨p, hp, rfl⟩ := ofImage_ok h
      rw [ofProgram_eq]
      have hconsts : p.Functionless := Image.functionless hp
      exact ⟨_, _, rfl, hconsts, List.forall_mem_singleton.mpr ⟨by simp, by simp, trivial⟩⟩
  obtain ⟨ids, names, hscopes, hconsts, hframes⟩ := hstart
  refine ⟨hnested, ?_, hconsts, ?_, hframes⟩
  · intro i hi j hj
    -- there is only the global scope
    obtain rfl : i = globals := by
      rw [hscopes, Scopes.size_initial] at hi
      exact Nat.lt_one_iff.mp hi
    rw [hnested.outermost] at hj
    exact Nat.le_of_eq (List.mem_singleton.mp hj)
  · rw [hscopes]
    exact Scopes.every_initial _ _ _

end

end Machine

end Scriptlet

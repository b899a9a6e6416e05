/-
  Scriptlet.Proofs.Discipline — compiled programs never break the operand discipline.

  A machine is started empty, and units are loaded, stepped, resumed, aborted and reset in any
  order (`Reached`). Two things are asked of the one who does so: code is not replaced while a frame
  of its unit runs it, and functions that the machine is resumed with were made by it.

  (1) In every frame the operands have shapes that the rest of its block fits (`Level`), one operand
      short while a result is owed to the frame: to the one below a function that runs, and to the
      one on top of a machine that awaits a reply (`Stacked`).
  (2) All functions have code of their own that fits, in a block that belongs to no unit (`Sound`).
      Compiling more code keeps both (`Level.mono`, `Sound.mono`).
  (3) Every operation keeps both (`Disciplined`), so no step fails because the code is broken
      (`operand_discipline`).
-/

import Scriptlet.Proofs.Ending
import Scriptlet.Proofs.Parsing
import Scriptlet.Proofs.Shapes
import Scriptlet.Proofs.Starting

namespace Scriptlet

open List (mem_append mem_singleton mem_cons mem_cons_of_mem)

namespace Signals

/-- The signals from a later tick on. -/
def after (c : Signals) (n : Nat) : Signals := fun k => c (n + k)

theorem after_zero (c : Signals) : c.after 0 = c := funext fun k => congrArg c (Nat.zero_add k)

theorem later_after (c : Signals) (n : Nat) : (c.after n).later = c.after (n + 1) :=
  funext fun k => congrArg c (by omega)

end Signals

/-! ## Programs that grow keep what fits -/

variable {p : Program}

section

variable {keep later : Nat → Prop} {q : Program}

theorem Program.Callable.mono (h : Program.Retains keep p q)
    (hk : ∀ b s, keep b → p.slots[b]? = some s → later b) {b : Nat} (hb : p.Callable keep b) : q.Callable later b := by
  obtain ⟨body, ho, hkb, s, hs, hf, hl⟩ := hb
  exact ⟨body, ho, hk b s hkb hs, s, h.slots b s hkb hs hf, hf, LoweredAll.mono h hk body hl⟩

theorem Effect.mono (h : Program.Retains keep p q) (hk : ∀ b s, keep b → p.slots[b]? = some s → later b)
    {i : Instr × Bool} {S T : List Shape} (he : Effect keep p i S T) : Effect later q i S T := by
  cases he with
  | loadIdent id _ => exact .loadIdent id _
  | construct id _ => exact .construct id _
  | store n x id _ => exact .store n x id _
  | loadConst _ hv hc => exact .loadConst _ (getElem?_mono h.consts hv) hc
  | createStruct n _ => exact .createStruct n _
  | addField n _ => exact .addField n _
  | beginStruct n _ => exact .beginStruct n _
  | storeField n x _ => exact .storeField n x _
  | makeArray xs _ => exact .makeArray xs _
  | makeFn ids _ hb => exact .makeFn ids _ (hb.mono h hk)
  | call xs x _ => exact .call xs x _
  | arith a n x y _ ho => exact .arith a n x y _ ho
  | loadField n x _ => exact .loadField n x _

theorem Fits.mono (h : Program.Retains keep p q) (hk : ∀ b s, keep b → p.slots[b]? = some s → later b)
    {c : Marked} {S : List Shape} (hf : Fits keep p c S) : Fits later q c S := by
  induction hf with
  | nil S => exact .nil S
  | ret n c x S => exact .ret n c x S
  | cons he _ ih => exact .cons (he.mono h hk) ih

end

namespace Machine

/-! ## (1) Frames, (2) functions -/

def homes (m : Machine) : List (Text × Int) := m.units.map fun u => (u.name, u.block)

/-- The block belongs to no unit. -/
def Free (H : List (Text × Int)) (b : Nat) : Prop := ∀ h ∈ H, h.2 ≠ b

/-- The function has code of its own that fits. -/
def Sound (p : Program) (H : List (Text × Int)) (c : Closure) : Prop :=
  ∃ b : Nat, c.proto.block = b ∧ p.Callable (Free H) b

/-- The frame stands at a place of its block that fits its operands. If a result is owed to the frame,
    it is one operand short. -/
def Level (p : Program) (H : List (Text × Int)) (f : Frame) (owed : Bool) : Prop :=
  ∃ (b : Nat) (s : Slot) (code : Block) (S : List Shape), f.block = b ∧ p.slots[b]? = some s ∧ s.code = some code ∧
    Shapes S f.operands ∧ Fits (Free H) p (s.marked.drop f.pc) (if owed then .any :: S else S) ∧
    S.length + owed.toNat = heightAt code f.pc ∧ ((∀ j ∈ code.take f.pc, j.op ≠ .ret) ∨ f.pc = code.length)

/-- All frames are level. A function owes its result to the frame below. -/
def Stacked (p : Program) (H : List (Text × Int)) : Bool → List Frame → Prop
  | _, [] => True
  | owed, f :: fs => Level p H f owed ∧ Stacked p H f.returns fs

variable {owed : Bool} {f : Frame} {H : List (Text × Int)} {s : Slot} {i : Instr} {m m' : Machine} {code : Block}
  {K : List Closure} {Q : Closure → Prop}

section

variable {q : Program} {H' : List (Text × Int)}

theorem Sound.mono (h : Program.Retains (Free H) p q) (hk : ∀ b s, Free H b → p.slots[b]? = some s → Free H' b)
    {c : Closure} (hc : Sound p H c) : Sound q H' c := by
  obtain ⟨b, hb, hcall⟩ := hc
  exact ⟨b, hb, hcall.mono h hk⟩

theorem Level.mono (h : Program.Retains (Free H) p q) (hk : ∀ b s, Free H b → p.slots[b]? = some s → Free H' b)
    (hs : ∀ (b : Nat) (s : Slot), f.block = b → p.slots[b]? = some s → s.code.isSome = true → q.slots[b]? = some s)
    (hf : Level p H f owed) : Level q H' f owed := by
  obtain ⟨b, s, code, S, hb, hslot, hcode, hS, hfit, hlen, hret⟩ := hf
  exact ⟨b, s, code, S, hb, hs b s hb hslot (by rw [hcode]; rfl), hcode, hS, hfit.mono h hk, hlen, hret⟩

theorem Stacked.mono {fs : List Frame} (h : Program.Retains (Free H) p q)
    (hk : ∀ b s, Free H b → p.slots[b]? = some s → Free H' b)
    (hs : ∀ f ∈ fs, ∀ (b : Nat) (s : Slot), f.block = b → p.slots[b]? = some s → s.code.isSome = true →
      q.slots[b]? = some s) (hf : Stacked p H owed fs) : Stacked q H' owed fs := by
  induction fs generalizing owed with
  | nil => trivial
  | cons f fs ih =>
    simp only [List.forall_mem_cons] at hs
    exact ⟨hf.1.mono h hk hs.1, ih hs.2 hf.2⟩

/-- A frame that is given the result owed to it is level. -/
theorem Level.push (hf : Level p H f true) (v : Value) : Level p H (f.pushValue v) false := by
  obtain ⟨b, s, code, S, hb, hslot, hcode, hS, hfit, hlen, hret⟩ := hf
  exact ⟨b, s, code, .any :: S, hb, hslot, hcode, .cons trivial hS, hfit, hlen, hret⟩

theorem Stacked.deliver {fs : List Frame} (h : Stacked p H true fs) (v : Value) : Stacked p H false (deliver v fs) := by
  cases fs with
  | nil => trivial
  | cons f fs => exact ⟨h.1.push v, h.2⟩

/-- A frame at the start of code that fits. -/
theorem level_start {b : Nat} {body : List Node} (hb : f.block = b) (hs : p.slots[b]? = some s)
    (hc : s.code.isSome = true) (ho : Node.everyNode Node.isOrderly body = true)
    (hl : LoweredAll (Free H) p 0 body s.marked) (hpc : f.pc = 0) (hos : f.operands = []) : Level p H f false := by
  obtain ⟨code, hcode⟩ := Option.isSome_iff_exists.mp hc
  refine ⟨b, s, code, [], hb, hs, hcode, by rw [hos]; exact .nil, ?_, ?_, .inl (by simp [hpc])⟩
  · rw [hpc]
    exact body_fits ho hl []
  · rw [hpc]
    cases code <;> rfl

theorem level_callee {c : Closure} (hc : Sound p H c) (hb : f.block = c.proto.block) (hpc : f.pc = 0)
    (hos : f.operands = []) : Level p H f false := by
  obtain ⟨b, e, body, ho, -, s, hs, hcode, hl⟩ := hc
  exact level_start (hb.trans e) hs hcode ho hl hpc hos

end

/-! ## What an instruction keeps -/

section

variable {rest : List Frame} {stop pc : Nat}

theorem Does.homes (h : Does m f rest stop pc i m') : m'.homes = m.homes := by
  cases h with
  | construct id _ _ =>
    simp only [Machine.homes, newObject, List.map_map]
    refine List.map_congr_left fun u _ => ?_
    simp only [Function.comp_apply]
    split <;> rfl
  | _ => rfl

/-- The code at the place of a frame. -/
theorem marked_drop (hc : s.code = some code) {n : Nat} (hi : code[n]? = some i) :
    s.marked.drop n = (i, (s.sites.getD []).contains n) :: s.marked.drop (n + 1) := by
  have hm := s.marked_getElem? n
  rw [hc, Option.getD_some, hi] at hm
  obtain ⟨hlt, e⟩ := List.getElem?_eq_some_iff.mp hm
  rw [List.drop_eq_getElem_cons hlt, e]

/-- The frame behind an instruction is level, one operand short if the result of a call is owed to it. -/
theorem Level.next {g : Frame} {b : Nat} {site : Bool} {S T U : List Shape}
    (hb : f.block = b) (hs : p.slots[b]? = some s) (hc : s.code = some code) (hi : code[f.pc]? = some i)
    (hr : ∀ j ∈ code.take f.pc, j.op ≠ .ret) (hl : S.length = heightAt code f.pc)
    (he : Effect (Free H) p (i, site) S T) (hf : Fits (Free H) p (s.marked.drop (f.pc + 1)) T)
    (hg : SameRun { f with pc := f.pc + 1 } g) (hU : Shapes U g.operands) (hT : T = if owed then .any :: U else U) :
    Level p H g owed := by
  obtain ⟨hn, hlen, -⟩ := he.length
  refine ⟨b, s, code, U, hg.block.trans hb, hs, hc, hU, ?_, ?_, .inl ?_⟩
  · rw [hg.pc, ← hT]
    exact hf
  · have hh : heightAt code (f.pc + 1) = heightAt code f.pc - i.takes + i.gives := heightFrom_succ hr hi hn
    rw [hg.pc, hh, ← hl, ← hlen, hT]
    cases owed <;> simp
  · rw [hg.pc, List.take_add_one, hi]
    intro j hj
    rcases mem_append.mp hj with hj | hj
    · exact hr j hj
    · simp only [Option.toList_some, mem_singleton] at hj
      exact hj ▸ hn

/-- What holds of every function goes on to hold of it behind an instruction that fits. -/
theorem effect_every {site : Bool} {S T : List Shape} (he : Effect (Free H) m.program (i, site) S T)
    (hS : Shapes S f.operands) (hd : Does m f rest stop pc i m') (hs : m.scopes.Every (Sound m.program H))
    (hf : f.Every (Sound m.program H)) (hr : ∀ g ∈ rest, g.Every (Sound m.program H)) :
    m'.Every (Sound m.program H) := by
  refine hd.every hs hf hr ?_ ?_
  · intro v ho hv
    cases he with
    | @loadConst k u S hu hc =>
      have : m.program.const? k = m.program.consts[k]? := rfl
      rw [this, hu] at hv
      cases hv
      exact hc.mono fun _ => False.elim
    | arith a n x y S e => subst e; cases a <;> cases ho
    | _ => cases ho
  · intro p j as os ids ho hos hp hn hids
    cases he with
    | makeFn ids S hc =>
      rw [hos] at hS
      cases hS with
      | cons hv _ =>
        cases hv
        exact ⟨_, rfl, hc⟩
    | arith a n x y S e => subst e; cases a <;> cases ho
    | _ => cases ho

/-- An instruction keeps the frames level and all functions sound. The frames it leaves run for the
    unit and in the block of one that was there, or in a block of no unit. -/
theorem exec_stacked (hm : m.frames = f :: rest) (hw : m.awaiting = false)
    (hst : Stacked m.program H false (f :: rest)) (hev : m.Every (Sound m.program H))
    (hb : m.program.block? f.block = some code) (hi : code[f.pc]? = some i)
    (hd : Does m { f with pc := f.pc + 1 } rest code.length f.pc i m') :
    Stacked m.program H m'.awaiting m'.frames ∧ m'.Every (Sound m.program H) ∧
      ∀ g ∈ m'.frames, (∃ k ∈ f :: rest, g.block = k.block ∧ g.unit = k.unit) ∨
        ∃ b : Nat, g.block = b ∧ Free H b := by
  obtain ⟨⟨b, s, code', S, hblock, hslot, hcode, hS, hfit, hlen, hret⟩, hrest⟩ := hst
  obtain rfl : code' = code := by
    rw [hblock, Program.block?_of_slot hslot, hcode] at hb
    simpa using hb
  have hlt : f.pc < code'.length := (List.getElem?_eq_some_iff.mp hi).1
  have hnoret : ∀ j ∈ code'.take f.pc, j.op ≠ .ret := hret.resolve_right (by omega)
  have hf := hev.frames f (by simp [hm])
  have hframes : ∀ g ∈ rest, g.Every (Sound m.program H) := fun g hg => hev.frames g (by simp [hm, hg])
  have hf' : ({ f with pc := f.pc + 1 } : Frame).Every (Sound m.program H) := ⟨hf.operands, hf.groups, hf.result⟩
  have hsite : m.program.isConstructor f.block f.pc = (s.sites.getD []).contains f.pc := by
    rw [hblock]
    exact Program.isConstructor_of_slot hslot f.pc
  have old {g : Frame} (hg : SameRun { f with pc := f.pc + 1 } g) :
      ∀ k ∈ g :: rest, (∃ k' ∈ f :: rest, k.block = k'.block ∧ k.unit = k'.unit) ∨
        ∃ b : Nat, k.block = b ∧ Free H b := by
    intro k hk
    rcases mem_cons.mp hk with rfl | hk
    · exact .inl ⟨f, List.mem_cons_self, hg.block, hg.unit⟩
    · exact .inl ⟨k, mem_cons_of_mem _ hk, rfl, rfl⟩
  rw [marked_drop hcode hi] at hfit
  generalize (s.sites.getD []).contains f.pc = site at hfit hsite
  cases hfit with
  | ret n c x S =>
    have hall := hd.every hev.scopes hf' hframes nofun nofun
    cases hd with
    | arith a n ho _ _ => cases a <;> cases ho
    | retNone n hos =>
      have hos : f.operands = [] := hos
      rw [hos] at hS
      cases hS
    | @ret n v j os hos =>
      have hos : f.operands = ⟨some v, j⟩ :: os := hos
      rw [hos] at hS
      cases hS with
      | cons _ hS =>
        have hend : s.marked.drop code'.length = [] := by
          rw [List.drop_eq_nil_iff]
          simp [Slot.marked, hcode]
        have hh : heightAt code' code'.length = heightAt code' f.pc - 1 := heightFrom_ret hnoret hi rfl
        have hl : S.length + 1 = heightAt code' f.pc := by simpa using hlen
        refine ⟨⟨⟨b, s, code', S, hblock, hslot, hcode, hS, ?_, ?_, .inr rfl⟩, hrest⟩, hall, ?_⟩
        · change Fits _ _ (s.marked.drop code'.length) _
          rw [hend]
          exact .nil _
        · change S.length + m.awaiting.toNat = heightAt code' code'.length
          rw [hw, hh]
          simp
          omega
        · intro k hk
          rcases mem_cons.mp hk with rfl | hk
          · exact .inl ⟨f, List.mem_cons_self, rfl, rfl⟩
          · exact .inl ⟨k, mem_cons_of_mem _ hk, rfl, rfl⟩
  | @cons _ _ _ T he hfit =>
    have hS' : Shapes S ({ f with pc := f.pc + 1 } : Frame).operands := hS
    have hall := effect_every he hS' hd hev.scopes hf' hframes
    have hl : S.length = heightAt code' f.pc := hlen
    have level {g : Frame} {U : List Shape} (owed : Bool) (hg : SameRun { f with pc := f.pc + 1 } g)
        (hU : Shapes U g.operands) (hT : T = if owed then .any :: U else U) : Level m.program H g owed :=
      Level.next hblock hslot hcode hi hnoret hl he hfit hg hU hT
    cases effect_lands he hS' hsite hd with
    | stay g hfr hg hU haw =>
      rw [hfr, haw, hw]
      have hret : g.returns = f.returns := hg.returns
      exact ⟨⟨level false hg hU rfl, hret ▸ hrest⟩, hall, old hg⟩
    | ask g U hT hfr hg hU haw =>
      rw [hfr, haw]
      have hret : g.returns = f.returns := hg.returns
      exact ⟨⟨level true hg hU hT, hret ▸ hrest⟩, hall, old hg⟩
    | enter c callee g U hT hfr hg hU haw hmem hcb hpc hos hunit hcr =>
      obtain ⟨o, ho, hv⟩ := hmem
      have hc : Sound m.program H c := by
        have := hf.operands o ho
        rw [hv] at this
        exact this
      have hret : g.returns = f.returns := hg.returns
      rw [hfr, haw, hw]
      refine ⟨⟨level_callee hc hcb hpc hos, ?_, ?_⟩, hall, ?_⟩
      · rw [hcr]
        exact level true hg hU hT
      · exact hret ▸ hrest
      · obtain ⟨b', e, body, ho, hfree, hs⟩ := hc
        intro k hk
        rcases mem_cons.mp hk with rfl | hk
        · exact .inr ⟨b', hcb.trans e, hfree⟩
        · exact old hg k hk

end

/-! ## (3) Operations -/

/-- The halt does not say that the code is broken, and no function could not be made. -/
def Decent (h : Halt) : Prop := h.toClass.isBroken = false ∧ ∀ b pc i f, h = .fault b pc i f → i.op ≠ .makeFn

/-- The frames of a machine that is not halted are level, and so are all frames below the one on top. The instruction
    that halted a machine has taken operands from the one on top, and nothing is put back. -/
def Tiered (p : Program) (H : List (Text × Int)) (m : Machine) : Prop :=
  (m.halted = none → Stacked p H m.awaiting m.frames) ∧
    ∀ f rest, m.frames = f :: rest → Stacked p H f.returns rest

/-- Frames and functions are as they should be. `K` are functions that the machine made. -/
structure Disciplined (K : List Closure) (m : Machine) : Prop where
  homes : ∀ h ∈ m.homes, ∃ n : Nat, h.2 = n ∧ n < m.program.slots.length
  alone : ∀ h ∈ m.homes, ∀ k ∈ m.homes, h.2 = k.2 → h.1 = k.1
  tiered : m.Tiered m.program m.homes
  owners : ∀ f ∈ m.frames, ∀ h ∈ m.homes, f.block = h.2 → f.unit = h.1
  every : m.Every (Sound m.program m.homes)
  made : ∀ c ∈ K, Sound m.program m.homes c
  halted : ∀ h, m.halted = some h → Decent h ∧ m.awaiting = false

section

variable {rest : List Frame} {e : Fault} {s : Signal}

theorem Stacked.below {fs : List Frame} (h : Stacked p H owed fs) : ∀ f rest, fs = f :: rest → Stacked p H f.returns rest := by
  rintro f rest rfl
  exact h.2

theorem Stacked.tiered (h : Stacked p H m.awaiting m.frames) : m.Tiered p H := ⟨fun _ => h, h.below⟩

/-- An instruction that succeeds keeps the discipline. -/
theorem Disciplined.exec (hm : Disciplined K m)
    (hh : m.halted = none) (hw : m.awaiting = false) (hf : m.frames = f :: rest)
    (hb : m.program.block? f.block = some code) (hi : code[f.pc]? = some i)
    (he : m.exec { f with pc := f.pc + 1 } rest code.length f.pc i = .ok m') : Disciplined K m' := by
  have hd := exec_ok he
  have hp : m'.program = m.program := hd.program
  have hH : m'.homes = m.homes := hd.homes
  have hh' : m'.halted = none := hd.halted.trans hh
  have hst := hm.tiered.1 hh
  rw [hw, hf] at hst
  obtain ⟨h1, h2, h3⟩ := exec_stacked hf hw hst hm.every hb hi hd
  refine ⟨?_, ?_, ?_, ?_, ?_, ?_, ?_⟩
  · rw [hH, hp]
    exact hm.homes
  · rw [hH]
    exact hm.alone
  · rw [hH, hp]
    exact h1.tiered
  · rw [hH]
    intro g hg h hh e
    rcases h3 g hg with ⟨k, hk, hkb, hku⟩ | ⟨b, hgb, hfree⟩
    · rw [hku]
      exact hm.owners k (hf ▸ hk) h hh (hkb ▸ e)
    · exact absurd (e.symm.trans hgb) (hfree h hh)
  · rw [hH, hp]
    exact h2
  · rw [hH, hp]
    exact hm.made
  · intro h e
    rw [hh'] at e
    cases e

/-- A machine that changed only what the discipline does not speak of. -/
theorem Disciplined.congr (hm : Disciplined K m) (hp : m'.program = m.program) (hH : m'.homes = m.homes)
    (hs : m'.scopes = m.scopes) (hev : ∀ f ∈ m'.frames, f.Every (Sound m.program m.homes))
    (hst : m'.Tiered m.program m.homes)
    (hown : ∀ f ∈ m'.frames, ∃ g ∈ m.frames, f.block = g.block ∧ f.unit = g.unit)
    (hh : ∀ h, m'.halted = some h → Decent h ∧ m'.awaiting = false) : Disciplined K m' := by
  refine ⟨?_, ?_, ?_, ?_, ⟨?_, ?_⟩, ?_, hh⟩
  · rw [hH, hp]
    exact hm.homes
  · rw [hH]
    exact hm.alone
  · rw [hH, hp]
    exact hst
  · rw [hH]
    intro f hf h hin e
    obtain ⟨g, hg, hb, hu⟩ := hown f hf
    rw [hu]
    exact hm.owners g hg h hin (hb ▸ e)
  · rw [hs, hH, hp]
    exact hm.every.scopes
  · rw [hH, hp]
    exact hev
  · rw [hH, hp]
    exact hm.made

theorem Disciplined.terminate (hm : Disciplined K m) : Disciplined K m.terminate := by
  unfold Machine.terminate
  split
  · exact hm
  · exact hm.congr rfl rfl rfl hm.every.frames hm.tiered (fun f hf => ⟨f, hf, rfl, rfl⟩) hm.halted

theorem Disciplined.abort (hm : Disciplined K m) : Disciplined K m.abort :=
  hm.congr rfl rfl rfl hm.every.frames hm.tiered (fun f hf => ⟨f, hf, rfl, rfl⟩) hm.halted

theorem frames_deliver {v : Value} {fs : List Frame} (h : f ∈ deliver v fs) :
    ∃ g ∈ fs, f.block = g.block ∧ f.unit = g.unit := by
  cases fs with
  | nil => cases h
  | cons g gs =>
    rcases mem_cons.mp h with rfl | h
    · exact ⟨g, List.mem_cons_self, rfl, rfl⟩
    · exact ⟨f, mem_cons_of_mem _ h, rfl, rfl⟩

/-- Leaving a frame keeps the discipline. -/
theorem Disciplined.leave (hm : Disciplined K m) (hh : m.halted = none)
    (hw : m.awaiting = false) (hf : m.frames = f :: rest) (he : m.leave f rest = .ok m') : Disciplined K m' := by
  have hev := every_leave he hm.every.scopes (hm.every.frames f (by simp [hf])) fun g hg =>
    hm.every.frames g (by simp [hf, hg])
  have hst := hm.tiered.1 hh
  rw [hw, hf] at hst
  obtain ⟨fs, hfs, rfl⟩ := leave_ok.mp he
  have hst' : Stacked m.program m.homes false fs := by
    rcases hfs with ⟨hr, rfl⟩ | ⟨hr, v, -, rfl⟩
    · have := hst.2
      rwa [hr] at this
    · have := hst.2
      rw [hr] at this
      exact this.deliver v
  have hown : ∀ g ∈ fs, ∃ k ∈ m.frames, g.block = k.block ∧ g.unit = k.unit := by
    intro g hg
    rw [hf]
    rcases hfs with ⟨-, rfl⟩ | ⟨-, v, -, rfl⟩
    · exact ⟨g, mem_cons_of_mem _ hg, rfl, rfl⟩
    · obtain ⟨k, hk, h⟩ := frames_deliver hg
      exact ⟨k, mem_cons_of_mem _ hk, h⟩
  have hframes : ∀ g ∈ fs, g.Every (Sound m.program m.homes) := by
    intro g hg
    refine hev.frames g ?_
    split
    · unfold Machine.terminate
      split <;> exact hg
    · exact hg
  have hw' : Disciplined K (m.withFrames fs) := by
    refine hm.congr rfl rfl rfl hframes ?_ hown fun h e => ?_
    · refine Stacked.tiered ?_
      change Stacked _ _ m.awaiting fs
      rw [hw]
      exact hst'
    · have : m.halted = some h := e
      rw [hh] at this
      cases this
  split
  · exact hw'.terminate
  · exact hw'

/-- A machine that stops for a decent reason keeps the discipline, whatever was taken from the frame on top. -/
theorem Disciplined.halt (hm : Disciplined K m) {fs : List Frame} {h : Halt} (hd : Decent h)
    (hfs : ∀ f ∈ fs, f.Every (Sound m.program m.homes) ∧ ∃ g ∈ m.frames, f.block = g.block ∧ f.unit = g.unit)
    (hst : ∀ f rest, fs = f :: rest → Stacked m.program m.homes f.returns rest) :
    Disciplined K ((m.withFrames fs).halt h) := by
  refine hm.congr rfl rfl rfl (fun f hf => (hfs f hf).1) ⟨nofun, hst⟩ (fun f hf => (hfs f hf).2) fun h' e => ?_
  have e : some h = some h' := e
  cases e
  exact ⟨hd, rfl⟩

theorem safe_leave (h : m.leave f rest = .error e) :
    e.toClass.isBroken = false ∧ f.returns = true := by
  have hs : ∀ e', m.frameResult f = .error e' → e'.toClass.isBroken = false := by
    intro e' he
    unfold frameResult at he
    split at he
    · cases he
    · split at he
      · cases he
      · rename_i s hp
        cases he
        exact safe_popResult s hp
  unfold Machine.leave at h
  cases hr : f.returns with
  | false => simp [hr, bind, Except.bind, pure, Except.pure] at h
  | true =>
    refine ⟨?_, rfl⟩
    cases hv : m.frameResult f with
    | ok v => simp [hr, hv, bind, Except.bind, Except.map, pure, Except.pure] at h
    | error e' =>
      simp only [hr, hv, bind, Except.bind, Except.map, if_true, Except.error.injEq] at h
      exact hs e (h ▸ hv)

/-- A frame that is level has a block. -/
theorem Level.block {p : Program} {H : List (Text × Int)} {owed : Bool} (h : Level p H f owed) :
    ∃ code, p.block? f.block = some code := by
  obtain ⟨b, s, code, S, hb, hs, -⟩ := h
  exact ⟨_, hb ▸ Program.block?_of_slot hs⟩

/-- An instruction of a frame that is level does not fail because the code is broken. -/
theorem Level.error
    (hl : Level m.program H f false) (hb : m.program.block? f.block = some code) (hi : code[f.pc]? = some i)
    {e : Stuck} (he : m.exec { f with pc := f.pc + 1 } rest code.length f.pc i = .error e) :
    e.fault.toClass.isBroken = false ∧ i.op ≠ .makeFn := by
  obtain ⟨b, s, code', S, hblock, hslot, hcode, hS, hfit, -, -⟩ := hl
  obtain rfl : code' = code := by
    rw [hblock, Program.block?_of_slot hslot, hcode] at hb
    simpa using hb
  rw [marked_drop hcode hi] at hfit
  generalize (s.sites.getD []).contains f.pc = site at hfit
  cases hfit with
  | ret n c x S => exact ⟨safe_ret e he, by simp⟩
  | @cons _ _ _ T heff _ =>
    have hS' : Shapes S ({ f with pc := f.pc + 1 } : Frame).operands := hS
    exact effect_error heff hS' he

theorem decent_fault {b : Int} {pc : Nat} (he : e.toClass.isBroken = false)
    (hi : i.op ≠ .makeFn) : Decent (.fault b pc i e) := by
  refine ⟨he, fun b' pc' i' f' h => ?_⟩
  cases h
  exact hi

theorem Spent.sameRun {g : Frame} (h : Spent f g) : SameRun f g := by
  cases h
  constructor <;> rfl

theorem Disciplined.tick (hm : Disciplined K m) (hh : m.halted = none) (hw : m.awaiting = false) :
    (∀ m', m.tick s = .go m' → Disciplined K m' ∧ m'.halted = none ∧ m'.awaiting = false) ∧
    (∀ m', m.tick s = .pause m' → Disciplined K m') ∧
    (∀ m' h, m.tick s = .stop m' h → Disciplined K (m'.halt h)) := by
  have hst := hm.tiered.1 hh
  rw [hw] at hst
  have turns := tick_turns s m
  generalize m.tick s = t at turns
  have same {f : Frame} (hf : f ∈ m.frames) :
      f.Every (Sound m.program m.homes) ∧ ∃ g ∈ m.frames, f.block = g.block ∧ f.unit = g.unit :=
    ⟨hm.every.frames f hf, f, hf, rfl, rfl⟩
  refine ⟨?_, ?_, ?_⟩
  · rintro m' rfl
    cases turns with
    | went _ _ hf hb hi he hw' => exact ⟨hm.exec hh hw hf hb hi he, (exec_ok he).halted.trans hh, hw'⟩
  · rintro m' rfl
    cases turns with
    | idle _ _ _ => exact hm.terminate
    | left _ _ hf _ _ hl => exact hm.leave hh hw hf hl
    | asked _ _ hf hb hi he _ => exact hm.exec hh hw hf hb hi he
  · have outside {h : Halt} (hd : Decent h) : Disciplined K (m.halt h) := hm.halt hd (fun _ => same) hst.below
    rintro m' h rfl
    cases turns with
    | aborted _ => exact outside ⟨rfl, fun b pc i f e => by cases e⟩
    | signalled _ _ => exact hm.abort.halt ⟨rfl, fun b pc i f e => by cases e⟩ (fun _ => same) hst.below
    | cancelled _ _ => exact outside ⟨rfl, fun b pc i f e => by cases e⟩
    | @noBlock f rest _ _ hf hb =>
      rw [hf] at hst
      obtain ⟨code, hc⟩ := hst.1.block
      rw [hb] at hc
      cases hc
    | @lost f rest code e _ _ hf hb hi hl =>
      rw [hf] at hst
      exact hm.halt (decent_fault (safe_leave hl).1 (by simp)) (fun g hg => same (hf ▸ mem_cons_of_mem f hg)) hst.2.below
    | @failed f rest code i e _ _ hf hb hi he =>
      rw [hf] at hst
      obtain ⟨hs, hi'⟩ := hst.1.error hb hi he
      have hspent := exec_error he
      have htop : e.frame.Every (Sound m.program m.homes) ∧ ∃ g ∈ m.frames, e.frame.block = g.block ∧ e.frame.unit = g.unit := by
        have hev := hm.every.frames f (by simp [hf])
        exact ⟨hev.spend hspent, f, by simp [hf], hspent.sameRun.block, hspent.sameRun.unit⟩
      have hreturns : e.frame.returns = f.returns := hspent.sameRun.returns
      refine hm.halt (decent_fault hs hi') (fun g hg => ?_) fun g below heq => ?_
      · rcases mem_cons.mp hg with rfl | hg
        · exact htop
        · exact same (hf ▸ mem_cons_of_mem f hg)
      · cases heq
        rw [hreturns]
        exact hst.2

end

/-! ## Steps -/

/-- The function that the next instruction makes, if it makes one. -/
def makes? (s : Signal) (m : Machine) : Option Closure :=
  match m.current?.map (·.op), m.tick s with
  | some Op.makeFn, .go m' =>
    match m'.frames.head?.bind (·.operands.head?) with
    | some ⟨some (.closure f), _⟩ => some f
    | _ => none
  | _, _ => none

def madeIn (c : Signals) : Nat → Machine → List Closure
  | 0, _ => []
  | n + 1, m =>
    match m.tick (c 0) with
    | .go m' => (m.makes? (c 0)).toList ++ madeIn c.later n m'
    | _ => []

def stepMakes (c : Signals) (m : Machine) : List Closure :=
  if m.halted.isSome || m.awaiting then [] else madeIn c m.stepBound m

/-- `Passes c m n k`: after `n` ticks a step of `m` has come to `k`. -/
inductive Passes (c : Signals) (m : Machine) : Nat → Machine → Prop
  | start : Passes c m 0 m
  | go {n : Nat} {k k' : Machine} : m.halted = none → m.awaiting = false → Passes c m n k → k.tick (c n) = .go k' →
      Passes c m (n + 1) k'

section

variable {c : Signals} {s : Signal}

/-- A step goes on from each machine that it passes through. -/
theorem Passes.steps {n : Nat} {k : Machine} (h : Passes c m n k) {d : Nat} {r : Except MachineError Unit}
    (hs : Steps (c.after n) k d r m') : ∃ d', Steps c m d' r m' := by
  induction h generalizing d with
  | start => exact ⟨d, c.after_zero ▸ hs⟩
  | @go n _ _ _ _ _ ht ih => exact ih (.go ht (c.later_after n ▸ hs))

theorem sound_makes? {f : Closure} (h : m.makes? s = some f) (ht : m.tick s = .go m') (hev : m'.Every Q) : Q f := by
  unfold makes? at h
  rw [ht] at h
  split at h
  · rename_i m'' _ e
    cases e
    split at h
    · rename_i g j e
      cases h
      obtain ⟨k, hk, ho⟩ := Option.bind_eq_some_iff.mp e
      have := (hev.frames k (List.mem_of_mem_head? hk)).operands _ (List.mem_of_mem_head? ho)
      exact this
    · cases h
  · cases h

theorem Disciplined.add {F : List Closure} (hm : Disciplined K m) (hF : ∀ f ∈ F, Sound m.program m.homes f) :
    Disciplined (K ++ F) m := by
  refine ⟨hm.homes, hm.alone, hm.tiered, hm.owners, hm.every, fun f hf => ?_, hm.halted⟩
  rcases mem_append.mp hf with hf | hf
  · exact hm.made f hf
  · exact hF f hf

theorem Disciplined.ticks {n : Nat} (hm : Disciplined K m) (hh : m.halted = none) (hw : m.awaiting = false) :
    Disciplined (K ++ madeIn c n m) (Machine.ticks c n m).2 := by
  induction n generalizing K m c with
  | zero => simpa [Machine.ticks, madeIn] using hm
  | succ n ih =>
    obtain ⟨hgo, hpause, hstop⟩ := hm.tick (s := c 0) hh hw
    unfold Machine.ticks madeIn
    cases ht : m.tick (c 0) with
    | go m' =>
      obtain ⟨hm', hh', hw'⟩ := hgo m' ht
      have hF : ∀ f ∈ (m.makes? (c 0)).toList, Sound m'.program m'.homes f := by
        intro f hf
        exact sound_makes? (Option.mem_toList.mp hf) ht hm'.every
      have := ih (c := c.later) (hm'.add hF) hh' hw'
      rwa [List.append_assoc] at this
    | pause m' => simpa using hpause m' ht
    | stop m' h => simpa using hstop m' h ht

theorem Disciplined.step (hm : Disciplined K m) : Disciplined (K ++ m.stepMakes c) (m.step c).2 := by
  unfold Machine.step stepMakes
  cases hh : m.halted with
  | some h => simpa using hm
  | none =>
    cases hw : m.awaiting with
    | true => simpa using hm
    | false => simpa using hm.ticks hh hw

theorem Disciplined.passes {n : Nat} {k : Machine} (hm : Disciplined K m) (h : Passes c m n k) :
    Disciplined K k ∧ k.halted = m.halted ∧ k.awaiting = m.awaiting := by
  induction h with
  | start => exact ⟨hm, rfl, rfl⟩
  | @go n k k' hh hw _ ht ih =>
    obtain ⟨hk, hh', hw'⟩ := ih
    obtain ⟨hk', h1, h2⟩ := (hk.tick (s := c n) (hh'.trans hh) (hw'.trans hw)).1 k' ht
    exact ⟨hk', h1.trans hh.symm, h2.trans hw.symm⟩

/-- A step that fails for a halt leaves the machine halted by it. -/
theorem step_halted {e : MachineError} {h : Halt} (he : (m.step c).1 = .error e) (hh : e.halt? = some h) :
    (m.step c).2.halted = some h := by
  have ticked {n : Nat} : ∀ {c : Signals} {m : Machine}, (Machine.ticks c n m).1 = .error e →
      (Machine.ticks c n m).2.halted = some h := by
    induction n with
    | zero => exact fun he => by cases he
    | succ n ih =>
      intro c m he
      unfold Machine.ticks at he ⊢
      cases ht : m.tick (c 0) with
      | go m' =>
        simp only [ht] at he ⊢
        exact ih he
      | pause m' =>
        simp only [ht] at he
        cases he
      | stop m' h' =>
        simp only [ht] at he ⊢
        cases he
        exact hh
  unfold Machine.step at he ⊢
  cases hm : m.halted with
  | some h' =>
    simp only [hm] at he ⊢
    cases he
    exact hh
  | none =>
    cases hw : m.awaiting with
    | true =>
      simp only [hm, hw, if_true] at he
      cases he
      cases hh
    | false =>
      simp only [hm, hw] at he ⊢
      exact ticked he

end

/-! ## Other operations -/

theorem Disciplined.drain (hm : Disciplined K m) : Disciplined K m.drain.2 :=
  hm.congr rfl rfl rfl hm.every.frames hm.tiered (fun f hf => ⟨f, hf, rfl, rfl⟩) hm.halted

theorem Disciplined.reset (hm : Disciplined K m) : Disciplined K m.reset :=
  hm.congr rfl rfl rfl (fun f hf => by cases hf) ⟨fun _ => trivial, nofun⟩ (fun f hf => by cases hf) (fun h e => by cases e)

theorem Disciplined.resume (hm : Disciplined K m) {v : Option Value} (hv : Value.EveryPlace (· ∈ K) v) :
    Disciplined K (m.resume v).2 := by
  cases hw : m.awaiting with
  | false =>
    rw [resume_refused hw]
    exact hm
  | true =>
    have hh : m.halted = none := by
      cases hh : m.halted with
      | none => rfl
      | some h =>
        have := (hm.halted h hh).2
        rw [hw] at this
        cases this
    have hst := hm.tiered.1 hh
    rw [hw] at hst
    have hv' : (v.getD .none).Every (Sound m.program m.homes) := by
      cases v with
      | none => trivial
      | some v => exact Value.Every.mono hm.made hv
    rw [resume_eq hw]
    refine hm.congr rfl rfl rfl ?_ ?_ (fun f hf => frames_deliver hf) fun h e => ?_
    · have hall := hm.every.frames
      cases hf : m.frames with
      | nil => exact fun g hg => by cases hg
      | cons f rest =>
        rw [hf] at hall
        simp only [deliver, List.forall_mem_cons] at hall ⊢
        exact ⟨hall.1.push hv', hall.2⟩
    · exact Stacked.tiered (hst.deliver _)
    · have e : m.halted = some h := e
      rw [hh] at e
      cases e

/-! ## Loading -/

section

variable {name : Text} {ns : List Node}

variable {u : CodeUnit}

/-- A machine whose program has grown, perhaps with a unit more, and that enters code that fits. -/
theorem Disciplined.grow (hm : Disciplined K m) (hh : m.halted = none)
    (hw : m.awaiting = false) (hr : Program.Retains (Free m.homes) m.program p)
    (hk : ∀ b s, Free m.homes b → m.program.slots[b]? = some s → Free H b)
    (hs : ∀ f ∈ m.frames, ∀ (b : Nat) (s : Slot), f.block = b → m.program.slots[b]? = some s →
      s.code.isSome = true → p.slots[b]? = some s)
    (hH : ∀ h ∈ H, ∃ n : Nat, h.2 = n ∧ n < p.slots.length) (ha : ∀ h ∈ H, ∀ k ∈ H, h.2 = k.2 → h.1 = k.1)
    (hown : ∀ f ∈ m.frames, ∀ h ∈ H, f.block = h.2 → f.unit = h.1)
    {g : Frame} (hg : Level p H g false) (hgr : g.returns = false) (hge : g.Every fun _ => False)
    (hgo : ∀ h ∈ H, g.block = h.2 → g.unit = h.1) (hp' : m'.program = p) (hH' : m'.homes = H)
    (hs' : m'.scopes = m.scopes) (hf' : m'.frames = g :: m.frames) (hh' : m'.halted = none)
    (hw' : m'.awaiting = false) : Disciplined K m' := by
  have hst := hm.tiered.1 hh
  rw [hw] at hst
  subst hp' hH'
  refine ⟨hH, ha, ?_, ?_, ⟨?_, ?_⟩, ?_, ?_⟩
  · refine Stacked.tiered ?_
    rw [hw', hf']
    exact ⟨hg, hgr ▸ hst.mono hr hk hs⟩
  · rw [hf']
    intro f hf
    rcases mem_cons.mp hf with rfl | hf
    · exact hgo
    · exact hown f hf
  · rw [hs']
    exact Scopes.Every.mono (fun _ => Sound.mono hr hk) hm.every.scopes
  · rw [hf']
    intro f hf
    rcases mem_cons.mp hf with rfl | hf
    · exact hge.mono fun _ => False.elim
    · exact Frame.Every.mono (fun _ => Sound.mono hr hk) (hm.every.frames f hf)
  · exact fun c hc => (hm.made c hc).mono hr hk
  · rw [hh']
    exact fun h e => by cases e

/-- The frame with which a unit is entered. -/
theorem level_enter {n : Nat} (ho : Node.everyNode Node.isOrderly ns = true)
    (hs : p.slots[n]? = some s) (hc : s.code.isSome = true) (hl : LoweredAll (Free H) p 0 ns s.marked) :
    Level p H { name := name, unit := name, block := n, scope := globals } false :=
  level_start rfl hs hc ho hl rfl rfl

theorem every_enter {b : Int} : ({ name := name, unit := name, block := b, scope := globals } : Frame).Every Q :=
  ⟨by simp, by simp, trivial⟩

theorem Stacked.inside {fs : List Frame} (h : Stacked p H owed fs) :
    ∀ f ∈ fs, ∃ b : Nat, f.block = b ∧ b < p.slots.length := by
  induction fs generalizing owed with
  | nil => exact fun f hf => by cases hf
  | cons g fs ih =>
    intro f hf
    rcases mem_cons.mp hf with rfl | hf
    · obtain ⟨b, s, -, -, hb, hs, -⟩ := h.1
      exact ⟨b, hb, (List.getElem?_eq_some_iff.mp hs).1⟩
    · exact ih h.2 f hf

theorem dropObjects_eq (m : Machine) (ids : List Int) :
    ∃ r q, m.dropObjects ids = { m with registry := r, queue := q } := by
  induction ids generalizing m with
  | nil => exact ⟨m.registry, m.queue, rfl⟩
  | cons id ids ih =>
    obtain ⟨r, q, h⟩ := ih ({ m with registry := m.registry.drop id }.put (.destruct id))
    exact ⟨r, q, h⟩

theorem unit?_eq_some (h : m.unit? name = some u) : (name, u.block) ∈ m.homes := by
  have hn : u.name = name := by simpa using List.find?_some h
  exact List.mem_map.mpr ⟨u, List.mem_of_find?_eq_some h, by rw [hn]⟩

/-- Loading a new unit keeps the discipline. -/
theorem Disciplined.load_new (hm : Disciplined K m) (hh : m.halted = none) (hw : m.awaiting = false)
    (ho : Node.everyNode Node.isOrderly ns = true) (hwhole : Node.everyNode Node.isWhole ns = true)
    (hu : m.unit? name = none) : Disciplined K (m.loadNodes name ns).2 := by
  generalize hH : m.homes ++ [(name, (m.program.slots.length : Int))] = H
  have below : ∀ h ∈ m.homes, h.2 ≠ (m.program.slots.length : Int) := by
    intro h hin e
    obtain ⟨n, hn, hlt⟩ := hm.homes h hin
    omega
  have hfree : ∀ b, m.program.slots.length < b → Free H b := by
    intro b hb h hin
    rw [← hH] at hin
    rcases mem_append.mp hin with hin | hin
    · obtain ⟨n, hn, hlt⟩ := hm.homes h hin
      omega
    · simp only [mem_singleton] at hin
      subst hin
      dsimp only
      omega
  have hnot : ¬ Free H m.program.slots.length := fun hf => hf (name, _) (by simp [← hH]) rfl
  obtain ⟨q, hq, hle, s, hs, hc, hl⟩ := Lower.compile_lowered hwhole hfree hnot
  have e : m.loadNodes name ns = (.ok (), { m with
      program := q, units := m.units ++ [(⟨name, m.program.slots.length, []⟩ : CodeUnit)] }.enter name m.program.slots.length) := by
    unfold loadNodes
    rw [hh]
    simp only [hw, hu, hq]
    rfl
  have inside {b : Nat} {t : Slot} (hb : m.program.slots[b]? = some t) : b < m.program.slots.length :=
    (List.getElem?_eq_some_iff.mp hb).1
  rw [e]
  refine hm.grow hh hw (hle.retains _) ?_ (fun f _ b t _ ht _ => getElem?_mono hle.slots ht) ?_ ?_ ?_
    (level_enter ho hs hc hl) rfl every_enter ?_ rfl ?_ rfl rfl hh hw
  · intro b t hb ht h hin
    rw [← hH] at hin
    rcases mem_append.mp hin with hin | hin
    · exact hb h hin
    · simp only [mem_singleton] at hin
      have := inside ht
      subst hin
      dsimp only
      omega
  · intro h hin
    rw [← hH] at hin
    rcases mem_append.mp hin with hin | hin
    · obtain ⟨n, hn, hlt⟩ := hm.homes h hin
      exact ⟨n, hn, Nat.lt_of_lt_of_le hlt hle.slots.length_le⟩
    · simp only [mem_singleton] at hin
      subst hin
      exact ⟨_, rfl, (List.getElem?_eq_some_iff.mp hs).1⟩
  · intro h hin k kin hk
    rw [← hH] at hin kin
    simp only [mem_append, mem_singleton] at hin kin
    rcases hin with hin | rfl <;> rcases kin with kin | rfl
    · exact hm.alone h hin k kin hk
    · exact absurd hk (below h hin)
    · exact absurd hk.symm (below k kin)
    · rfl
  · intro f hf h hin hb
    rw [← hH] at hin
    simp only [mem_append, mem_singleton] at hin
    rcases hin with hin | rfl
    · exact hm.owners f hf h hin hb
    · obtain ⟨b, hfb, hlt⟩ := (hm.tiered.1 hh).inside f hf
      dsimp only at hb
      omega
  · intro h hin hb
    rw [← hH] at hin
    simp only [mem_append, mem_singleton] at hin
    rcases hin with hin | rfl
    · exact absurd hb.symm (below h hin)
    · rfl
  · rw [← hH]
    simp [Machine.homes, enter]

theorem loadNodes_again {q : Program} (hh : m.halted = none) (hw : m.awaiting = false)
    (hu : m.unit? name = some u) (hq : m.program.recompile u.block ns = (.ok (), q)) :
    m.loadNodes name ns = (.ok (),
      let k := Machine.dropObjects { m with program := q } u.objects
      let units := k.units.map fun v => if v.name = name then { v with objects := [] } else v
      { k with units := units }.enter name u.block) := by
  unfold loadNodes
  split
  · rename_i h e
    rw [hh] at e
    cases e
  · rw [if_neg (by simp [hw])]
    split
    · rename_i v hv
      rw [hu] at hv
      cases hv
      rw [hq]
    · rename_i hv
      rw [hu] at hv
      cases hv

/-- Replacing the code of a unit that no frame runs keeps the discipline. -/
theorem Disciplined.load_again (hm : Disciplined K m) (hh : m.halted = none) (hw : m.awaiting = false)
    (ho : Node.everyNode Node.isOrderly ns = true) (hwhole : Node.everyNode Node.isWhole ns = true)
    (hu : m.unit? name = some u) (hrun : ∀ f ∈ m.frames, f.unit = name → f.block ≠ u.block) :
    Disciplined K (m.loadNodes name ns).2 := by
  have hin := unit?_eq_some hu
  obtain ⟨n, hn, hlt⟩ := hm.homes _ hin
  have hn : u.block = (n : Int) := hn
  have hnot : ¬ Free m.homes n := fun hf => hf _ hin hn
  have hfree : ∀ b, m.program.slots.length ≤ b → Free m.homes b := by
    intro b hb h hin
    obtain ⟨k, hk, hlt⟩ := hm.homes h hin
    omega
  obtain ⟨⟨⟩, q, hq⟩ := Lower.into_succeeds n hwhole m.program
  obtain ⟨hret, hlen, s, hs, hc, hl⟩ := Lower.into_lowered hq hlt hfree hnot
  have hre : m.program.recompile u.block ns = (.ok (), q) := by
    rw [hn]
    change (if n < m.program.slots.length then Lower.result (Lower.into n ns) m.program else _) = _
    rw [if_pos hlt, hq]
  obtain ⟨r, acts, hdrop⟩ := dropObjects_eq { m with program := q } u.objects
  have e : m.loadNodes name ns = (.ok (), { m with
      program := q, registry := r, queue := acts
      units := m.units.map fun v : CodeUnit => if v.name = name then { v with objects := [] } else v }.enter name u.block) := by
    have hload : m.loadNodes name ns = (.ok (), _) := loadNodes_again hh hw hu hre
    rw [hload, hdrop]
  rw [e]
  refine hm.grow hh hw ⟨hret.names, hret.consts, fun b t hb ht hc => hret.slots b t ?_ ht hc⟩ (fun b t hb _ => hb) ?_ ?_
    hm.alone hm.owners (hn ▸ level_enter ho hs hc hl) rfl every_enter ?_ rfl ?_ rfl rfl hh hw
  · rintro rfl
    exact hnot hb
  · intro f hf b t hb ht hc
    refine hret.slots b t ?_ ht hc
    rintro rfl
    have hfb : f.block = u.block := hb.trans hn.symm
    exact hrun f hf (hm.owners f hf _ hin hfb) hfb
  · intro h hh
    obtain ⟨k, hk, hlt⟩ := hm.homes h hh
    exact ⟨k, hk, Nat.lt_of_lt_of_le hlt hlen⟩
  · intro h hh hb
    exact hm.alone _ hin h hh hb
  · simp only [Machine.homes, enter, List.map_map]
    refine List.map_congr_left fun v _ => ?_
    simp only [Function.comp_apply]
    split <;> rfl

/-- A source is loaded whose statements stand where they may, and no code is replaced that a frame of
    its unit runs. -/
def Loads (m : Machine) (name src : Text) : Prop :=
  (∀ ns, Parse.source src = .ok ns → Node.everyNode Node.isPlaced ns = true) ∧
    ∀ u, m.unit? name = some u → ∀ f ∈ m.frames, f.unit = name → f.block ≠ u.block

theorem Disciplined.load {src : Text} (hm : Disciplined K m) (h : m.Loads name src) :
    Disciplined K (m.load name src).2 := by
  unfold Machine.load
  cases hp : Parse.source src with
  | error e => exact hm
  | ok ns =>
    have hparsed : Node.everyNode (Node.isParsed fun _ => true) ns = true := Parse.source_parsed (fun _ _ _ _ => rfl) hp
    have hwhole : Node.everyNode Node.isWhole ns = true := by
      refine Node.everyNode_mono (fun n hn => ?_) hparsed
      simp only [Node.isParsed, Bool.and_eq_true] at hn
      exact hn.1.2
    have horderly : Node.everyNode Node.isOrderly ns = true := by
      refine Node.everyNode_of_both (fun n hn kn => ?_) ns (h.1 ns hp) hparsed
      simp only [Node.isParsed, Bool.and_eq_true] at kn
      simp [Node.isOrderly, hn, kn.1.1]
    dsimp only
    cases hh : m.halted with
    | some e =>
      unfold loadNodes
      rw [hh]
      exact hm
    | none =>
      cases hw : m.awaiting with
      | true =>
        unfold loadNodes
        rw [hh, hw]
        exact hm
      | false =>
        cases hu : m.unit? name with
        | none => exact hm.load_new hh hw horderly hwhole hu
        | some u => exact hm.load_again hh hw horderly hwhole hu (h.2 u hu)

end

/-! ## All machines -/

structure Blank (m : Machine) : Prop where
  units : m.units = []
  frames : m.frames = []
  halted : m.halted = none
  scopes : m.scopes.Every fun _ => False

theorem Blank.disciplined (h : Blank m) : Disciplined [] m := by
  have hH : m.homes = [] := by simp [Machine.homes, h.units]
  refine ⟨by simp [hH], by simp [hH], ?_, by simp [h.frames], ⟨h.scopes.mono fun _ => False.elim, by simp [h.frames]⟩,
    by simp, by simp [h.halted]⟩
  refine Stacked.tiered ?_
  rw [h.frames]
  trivial

theorem blank_ofProgram (p : Program) (o : Options) : Blank (ofProgram p o) := by
  rw [ofProgram_eq]
  exact ⟨rfl, rfl, rfl, Scopes.every_initial _ _ _⟩

inductive Operation where
  | load (name src : Text)
  | step (c : Signals)
  | drain
  | resume (v : Option Value)
  | abort
  | reset

namespace Operation

def apply (m : Machine) : Operation → Machine
  | .load name src => (m.load name src).2
  | .step c => (m.step c).2
  | .drain => m.drain.2
  | .resume v => (m.resume v).2
  | .abort => m.abort
  | .reset => m.reset

def makes (m : Machine) : Operation → List Closure
  | .step c => m.stepMakes c
  | _ => []

/-- The operation keeps to the rules, if the machine has made the functions `K` so far. -/
def Fair (K : List Closure) (m : Machine) : Operation → Prop
  | .load name src => m.Loads name src
  | .resume v => Value.EveryPlace (· ∈ K) v
  | _ => True

end Operation

inductive Reached (o : Options) : List Closure → Machine → Prop
  | new : Reached o [] (Machine.new o)
  | operate {K : List Closure} {m : Machine} (op : Operation) : Reached o K m → op.Fair K m →
      Reached o (K ++ op.makes m) (op.apply m)

theorem Reached.disciplined {o : Options} (h : Reached o K m) : Disciplined K m := by
  induction h with
  | new => exact (blank_ofProgram {} o).disciplined
  | @operate K m op _ hfair hm =>
    cases op with
    | load name src => simpa [Operation.makes, Operation.apply] using hm.load hfair
    | step c => exact hm.step
    | drain => simpa [Operation.makes, Operation.apply] using hm.drain
    | resume v => simpa [Operation.makes, Operation.apply] using hm.resume hfair
    | abort => simpa [Operation.makes, Operation.apply] using hm.abort
    | reset => simpa [Operation.makes, Operation.apply] using hm.reset

/-- Is a result owed to the frame below these? -/
def owesBelow (m : Machine) (above : List Frame) : Bool :=
  match above.getLast? with
  | none => m.awaiting
  | some f => f.returns

/-- Every frame is level, with what the frame right above it owes. -/
theorem Stacked.level {p : Program} {H : List (Text × Int)} {f : Frame} {below : List Frame} :
    ∀ (above : List Frame) {owed : Bool}, Stacked p H owed (above ++ f :: below) →
      Level p H f (match above.getLast? with | none => owed | some g => g.returns)
  | [], _, h => h.1
  | [_], _, h => h.2.1
  | _ :: g :: gs, _, h => Stacked.level (g :: gs) h.2

theorem Tiered.level {p : Program} {H : List (Text × Int)} {m : Machine} {f : Frame} {above below : List Frame}
    (h : m.Tiered p H) (hf : m.frames = above ++ f :: below) (hrun : m.halted = none ∨ above ≠ []) :
    Level p H f (m.owesBelow above) := by
  cases above with
  | nil =>
    have hst := h.1 (hrun.resolve_right fun hne => hne rfl)
    rw [hf] at hst
    exact hst.1
  | cons g gs =>
    -- the frame on top is in the way only of what stands right below it
    have hst := h.2 g _ hf
    have hlevel := hst.level gs
    unfold owesBelow
    cases gs with
    | nil => exact hlevel
    | cons g' gs => exact hlevel

theorem Level.height {p : Program} {H : List (Text × Int)} {f : Frame} {owed : Bool} (h : Level p H f owed) :
    ∃ code, p.block? f.block = some code ∧ f.height + owed.toNat = heightAt code f.pc := by
  obtain ⟨b, s, code, S, hb, hs, hc, hS, -, hl, -⟩ := h
  refine ⟨code, ?_, ?_⟩
  · rw [hb, Program.block?_of_slot hs, hc]
    rfl
  · rw [← hl, hS.length_eq]
    rfl

/-- However a machine is used, and whenever it is aborted or its context expires, no step fails because operands are
    missing, because an instruction has a bad argument, or because its target cannot be assigned to, and every
    function that is to be made is made. In every machine that a step passes through, the number of operands of a
    frame depends on its code and its place alone, but for a result that is still owed to it. The one exception
    is the frame on top of a machine that is halted: an instruction that failed has taken operands from it. -/
theorem operand_discipline {o : Options} {K : List Closure} {m : Machine} (hm : Reached o K m) (c : Signals) :
    (∀ e h, (m.step c).1 = .error e → e.halt? = some h →
      h.toClass ≠ .stackUnderflow ∧ h.toClass ≠ .badOperand ∧ h.toClass ≠ .notAssignable ∧
        ∀ b pc i f, h = .fault b pc i f → i.op ≠ .makeFn) ∧
    ∀ n k, Passes c m n k → ∀ above f below, k.frames = above ++ f :: below → k.halted = none ∨ above ≠ [] →
      ∃ code, k.program.block? f.block = some code ∧ f.height + (k.owesBelow above).toNat = heightAt code f.pc := by
  refine ⟨fun e h he hh => ?_, fun n k hk above f below hf hrun => ?_⟩
  · obtain ⟨hb, hi⟩ := (hm.disciplined.step.halted h (step_halted he hh)).1
    refine ⟨?_, ?_, ?_, hi⟩
    · intro e
      rw [e] at hb
      cases hb
    · intro e
      rw [e] at hb
      cases hb
    · intro e
      rw [e] at hb
      cases hb
  · exact ((hm.disciplined.passes hk).1.tiered.level hf hrun).height

/-- A machine that awaits a reply in a function that the code of a unit called. -/
def twoDeep : Machine :=
  ((Machine.new { fallback := true }).load "main" "f = (x) => 1 + g(x) f(2)").2.step false |>.2

theorem twoDeep_reached : ∃ K, Reached { fallback := true } K twoDeep := by
  have placed : (Parse.source "f = (x) => 1 + g(x) f(2)").toOption.all (Node.everyNode Node.isPlaced) = true := by
    decide +kernel
  have fair : Operation.Fair [] (Machine.new { fallback := true }) (.load "main" "f = (x) => 1 + g(x) f(2)") := by
    refine ⟨fun ns h => ?_, fun u hu => ?_⟩
    · rw [h] at placed
      exact placed
    · rw [Machine.unit?, show (Machine.new { fallback := true }).units = [] from rfl] at hu
      cases hu
  exact ⟨_, .operate (.step false) (.operate _ .new fair) trivial⟩

/-- The function has one operand and the unit none, each one short of the result that is owed to it. -/
theorem operand_discipline_twoDeep :
    twoDeep.awaiting = true ∧ twoDeep.frames.map (·.height) = [1, 0] ∧
      ∀ above f below, twoDeep.frames = above ++ f :: below → twoDeep.halted = none ∨ above ≠ [] →
        ∃ code, twoDeep.program.block? f.block = some code ∧
          f.height + (twoDeep.owesBelow above).toNat = heightAt code f.pc := by
  obtain ⟨K, h⟩ := twoDeep_reached
  exact ⟨by decide +kernel, by decide +kernel, (operand_discipline h false).2 0 twoDeep .start⟩

end Machine

end Scriptlet

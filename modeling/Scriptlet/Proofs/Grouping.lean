/-
  Scriptlet.Proofs.Grouping — struct literals do not exchange fields.

  Fields of a struct instance are collected in the groups of the frame that runs its code. Between
  the first instruction of a literal and the one that completes it anything may happen: other literals
  in its fields, functions that run in frames above, calls of the host, other units that are loaded.

  (1) A tick either lets the frame stand where it stands, with its groups, or executes one
      instruction of its block, which does to the groups what its mark says (`Does.marks`). A frame starts
      at the front of its block without groups (`Enters.fresh`).
  (2) So the groups of a frame are those that the marks give which it has passed, with the fields that
      were stored at them (`Stays.trail`). All marks between two positions have been passed, since
      the position grows by one or goes to the end.
  (3) With what marks do in the sketch of a tree, when a literal is completed the innermost group has
      the fields of that literal, and the groups below are those of its start (`literals_kept_apart`).
-/

import Scriptlet.Proofs.Literals

namespace Scriptlet

/-! ## (1) Ticks -/

structure Frame.Rests (f g : Frame) : Prop where
  block : g.block = f.block
  pc : g.pc = f.pc
  groups : g.groups = f.groups

namespace Machine

structure Stores (m : Machine) (f : Frame) (name : Text) (fd : Field) : Prop where
  named : fd.name = name
  ident : ∃ id : Nat, m.program.idents.lookup? name = some id ∧ fd.id = id
  value : ∃ v i os, f.operands = ⟨some v, i⟩ :: os ∧ fd.value = some v

variable {c : Signal} {rest : List Frame} {g : Frame} {ns : List Node} {name : Text} {stored : Nat → Field}

section

variable {m m' : Machine} {f : Frame} {stop pc d : Nat} {i : Instr}

/-- The frame that has executed an instruction is at the end, or behind the instruction and then its groups are those
    that the mark gives. At most one frame is put on top of it. -/
structure Marks (m : Machine) (f : Frame) (rest : List Frame) (stop : Nat) (mark : Mark) (g : Frame) (m' : Machine) :
    Prop where
  frames : m'.frames = g :: rest ∨ ∃ callee : Frame, m'.frames = callee :: g :: rest
  block : g.block = f.block
  moves : g.pc = stop ∨
    g.pc = f.pc ∧ ∃ fd, g.groups = mark.step fd f.groups ∧ ∀ name, mark = .stores name → Stores m f name fd

theorem Marks.plain (hf : m'.frames = g :: rest ∨ ∃ callee : Frame, m'.frames = callee :: g :: rest)
    (hr : f.Rests g) : Marks m f rest stop .plain g m' :=
  ⟨hf, hr.block, .inr ⟨hr.pc, default, hr.groups, fun _ h => Mark.noConfusion h⟩⟩

theorem groups_addField (f : Frame) (fd : Field) : (f.addField fd).groups = putField fd f.groups := by
  unfold Frame.addField putField
  cases f.groups <;> rfl

theorem addField_rests (f : Frame) (fd : Field) : (f.addField fd).block = f.block ∧ (f.addField fd).pc = f.pc := by
  unfold Frame.addField
  cases f.groups <;> exact ⟨rfl, rfl⟩

theorem closeGroup_rests (f : Frame) :
    f.closeGroup.2.block = f.block ∧ f.closeGroup.2.pc = f.pc ∧ f.closeGroup.2.groups = f.groups.tail := by
  unfold Frame.closeGroup
  cases hg : f.groups with
  | nil => exact ⟨rfl, rfl, hg⟩
  | cons g gs => exact ⟨rfl, rfl, rfl⟩

/-- An instruction does to the groups of its frame what its mark says. -/
theorem Does.marks {mark : Mark} (h : Does m f rest stop pc i m')
    (hm : mark.Matches m.program (i, m.program.isConstructor f.block pc)) : ∃ g, Marks m f rest stop mark g m' := by
  generalize hc : m.program.isConstructor f.block pc = site at hm
  cases hm with
  | plain hb hs =>
    cases h with
    | construct _ hsite _ =>
      rw [hc] at hsite
      cases hsite
    | beginStruct => exact absurd rfl hb
    | storeField => exact absurd rfl hs
    | retNone | ret => exact ⟨_, .inl rfl, rfl, .inl rfl⟩
    | invoke => exact ⟨_, .plain (.inr ⟨_, rfl⟩) ⟨rfl, rfl, rfl⟩⟩
    | _ => exact ⟨_, .plain (.inl rfl) ⟨rfl, rfl, rfl⟩⟩
  | opens n =>
    cases h with
    | beginStruct => exact ⟨_, .inl rfl, rfl, .inr ⟨rfl, default, rfl, fun _ e => Mark.noConfusion e⟩⟩
    | arith a _ ha => cases a <;> cases ha
  | @stores name id hid =>
    cases h with
    | @storeField _ v i os hos =>
      obtain ⟨hblock, hpc⟩ := addField_rests (setOperands f os) ⟨id, m.name id, some v⟩
      refine ⟨_, .inl rfl, hblock, .inr ⟨hpc, _, groups_addField _ _, ?_⟩⟩
      intro n hn
      cases hn
      exact ⟨Idents.name_of_lookup? hid, ⟨id, hid, rfl⟩, v, i, os, hos, rfl⟩
    | arith a _ ha => cases a <;> cases ha
  | @completes type id hid =>
    cases h with
    | loadIdent _ hsite =>
      rw [hc] at hsite
      cases hsite
    | construct _ _ _ =>
      obtain ⟨hblock, hpc, hgroups⟩ := closeGroup_rests f
      exact ⟨_, .inl rfl, hblock, .inr ⟨hpc, default, hgroups, fun _ e => Mark.noConfusion e⟩⟩
    | arith a _ ha => cases a <;> cases ha

theorem frameAt_lt (hf : m.frameAt d = some f) : d < m.frames.length := by
  have hlt := (List.getElem?_eq_some_iff.mp hf).1
  rwa [List.length_reverse] at hlt

theorem frameAt_top (hf : m.frames = f :: rest) : m.frameAt rest.length = some f := by
  unfold frameAt
  rw [hf, List.reverse_cons, List.getElem?_append_right (by rw [List.length_reverse]), List.length_reverse, Nat.sub_self]
  rfl

/-- The result of a call goes to the frame on top, which stands where it stood. -/
theorem deliver_rests {fs : List Frame} (v : Value) (hf : fs.reverse[d]? = some f) :
    ∃ g, (deliver v fs).reverse[d]? = some g ∧ f.Rests g := by
  cases fs with
  | nil => cases hf
  | cons top below =>
    have hlt := (List.getElem?_eq_some_iff.mp hf).1
    rw [List.length_reverse, List.length_cons] at hlt
    by_cases hd : d < below.length
    · rw [reverse_cons_lt hd] at hf
      exact ⟨f, (reverse_cons_lt hd).trans hf, rfl, rfl, rfl⟩
    · obtain rfl : d = below.length := by omega
      have htop : top = f := by simpa using hf
      exact ⟨top.pushValue v, by simp [deliver], htop ▸ ⟨rfl, rfl, rfl⟩⟩

/-- The frame on top, with `d` frames below it, executes an instruction. -/
def Executes (d : Nat) (m : Machine) (f : Frame) (m' : Machine) : Prop :=
  ∃ rest code i, m.frames = f :: rest ∧ rest.length = d ∧ m.program.block? f.block = some code ∧
    code[f.pc]? = some i ∧ Does m { f with pc := f.pc + 1 } rest code.length f.pc i m'

/-- In a tick that does not fail there is no frame, or the one on top is at the end and is left, or it executes an
    instruction. -/
theorem tick_cases (ht : m.tick c = .go m' ∨ m.tick c = .pause m') :
    m.frames = [] ∧ m'.frames = [] ∨
      ∃ f rest, m.frames = f :: rest ∧ ((∃ code, m.program.block? f.block = some code ∧ code[f.pc]? = none ∧
        m.leave f rest = .ok m') ∨ Executes rest.length m f m') := by
  rcases ht with ht | ht
  · cases turns_of_tick ht with
    | went _ _ hf hb hi he _ => exact .inr ⟨_, _, hf, .inr ⟨_, _, _, hf, rfl, hb, hi, exec_ok he⟩⟩
  · cases turns_of_tick ht with
    | idle _ _ hf => exact .inl ⟨hf, (terminate_frames m).trans hf⟩
    | left _ _ hf hb hi hl => exact .inr ⟨_, _, hf, .inl ⟨_, hb, hi, hl⟩⟩
    | asked _ _ hf hb hi he _ => exact .inr ⟨_, _, hf, .inr ⟨_, _, _, hf, rfl, hb, hi, exec_ok he⟩⟩

/-- In a tick a frame that is not left stands still, or executes an instruction. -/
theorem tick_frame (ht : m.tick c = .go m' ∨ m.tick c = .pause m') (hf : m.frameAt d = some f)
    (hd : d < m'.frames.length) : (∃ g, m'.frameAt d = some g ∧ f.Rests g) ∨ Executes d m f m' := by
  have hlt := frameAt_lt hf
  rcases tick_cases ht with ⟨hno, -⟩ | ⟨top, rest, htop, hcases⟩
  · rw [hno] at hlt
    cases hlt
  rw [htop, List.length_cons] at hlt
  rcases hcases with ⟨-, -, -, hl⟩ | hexecutes
  · left
    rw [leave_length hl] at hd
    unfold frameAt at hf ⊢
    rw [htop, reverse_cons_lt hd] at hf
    rcases leave_frames hl with hrest | ⟨v, hrest⟩
    · exact ⟨f, by rw [hrest, hf], rfl, rfl, rfl⟩
    · rw [hrest]
      exact deliver_rests v hf
  · by_cases hbelow : d < rest.length
    · -- the instruction leaves the frames below as they are
      obtain ⟨rest', code, i, htop', -, -, hi, hdoes⟩ := hexecutes
      cases htop.symm.trans htop'
      have hcovered : d + 1 < m.frames.length := by
        rw [htop, List.length_cons]
        omega
      have hsame := (exec_lasts htop hi hdoes.exec (d + 1)).covered hcovered
      exact .inl ⟨f, hsame.trans hf, rfl, rfl, rfl⟩
    · obtain rfl : d = rest.length := by omega
      rw [frameAt_top htop] at hf
      cases hf
      exact .inr hexecutes

theorem becomes_frame (h : Becomes m name ns m') (hf : m.frameAt d = some f) : m'.frameAt d = some f := by
  cases h with
  | again | new => exact (reverse_cons_lt (frameAt_lt hf)).trans hf
  | _ => exact hf

/-- In a request that is not a step a frame that is not left stands still. -/
theorem request_frame {r : Request} (hr : ∀ c, r ≠ .step c) (hf : m.frameAt d = some f)
    (hd : d < (r.apply m).frames.length) : ∃ g, (r.apply m).frameAt d = some g ∧ f.Rests g := by
  generalize hk : r.apply m = k at hd ⊢
  cases r.changes hk with
  | read hb | loaded hb => exact ⟨f, becomes_frame hb hf, rfl, rfl, rfl⟩
  | stepped c => exact absurd rfl (hr c)
  | resumed => exact deliver_rests _ hf
  | reset => cases hd
  | _ => exact ⟨f, hf, rfl, rfl, rfl⟩

/-- A frame is put on top of `d` others: by a tick, by a request that is not a step, or because the machine starts with
    it. -/
inductive Enters (d : Nat) (f : Frame) : Machine → Prop
  | initial {m : Machine} : Initial m → m.frameAt d = some f → Enters d f m
  | tick {m m' : Machine} {c : Signal} : m.tick c = .go m' ∨ m.tick c = .pause m' → m.frames.length ≤ d →
      m'.frameAt d = some f → Enters d f m'
  | request {m : Machine} {r : Request} : (∀ c, r ≠ .step c) → m.frames.length ≤ d → (r.apply m).frameAt d = some f →
      Enters d f (r.apply m)

def Fresh (f : Frame) : Prop := f.pc = 0 ∧ f.groups = []

/-- If there are more frames than before then there is one more, and it is fresh. -/
def Tops (fs gs : List Frame) : Prop :=
  gs.length ≤ fs.length ∨ ∃ f below, gs = f :: below ∧ Fresh f ∧ below.length = fs.length

theorem Tops.fresh {fs gs : List Frame} (h : Tops fs gs) (hd : fs.length ≤ d) (hf : gs.reverse[d]? = some f) :
    Fresh f := by
  have hlt := (List.getElem?_eq_some_iff.mp hf).1
  rw [List.length_reverse] at hlt
  rcases h with hle | ⟨g, below, rfl, hg, hlength⟩
  · omega
  · rw [List.length_cons] at hlt
    obtain rfl : d = below.length := by omega
    have htop : g = f := by simpa using hf
    exact htop ▸ hg

theorem Does.tops (h : Does m f rest stop pc i m') : Tops (g :: rest) m'.frames := by
  cases h with
  | invoke => exact .inr ⟨_, _, rfl, ⟨rfl, rfl⟩, rfl⟩
  | _ => exact .inl (Nat.le_refl _)

theorem tick_tops (ht : m.tick c = .go m' ∨ m.tick c = .pause m') : Tops m.frames m'.frames := by
  rcases tick_cases ht with ⟨hno, hno'⟩ | ⟨f, rest, hf, ⟨-, -, -, hl⟩ | ⟨_, _, _, hf', -, -, -, hdoes⟩⟩
  · rw [hno, hno']
    exact .inl (Nat.le_refl _)
  · left
    rw [leave_length hl, hf]
    exact Nat.le_succ _
  · rw [hf']
    exact hdoes.tops

theorem becomes_tops (h : Becomes m name ns m') : Tops m.frames m'.frames := by
  cases h with
  | again | new => exact .inr ⟨_, _, rfl, ⟨rfl, rfl⟩, rfl⟩
  | _ => exact .inl (Nat.le_refl _)

theorem request_tops {r : Request} (hr : ∀ c, r ≠ .step c) : Tops m.frames (r.apply m).frames := by
  generalize hk : r.apply m = k
  cases r.changes hk with
  | read hb | loaded hb => exact becomes_tops hb
  | stepped c => exact absurd rfl (hr c)
  | resumed =>
    change Tops m.frames (deliver _ m.frames)
    cases m.frames <;> exact .inl (Nat.le_refl _)
  | reset => exact .inl (Nat.zero_le _)
  | _ => exact .inl (Nat.le_refl _)

theorem Enters.there (h : Enters d f m) : m.frameAt d = some f := by
  cases h with
  | initial _ hf => exact hf
  | tick _ _ hf => exact hf
  | request _ _ hf => exact hf

theorem Initial.tops (h : Initial m) : Tops [] m.frames := by
  cases h with
  | new o =>
    rw [Machine.new, ofProgram_eq]
    exact .inl (Nat.le_refl _)
  | ofImage h =>
    obtain ⟨p, -, rfl⟩ := ofImage_ok h
    rw [ofProgram_eq]
    exact .inr ⟨_, _, rfl, ⟨rfl, rfl⟩, rfl⟩

/-- A frame starts at the front of its block, and has no groups. -/
theorem Enters.fresh (h : Enters d f m) : Fresh f := by
  cases h with
  | initial hm hf => exact hm.tops.fresh (Nat.zero_le d) hf
  | tick ht hd hf => exact (tick_tops ht).fresh hd hf
  | request hr hd hf => exact (request_tops hr).fresh hd hf

end

/-! ## (2) The way of a frame -/

/-- Requests between ticks that put no other code into the block. A step is made of ticks. -/
def Aside (b : Int) (m : Machine) (r : Request) : Prop := (∀ c, r ≠ .step c) ∧ ¬ r.Replaces m b

section

variable {m m' k : Machine} {d b : Nat} {f : Frame} {ks : List Mark}

theorem becomes_names (h : Becomes m name ns m') : m.program.idents.names <+: m'.program.idents.names := by
  have hagain {u : CodeUnit} {r : Except LowerError Unit} {p : Program} (hp : m.program.recompile u.block ns = (r, p)) :
      m.program.idents.names <+: p.idents.names := by
    rcases Program.recompile_cases hp with ⟨-, -, hle⟩ | ⟨n, code, p₁, -, -, -, -, hle, rfl⟩
    · exact hle.names
    · exact hle.names
  have hnew {r : Except LowerError Nat} {p : Program} (hp : m.program.compile ns = (r, p)) :
      m.program.idents.names <+: p.idents.names := by
    have hle := m.program.le_compile ns
    rw [hp] at hle
    exact hle.names
  cases h with
  | refused => exact List.prefix_rfl
  | failedAgain _ _ _ hp => exact hagain hp
  | again _ _ _ hp => exact hagain hp
  | failedNew _ _ _ hp => exact hnew hp
  | new _ _ _ hp => exact hnew hp

theorem request_names (m : Machine) (r : Request) : m.program.idents.names <+: (r.apply m).program.idents.names := by
  generalize hk : r.apply m = k
  cases r.changes hk with
  | read hb | loaded hb => exact becomes_names hb
  | stepped c => exact step_program c m ▸ List.prefix_rfl
  | _ => exact List.prefix_rfl

theorem tick_same_program (ht : m.tick c = .go m' ∨ m.tick c = .pause m') : m'.program = m.program := by
  have hprogram := tick_program c m
  rcases ht with ht | ht <;>
  · rw [ht] at hprogram
    exact hprogram

/-- The marks are those of the code all the time. -/
theorem Stays.sketched (h : Stays d (Aside b) m k) (hs : m.program.Sketched b ks) : k.program.Sketched b ks := by
  induction h with
  | refl => exact hs
  | tick _ _ _ ht _ ih => exact (tick_same_program ht).symm ▸ ih
  | @request k r _ hr _ ih => exact ih.mono (fun _ hslot => Request.slot hslot hr.2) (request_names k r)

structure Ran (d b : Nat) (m k n : Machine) (f : Frame) : Prop where
  before : Stays d (Aside b) m n
  there : ∃ rest, n.frames = f :: rest ∧ rest.length = d
  after : Stays d (Aside b) n k
  executed : ∃ c n', (n.tick c = .go n' ∨ n.tick c = .pause n') ∧ Stays d (Aside b) n' k

theorem Ran.frameAt {n : Machine} (h : Ran d b m k n f) : n.frameAt d = some f := by
  obtain ⟨rest, hframes, rfl⟩ := h.there
  exact frameAt_top hframes

theorem Ran.tick {n : Machine} (h : Ran d b m k n f) (hh : k.halted = none) (hw : k.awaiting = false)
    (ht : k.tick c = .go m' ∨ k.tick c = .pause m') (hd : d < m'.frames.length) : Ran d b m m' n f := by
  obtain ⟨c', n', ht', hk⟩ := h.executed
  exact ⟨h.before, h.there, h.after.tick hh hw ht hd, c', n', ht', hk.tick hh hw ht hd⟩

theorem Ran.request {n : Machine} {r : Request} (h : Ran d b m k n f) (hr : Aside b k r)
    (hd : d < (r.apply k).frames.length) : Ran d b m (r.apply k) n f := by
  obtain ⟨c', n', ht', hk⟩ := h.executed
  exact ⟨h.before, h.there, h.after.request hr hd, c', n', ht', hk.request hr hd⟩

/-- From `m` to `k` the frame goes from `f` to `g`: it has passed all marks between their positions, and the fields are
    those that were stored at them. -/
structure Trail (d b : Nat) (ks : List Mark) (m k : Machine) (f g : Frame) (stored : Nat → Field) : Prop where
  groups : g.groups = Mark.run (fun p => stored (f.pc + p)) ((ks.take g.pc).drop f.pc) f.groups
  ran : ∀ p, f.pc ≤ p → p < g.pc → ∃ n e, Ran d b m k n e ∧ e.pc = p ∧
    ∀ name, ks[p]? = some (.stores name) → Stores n e name (stored p)

theorem Trail.rests {g' : Frame} (h : Trail d b ks m k f g stored) (hr : g.Rests g')
    (hran : ∀ n e, Ran d b m k n e → Ran d b m m' n e) : Trail d b ks m m' f g' stored := by
  refine ⟨?_, ?_⟩
  · rw [hr.groups, hr.pc]
    exact h.groups
  · intro p hle hlt
    rw [hr.pc] at hlt
    obtain ⟨n, e, hn, hp, hstores⟩ := h.ran p hle hlt
    exact ⟨n, e, hran n e hn, hp, hstores⟩

/-- The frame executes one more instruction. -/
theorem Trail.step {g' : Frame} {mark : Mark} {fd : Field} (h : Trail d b ks m k f g stored)
    (hle : f.pc ≤ g.pc) (hmark : ks[g.pc]? = some mark) (hpc : g'.pc = g.pc + 1)
    (hgroups : g'.groups = mark.step fd g.groups) (hstores : ∀ name, mark = .stores name → Stores k g name fd)
    (hran : ∀ n e, Ran d b m k n e → Ran d b m m' n e) (hnow : Ran d b m m' k g) :
    Trail d b ks m m' f g' fun p => if p = g.pc then fd else stored p := by
  refine ⟨?_, ?_⟩
  · have hlt := (List.getElem?_eq_some_iff.mp hmark).1
    have hlength : ((ks.take g.pc).drop f.pc).length = g.pc - f.pc := by
      rw [List.length_drop, List.length_take, Nat.min_eq_left (Nat.le_of_lt hlt)]
    have hmarks : (ks.take g'.pc).drop f.pc = (ks.take g.pc).drop f.pc ++ [mark] := by
      rw [hpc, List.take_add_one, hmark, List.drop_append_of_le_length]
      · rfl
      · rw [List.length_take]
        omega
    have hbefore : Mark.run (fun p => if f.pc + p = g.pc then fd else stored (f.pc + p)) ((ks.take g.pc).drop f.pc)
        f.groups = g.groups := by
      rw [h.groups]
      refine Mark.run_congr ?_
      intro p hp
      exact if_neg (by omega)
    rw [hmarks, Mark.run_append, hbefore, hgroups, Mark.run, Mark.run, if_pos (by omega)]
  · intro p hfp hpg
    by_cases hp : p = g.pc
    · refine ⟨k, g, hnow, hp.symm, ?_⟩
      intro name hname
      rw [if_pos hp]
      rw [hp, hmark] at hname
      exact hstores name (Option.some.inj hname)
    · obtain ⟨n, e, hn, he, hstored⟩ := h.ran p hfp (by omega)
      refine ⟨n, e, hran n e hn, he, ?_⟩
      rw [if_neg hp]
      exact hstored

/-- As long as a frame is not left it stands in its block, at a later position or the same. If it is not at the end
    then it has passed all marks up to there. -/
theorem Stays.trail (h : Stays d (Aside b) m k) (hf : m.frameAt d = some f) (hb : f.block = b)
    (hs : m.program.Sketched b ks) :
    ∃ g, k.frameAt d = some g ∧ g.block = b ∧ f.pc ≤ g.pc ∧
      (g.pc < ks.length → ∃ stored, Trail d b ks m k f g stored) := by
  induction h with
  | refl =>
    refine ⟨f, hf, hb, Nat.le_refl _, fun _ => ⟨fun _ => default, ?_, ?_⟩⟩
    · rw [List.drop_eq_nil_of_le (by rw [List.length_take]; omega)]
      rfl
    · intro p hle hlt
      omega
  | @tick k k' c hk hh hw ht hd ih =>
    obtain ⟨g, hg, hgb, hle, htrail⟩ := ih
    have hran (n : Machine) (e : Frame) (hn : Ran d b m k n e) : Ran d b m k' n e := hn.tick hh hw ht hd
    rcases tick_frame ht hg hd with ⟨g', hg', hr⟩ | ⟨rest, code, i, hframes, hlength, hcode, hi, hdoes⟩
    · refine ⟨g', hg', hr.block.trans hgb, hr.pc ▸ hle, ?_⟩
      intro hlt
      obtain ⟨stored, hstored⟩ := htrail (hr.pc ▸ hlt)
      exact ⟨stored, hstored.rests hr hran⟩
    · rw [hgb] at hcode
      obtain ⟨hend, hmarks⟩ := (hk.sketched hs).mark hcode
      obtain ⟨mark, hmark, hmatch⟩ := hmarks g.pc i hi
      have hlt : g.pc < code.length := (List.getElem?_eq_some_iff.mp hi).1
      obtain ⟨g', hg'⟩ := hdoes.marks (hgb ▸ hmatch)
      have hthere : k'.frameAt d = some g' := by
        subst hlength
        rcases hg'.frames with htop | ⟨callee, htop⟩
        · exact frameAt_top htop
        · unfold frameAt
          rw [htop, reverse_cons_lt (Nat.lt_succ_self _)]
          simp
      rcases hg'.moves with hstop | ⟨hpc, fd, hgroups, hstores⟩
      · exact ⟨g', hthere, hg'.block.trans hgb, by omega, fun hno => by omega⟩
      · replace hpc : g'.pc = g.pc + 1 := hpc
        refine ⟨g', hthere, hg'.block.trans hgb, by omega, fun _ => ?_⟩
        obtain ⟨stored, hstored⟩ := htrail (by omega)
        have hnow : Ran d b m k' k g := ⟨hk, ⟨rest, hframes, hlength⟩, .tick .refl hh hw ht hd, c, k', ht, .refl⟩
        have hfield (name : Text) (hname : mark = .stores name) : Stores k g name fd :=
          ⟨(hstores name hname).named, (hstores name hname).ident, (hstores name hname).value⟩
        exact ⟨_, hstored.step hle hmark hpc hgroups hfield hran hnow⟩
  | @request k r hk hr hd ih =>
    obtain ⟨g, hg, hgb, hle, htrail⟩ := ih
    obtain ⟨g', hg', hrests⟩ := request_frame hr.1 hg hd
    refine ⟨g', hg', hrests.block.trans hgb, hrests.pc ▸ hle, ?_⟩
    intro hlt
    obtain ⟨stored, hstored⟩ := htrail (hrests.pc ▸ hlt)
    exact ⟨stored, hstored.rests hrests fun n e hn => hn.request hr hd⟩

end

/-! ## (3) Literals -/

/-- In the machine `k` the frame at `d`, which was entered in `m` and is `g` now, is about to complete the literal. -/
structure Filled (d b : Nat) (m k : Machine) (g : Frame) (l : Literal) (fields : List Field)
    (before : List (List Field)) : Prop where
  /-- The innermost group has the fields of the literal in their order, and nothing else. -/
  groups : g.groups = fields :: before
  names : fields.map (·.name) = l.fields.map (·.1)
  /-- Each field was stored by its own instruction, with the value that was there for it. -/
  stored : List.Forall₂ (fun w fd => ∃ n e, Ran d b m k n e ∧ e.pc = w.2 ∧ Stores n e w.1 fd) l.fields fields
  /-- The groups below are those that there were when the first instruction of the literal was executed. -/
  begun : ∃ n e, Ran d b m k n e ∧ e.pc = l.start ∧ e.groups = before
  /-- The frame had no others as long as it stood at that instruction. -/
  start : ∀ n e, Stays d (Aside b) m n → Stays d (Aside b) n k → n.frameAt d = some e → e.pc = l.start →
    e.groups = before
  /-- The object that is made has these fields, and these groups are left. -/
  made : ∀ rest c k', k.frames = g :: rest → k.tick c = .go k' ∨ k.tick c = .pause k' →
    ∃ id : Nat, k.program.idents.lookup? l.type = some id ∧
      k' = k.newObject { g with pc := g.pc + 1, groups := before } rest id fields

section

variable {m k : Machine} {d b : Nat} {f : Frame} {ks : List Mark} {ls : List Literal} {l : Literal}

theorem Trail.front (h : Trail d b ks m k f g stored) (hf : Fresh f) :
    g.groups = Mark.run stored (ks.take g.pc) [] := by
  have hgroups := h.groups
  rw [hf.1, hf.2, List.drop_zero] at hgroups
  rw [hgroups]
  exact Mark.run_congr fun p _ => congrArg stored (Nat.zero_add p)

/-- The groups of the frame when it was at an earlier position. -/
theorem Trail.between {n : Machine} {e : Frame} {stored' : Nat → Field} (h : Trail d b ks m n f e stored)
    (hf : Fresh f) (h' : Trail d b ks n k e g stored') (hle : e.pc ≤ g.pc) (hlt : g.pc < ks.length) :
    ∃ both, g.groups = Mark.run both (ks.take g.pc) [] ∧ e.groups = Mark.run both (ks.take e.pc) [] := by
  have hearlier : Mark.run (fun p => if p < e.pc then stored p else stored' p) (ks.take e.pc) [] = e.groups := by
    rw [h.front hf]
    refine Mark.run_congr ?_
    intro p hp
    rw [List.length_take] at hp
    exact if_pos (by omega)
  refine ⟨fun p => if p < e.pc then stored p else stored' p, ?_, hearlier.symm⟩
  have hsplit : ks.take g.pc = ks.take e.pc ++ (ks.take g.pc).drop e.pc := by
    have htake : (ks.take g.pc).take e.pc = ks.take e.pc := by rw [List.take_take, Nat.min_eq_left hle]
    rw [← htake, List.take_append_drop]
  have hlength : (ks.take e.pc).length = e.pc := by
    rw [List.length_take]
    omega
  rw [hsplit, Mark.run_append, hearlier, hlength, h'.groups]
  exact Mark.run_congr fun p _ => (if_neg (by omega)).symm

/-- A frame that is on top and not at the end executes an instruction in a tick. -/
theorem tick_executes {k' : Machine} (hs : k.program.Sketched b ks) (hgb : g.block = b)
    (hframes : k.frames = g :: rest) (hlt : g.pc < ks.length) (ht : k.tick c = .go k' ∨ k.tick c = .pause k') :
    Executes rest.length k g k' := by
  rcases tick_cases ht with ⟨hno, -⟩ | ⟨f, below, hf, ⟨code, hcode, hend, -⟩ | hexecutes⟩
  · cases hframes.symm.trans hno
  · cases hframes.symm.trans hf
    have hlength := (hs.mark (hgb ▸ hcode)).1
    exact absurd hlt (Nat.not_lt.mpr (hlength ▸ List.getElem?_eq_none_iff.mp hend))
  · cases hframes.symm.trans hf
    exact hexecutes

/-- The instruction that completes a literal makes an object of the innermost group. -/
theorem completes_literal {k' : Machine} {type : Text} {fields : List Field}
    {before : List (List Field)} (hmark : ks[g.pc]? = some (.completes type)) (hgb : g.block = b)
    (hs : k.program.Sketched b ks) (hframes : k.frames = g :: rest) (ht : k.tick c = .go k' ∨ k.tick c = .pause k')
    (hg : g.groups = fields :: before) :
    ∃ id : Nat, k.program.idents.lookup? type = some id ∧
      k' = k.newObject { g with pc := g.pc + 1, groups := before } rest id fields := by
  have hlt := (List.getElem?_eq_some_iff.mp hmark).1
  obtain ⟨rest', code, i, hframes', -, hcode, hi, hdoes⟩ := tick_executes hs hgb hframes hlt ht
  cases hframes.symm.trans hframes'
  obtain ⟨-, hmarks⟩ := hs.mark (hgb ▸ hcode)
  obtain ⟨mark, hmark', hmatch⟩ := hmarks g.pc i hi
  rw [hmark] at hmark'
  cases hmark'
  rw [← hgb] at hmatch
  generalize hc : k.program.isConstructor g.block g.pc = site at hmatch
  cases hmatch with
  | @completes _ id hid =>
    cases hdoes with
    | loadIdent _ hsite =>
      rw [hc] at hsite
      cases hsite
    | construct _ _ _ =>
      refine ⟨id, hid, ?_⟩
      unfold Frame.closeGroup
      rw [hg]
    | arith a _ ha => cases a <;> cases ha

/-- A literal is completed with its own fields. -/
theorem Stays.filled (h : Stays d (Aside b) m k) (hf : m.frameAt d = some f) (hb : f.block = b) (hfresh : Fresh f)
    (hs : m.program.Sketched b ks) (hks : Regroups 0 ks ls []) (hl : l ∈ ls) (hg : k.frameAt d = some g)
    (hpc : g.pc = l.site) :
    ∃ fields before, Filled d b m k g l fields before := by
  have hsite := hks.site_lt hl
  obtain ⟨g', hg', hgb, -, htrail⟩ := h.trail hf hb hs
  cases hg.symm.trans hg'
  obtain ⟨stored, hstored⟩ := htrail (hpc ▸ hsite)
  have hgroups := hstored.front hfresh
  rw [hpc, hks.filled l hl stored [] fun _ => rfl] at hgroups
  have hown (w : Text × Nat) (hw : w ∈ l.fields) :
      ∃ n e, Ran d b m k n e ∧ e.pc = w.2 ∧ Stores n e w.1 (stored w.2) := by
    obtain ⟨-, hlt, hmark⟩ := hks.stores l hl w hw
    obtain ⟨n, e, hran, he, hstores⟩ := hstored.ran w.2 (hfresh.1 ▸ Nat.zero_le _) (hpc ▸ hlt)
    exact ⟨n, e, hran, he, hstores w.1 hmark⟩
  have hstart (n : Machine) (e : Frame) (hmn : Stays d (Aside b) m n) (hnk : Stays d (Aside b) n k)
      (he : n.frameAt d = some e) (hepc : e.pc = l.start) : e.groups = Mark.run stored (ks.take l.start) [] := by
    obtain ⟨e₁, he₁, heb, -, htrail₁⟩ := hmn.trail hf hb hs
    cases he.symm.trans he₁
    obtain ⟨g₂, hg₂, -, hle, htrail₂⟩ := hnk.trail he heb (hmn.sketched hs)
    cases hg.symm.trans hg₂
    obtain ⟨stored₁, hstored₁⟩ := htrail₁ (by omega)
    obtain ⟨stored₂, hstored₂⟩ := htrail₂ (by omega)
    obtain ⟨both, hboth, hearlier⟩ := hstored₁.between hfresh hstored₂ hle (by omega)
    rw [hpc, hks.filled l hl both [] fun _ => rfl, hgroups, ← hepc, ← hearlier, hepc] at hboth
    exact (List.cons.inj hboth).2.symm
  refine ⟨_, _, hgroups, ?_, ?_, ?_, hstart, ?_⟩
  · rw [List.map_map]
    refine List.map_congr_left ?_
    intro w hw
    obtain ⟨n, e, -, -, hstores⟩ := hown w hw
    exact hstores.named
  · exact List.forall₂_map_right_iff.mpr (List.forall₂_same.mpr hown)
  · obtain ⟨n, e, hran, he, -⟩ := hstored.ran l.start (hfresh.1 ▸ Nat.zero_le _) (hpc ▸ hks.start_lt hl)
    exact ⟨n, e, hran, he, hstart n e hran.before hran.after hran.frameAt he⟩
  · intro rest c k' hframes ht
    exact completes_literal (hpc ▸ (hks.site l hl).2) hgb (h.sketched hs) hframes ht hgroups

/-- Struct literals do not exchange fields. A block that trees were compiled into has a constructor site for each of the
    struct instances that are written in its own trees. Whenever a frame of the block is about to complete one,
    however it was entered and whatever happened since, short of loading other code into the block, its innermost group
    has exactly the fields of that literal. The groups below are those of the literal's start, and it is these that
    are left. -/
theorem literals_kept_apart {p q : Program} {ns : List Node} {n : Nat} {s : Slot} (hc : p.Compiles ns n q)
    (hb : b = n ∨ p.slots.length ≤ b) (hs : q.slot? b = some s) :
    ∃ body, Program.Written ns n b body ∧
      (Node.literalsAll 0 body).map Literal.written = Node.instancesAll body ∧
      (∀ code i, q.block? b = some code → i < code.length →
        (q.isConstructor b i = true ↔ ∃ l ∈ Node.literalsAll 0 body, l.site = i)) ∧
      ∀ d f m, Enters d f m → f.block = b → m.program.slot? b = some s →
        q.idents.names <+: m.program.idents.names → ∀ k g, Stays d (Aside b) m k → k.frameAt d = some g →
        ∀ l ∈ Node.literalsAll 0 body, g.pc = l.site → ∃ fields before, Filled d b m k g l fields before := by
  obtain ⟨body, hbody, hdrawn⟩ := hc.drawn hb hs
  have hsketched : q.Sketched b (Node.sketchAll 0 body) := ⟨s, hs, hdrawn⟩
  have hregroups := Node.regroupsAll 0 body
  refine ⟨body, hbody, Node.written_literalsAll 0 body, ?_, ?_⟩
  · intro code i hcode hi
    rw [hsketched.site hcode hi]
    constructor
    · rintro ⟨type, hmark⟩
      exact hregroups.complete i type hmark
    · rintro ⟨l, hl, rfl⟩
      exact ⟨l.type, (hregroups.site l hl).2⟩
  · intro d f m hm hfb hslot hnames k g hk hg l hl hpc
    have hthere : m.program.Sketched b (Node.sketchAll 0 body) :=
      hsketched.mono (fun t ht => by rw [← ht, hs, hslot]) hnames
    exact hk.filled hm.there hfb hm.fresh hthere hregroups hl hg hpc

/-- Ticks one after the other, up to the end of a step that does not fail. -/
theorem ticks_stays {allowed : Machine → Request → Prop} {c : Signals} {n : Nat} (h : Stays d allowed m k)
    (hh : k.halted = none) (hw : k.awaiting = false) (hd : d < k.frames.length) (hok : (ticks c n k).1.isOk = true)
    (hend : d < (ticks c n k).2.frames.length) : Stays d allowed m (ticks c n k).2 := by
  induction n generalizing k c with
  | zero => exact h
  | succ n ih =>
    unfold ticks at hok hend ⊢
    cases ht : k.tick (c 0) with
    | go k' =>
      rw [ht] at hok hend
      have hlt := (tick_go_lasts ht d).lt_length hd
      cases turns_of_tick ht with
      | went _ _ _ _ _ he hw' => exact ih (h.tick hh hw (.inl ht) hlt) ((exec_ok he).halted.trans hh) hw' hlt hok hend
    | pause k' =>
      rw [ht] at hend
      exact h.tick hh hw (.inr ht) hend
    | stop k' e =>
      rw [ht] at hok
      cases hok

end

/-- A literal has a call in its second field, and the function makes a literal with another one in it. -/
def nested : List Node :=
  [.assign (.ident "f") (.function ["x"]
      [.construct "Window" [("title", .ident "x"), ("child", .construct "Box" [("size", .int 2)])]]),
    .construct "Outer" [("a", .int 1), ("w", .call (.ident "f") [.str "w"])]]

def nestedLoaded : Machine := Request.apply (new {}) (.loadNodes "main" nested)

def nestedCalled (m : Machine) : Machine := (ticks false 1 (ticks false 19 m).2).2

/-- The outer literal is about to be completed. -/
theorem literals_kept_apart_nested :
    ∃ (g : Frame) (fields : List Field) (before : List (List Field)), (nestedCalled nestedLoaded).frameAt 0 = some g ∧
      Filled 0 0 nestedLoaded (nestedCalled nestedLoaded) g ⟨"Outer", 5, [("a", 6), ("w", 10)], 11⟩ fields before ∧
      fields.map (·.name) = (["a", "w"] : List Text) := by
  have hnew : (new {}).frames.length = 0 ∧ ((new {}).unit? "main").isNone = true := by decide +kernel
  have hloaded : nestedLoaded.frames.length = 1 ∧ nestedLoaded.halted.isNone = true ∧ nestedLoaded.awaiting = false ∧
      (nestedLoaded.frameAt 0).map (·.block) = some 0 := by decide +kernel
  have hpaused : (ticks false 19 nestedLoaded).1.isOk = true ∧ (ticks false 19 nestedLoaded).2.frames.length = 1 ∧
      (ticks false 19 nestedLoaded).2.halted.isNone = true ∧ (ticks false 19 nestedLoaded).2.awaiting = false := by
    decide +kernel
  have hcalled : (ticks false 1 (ticks false 19 nestedLoaded).2).1.isOk = true ∧
      ((nestedCalled nestedLoaded).frameAt 0).map (·.pc) = some 11 := by decide +kernel
  have hliteral : ⟨"Outer", 5, [("a", 6), ("w", 10)], 11⟩ ∈ Node.literalsAll 0 nested := by decide +kernel
  have hbecomes : Becomes (new {}) "main" nested nestedLoaded := loadNodes_becomes (new {}) "main" nested
  have henters : ∀ f, nestedLoaded.frameAt 0 = some f → Enters 0 f nestedLoaded :=
    fun f hf => .request (fun _ h => Request.noConfusion h) (Nat.le_of_eq hnew.1) hf
  -- from here on nothing is evaluated
  generalize nestedLoaded = m at *
  generalize new {} = z at *
  obtain ⟨hempty, hunit⟩ := hnew
  obtain ⟨hlength, hh, hw, hblock⟩ := hloaded
  obtain ⟨hok, hlength', hh', hw'⟩ := hpaused
  obtain ⟨hok', hpc⟩ := hcalled
  rw [Option.isNone_iff_eq_none] at hunit hh hh'
  obtain ⟨f, hf, hfb⟩ := Option.map_eq_some_iff.mp hblock
  obtain ⟨g, hg, hgpc⟩ := Option.map_eq_some_iff.mp hpc
  have hstays (allowed : Machine → Request → Prop) : Stays 0 allowed m (nestedCalled m) :=
    ticks_stays (ticks_stays .refl hh hw (by omega) hok (by omega)) hh' hw' (by omega) hok' (frameAt_lt hg)
  cases hbecomes with
  | refused => omega
  | failedAgain _ _ hu => rw [hunit] at hu; cases hu
  | again _ _ hu => rw [hunit] at hu; cases hu
  | failedNew => exact absurd (hempty.symm.trans hlength) (by decide)
  | @new id p _ _ _ hp =>
    have htop := frameAt_top (m := enter { z with program := p, units := z.units ++ [⟨"main", id, []⟩] } "main" id) rfl
    rw [hempty, hf] at htop
    cases htop
    obtain rfl : id = 0 := Int.ofNat.inj hfb
    have hlt : 0 < p.slots.length := (Lower.compile_entry hp).2
    have hslot : p.slot? (0 : Nat) = some p.slots[0] := List.getElem?_eq_getElem hlt
    obtain ⟨body, hbody, -, -, hkept⟩ := literals_kept_apart (b := 0) (.inl hp) (.inl rfl) hslot
    rcases hbody with ⟨-, rfl⟩ | ⟨hne, -⟩
    · obtain ⟨fields, before, hfilled⟩ :=
        hkept 0 _ _ (henters _ hf) rfl hslot List.prefix_rfl _ g (hstays _) hg _ hliteral hgpc
      exact ⟨g, fields, before, hg, hfilled, hfilled.names⟩
    · exact absurd rfl hne

end Machine

end Scriptlet

/-
  Scriptlet.Proofs.Reloading — frames, and the code that they run, while units are loaded again.

  A frame does not have its code, only the number of its block and its position there. Frames are
  counted from the bottom, so that a frame keeps its place as long as it is not left (`Stays`).

  (1) A frame that is not left stays in its block, whatever is asked of the machine; one that has
      another frame above it does not change at all (`Lasts.block`, `Lasts.covered`).
  (2) Compiling changes no block that is there but the one it compiles into (`recompile_slots`).
      So the block of a frame has the code that it had when the frame was entered, unless code was
      loaded into that very block meanwhile (`Stays.slot`).
  (3) Loading a unit again keeps all frames with their positions, and puts a frame for the new
      code on top. Frames of other blocks go on in the code that they were entered with. A frame of
      the unit's own block goes on at its old position in the new code.
  (4) A unit that cannot be loaded changes nothing that runs: compiling may have failed deep inside
      the trees, but by then it has only added to the tables (`failed_load_changes_nothing`).
-/

import Scriptlet.Proofs.Relabeling
import Scriptlet.Proofs.Replies
import Scriptlet.Proofs.Tables

namespace Scriptlet

/-! ## (1) Frames -/

variable {d : Nat} {m m' : Machine} {ns : List Node} {name : Text} {b : Int}

namespace Machine

def frameAt (m : Machine) (d : Nat) : Option Frame := m.frames.reverse[d]?

inductive Lasts (d : Nat) (fs : List Frame) : List Frame → Prop
  | refl : Lasts d fs fs
  | stay {f g : Frame} {rest : List Frame} : Lasts d fs (f :: rest) → g.block = f.block → Lasts d fs (g :: rest)
  | push {gs : List Frame} (f : Frame) : Lasts d fs gs → Lasts d fs (f :: gs)
  | drop {f : Frame} {rest : List Frame} : Lasts d fs (f :: rest) → d < rest.length → Lasts d fs rest

theorem reverse_cons_lt {f : Frame} {rest : List Frame} (h : d < rest.length) :
    (f :: rest).reverse[d]? = rest.reverse[d]? := by
  rw [List.reverse_cons, List.getElem?_append_left (by simpa using h)]

section

variable {fs gs hs : List Frame}

theorem Lasts.trans (h : Lasts d fs gs) (h' : Lasts d gs hs) : Lasts d fs hs := by
  induction h' with
  | refl => exact h
  | stay _ hb ih => exact ih.stay hb
  | push f _ ih => exact ih.push f
  | drop _ hd ih => exact ih.drop hd

theorem Lasts.lt_length (h : Lasts d fs gs) (hd : d < fs.length) : d < gs.length := by
  induction h with
  | refl => exact hd
  | stay _ _ ih => exact ih
  | push f _ ih => exact Nat.lt_succ_of_lt ih
  | drop _ hd' _ => exact hd'

/-- A frame that is not left stays in its block. -/
theorem Lasts.block (h : Lasts d fs gs) {f : Frame} (hf : fs.reverse[d]? = some f) :
    ∃ g, gs.reverse[d]? = some g ∧ g.block = f.block := by
  have hd : d < fs.length := by simpa using (List.getElem?_eq_some_iff.mp hf).1
  induction h with
  | refl => exact ⟨f, hf, rfl⟩
  | @stay k l rest _ hb ih =>
    obtain ⟨g, hg, hgb⟩ := ih
    by_cases hlt : d < rest.length
    · rw [reverse_cons_lt hlt] at hg
      exact ⟨g, by rw [reverse_cons_lt hlt, hg], hgb⟩
    · have hle : d ≤ rest.length := by simpa [Nat.lt_succ_iff] using (List.getElem?_eq_some_iff.mp hg).1
      obtain rfl : d = rest.length := by omega
      have hk : g = k := by simpa using hg.symm
      subst hk
      exact ⟨l, by simp, hb.trans hgb⟩
  | push k h ih =>
    rw [reverse_cons_lt (h.lt_length hd)]
    exact ih
  | drop _ hlt ih =>
    rw [reverse_cons_lt hlt] at ih
    exact ih

/-- A frame that has another one above it all the time does not change. -/
theorem Lasts.covered (h : Lasts (d + 1) fs gs) (hd : d + 1 < fs.length) : gs.reverse[d]? = fs.reverse[d]? := by
  induction h with
  | refl => rfl
  | @stay k l rest h _ ih =>
    have hlt : d < rest.length := Nat.lt_of_succ_lt_succ (h.lt_length hd)
    rwa [reverse_cons_lt hlt] at ih ⊢
  | push k h ih =>
    have := h.lt_length hd
    rwa [reverse_cons_lt (by omega)]
  | drop _ hlt ih => rwa [reverse_cons_lt (by omega)] at ih

end

section

variable {c : Signals} {s : Signal}

variable {f : Frame} {rest : List Frame}

theorem Moves.lasts {gs : List Frame} (h : Moves m { f with pc := f.pc + 1 } rest gs) (d : Nat) :
    Lasts d (f :: rest) gs := by
  cases h with
  | stay g hg _ => exact .stay .refl hg
  | call k g _ hg _ _ => exact .push k (.stay .refl hg)

/-- An instruction leaves no frame. -/
theorem exec_lasts {code : Block} {i : Instr} (hf : m.frames = f :: rest)
    (hi : code[f.pc]? = some i) (he : m.exec { f with pc := f.pc + 1 } rest code.length f.pc i = .ok m') (d : Nat) :
    Lasts d m.frames m'.frames := by
  have hpc : f.pc < code.length := (List.getElem?_eq_some_iff.mp hi).1
  rw [hf]
  exact (fine_exec m { f with pc := f.pc + 1 } rest code.length f.pc i hpc m' he).2.lasts d

theorem terminate_frames (m : Machine) : m.terminate.frames = m.frames := by
  unfold terminate
  split <;> rfl

theorem deliver_lasts (v : Value) (hd : d < (deliver v rest).length) :
    Lasts d (f :: rest) (deliver v rest) := by
  cases rest with
  | nil => cases hd
  | cons g rest => exact .stay (.drop .refl hd) rfl

/-- The frames when one was left: those below, and the one on top of them may have got a result. -/
theorem leave_frames (h : m.leave f rest = .ok m') :
    m'.frames = rest ∨ ∃ v, m'.frames = deliver v rest := by
  obtain ⟨fs, hfs, rfl⟩ := leave_ok.mp h
  have hframes : (if fs.isEmpty then (m.withFrames fs).terminate else m.withFrames fs).frames = fs := by
    split
    · exact terminate_frames _
    · rfl
  rw [hframes]
  rcases hfs with ⟨-, rfl⟩ | ⟨-, v, -, rfl⟩
  · exact .inl rfl
  · exact .inr ⟨v, rfl⟩

theorem leave_length (h : m.leave f rest = .ok m') : m'.frames.length = rest.length := by
  rcases leave_frames h with hrest | ⟨v, hrest⟩
  · rw [hrest]
  · rw [hrest]
    cases rest <;> rfl

theorem leave_lasts (hf : m.frames = f :: rest) (hl : m.leave f rest = .ok m')
    (hd : d < m'.frames.length) : Lasts d m.frames m'.frames := by
  rw [hf]
  rcases leave_frames hl with hrest | ⟨v, hrest⟩
  · rw [hrest] at hd ⊢
    exact .drop .refl hd
  · rw [hrest] at hd ⊢
    exact deliver_lasts v hd

theorem tick_go_lasts (ht : m.tick s = .go m') (d : Nat) : Lasts d m.frames m'.frames := by
  obtain ⟨f, rest, code, i, hf, -, hi, he, -, -⟩ := tick_go ht
  exact exec_lasts hf hi he d

theorem tick_pause_lasts (ht : m.tick s = .pause m') (hd : d < m'.frames.length) : Lasts d m.frames m'.frames := by
  cases turns_of_tick ht with
  | idle => exact terminate_frames m ▸ .refl
  | left _ _ hf _ _ hl => exact leave_lasts hf hl hd
  | asked _ _ hf _ hi he _ => exact exec_lasts hf hi he d

/-- A frame is left in a step only when the step ends, so the frames that are there at its end were
    there all the time. -/
theorem Steps.lasts {n : Nat} {r : Except MachineError Unit} (h : Steps c m n r m') (hd : d < m'.frames.length) :
    Lasts d m.frames m'.frames := by
  induction h with
  | go ht _ ih => exact (tick_go_lasts ht d).trans (ih hd)
  | pause ht => exact tick_pause_lasts ht hd
  | @stop c m k e ht =>
    cases turns_of_tick ht with
    | lost _ _ hf =>
      rw [hf]
      exact .drop .refl hd
    | failed _ _ hf _ _ he =>
      rw [hf]
      exact .stay .refl (exec_error he).sameRun.block
    | _ => exact .refl

theorem Stepped.lasts {n : Nat} {r : Except MachineError Unit} (h : Stepped c m n r m') (hd : d < m'.frames.length) :
    Lasts d m.frames m'.frames := by
  cases h with
  | halted | awaiting => exact .refl
  | ticked _ _ hs => exact hs.lasts hd

theorem Becomes.lasts (h : Becomes m name ns m') (d : Nat) : Lasts d m.frames m'.frames := by
  cases h with
  | again | new => exact .push _ .refl
  | _ => exact .refl

theorem Request.lasts {r : Request} (hd : d < (r.apply m).frames.length) : Lasts d m.frames (r.apply m).frames := by
  generalize hk : r.apply m = k at hd ⊢
  cases r.changes hk with
  | read hb | loaded hb => exact hb.lasts d
  | stepped c =>
    obtain ⟨n, hs⟩ := step_ends c m
    exact hs.lasts hd
  | resumed =>
    change Lasts d m.frames (deliver _ m.frames)
    cases m.frames with
    | nil => exact .refl
    | cons f rest => exact .stay .refl rfl
  | reset => cases hd
  | _ => exact .refl

end

end Machine

/-! ## (2) Code -/

namespace Program

variable {p q : Program} {r : Except LowerError Unit}

theorem Le.slot? (h : p.Le q) {b : Int} {s : Slot} (hs : p.slot? b = some s) : q.slot? b = some s := by
  cases b with
  | ofNat n => exact getElem?_mono h.slots hs
  | negSucc n => cases hs

theorem Le.const? (h : p.Le q) {id : Int} {v : Value} (hv : p.const? id = some v) : q.const? id = some v := by
  cases id with
  | ofNat n => exact getElem?_mono h.consts hv
  | negSucc n => cases hv

theorem le_compile (p : Program) (ns : List Node) : p.Le (p.compile ns).2 := by
  have hgrows : Lower.Keeps p.Le (Lower.into p.slots.length ns) := Lower.into_grows (Nat.le_refl _)
  have hle := hgrows p.reserve.2 ⟨List.prefix_rfl, List.prefix_rfl, List.prefix_append _ _⟩
  rw [Lower.compile_eq]
  rcases hr : Lower.result (Lower.into p.slots.length ns) p.reserve.2 with ⟨_ | _, q⟩
  · rwa [hr] at hle
  · rwa [hr] at hle

/-- Compiling into a block either fails and adds to the tables, or adds to them and then fills the
    block with the code of the trees. -/
theorem recompile_cases (h : p.recompile b ns = (r, q)) :
    (∃ e, r = .error e ∧ p.Le q) ∨
      ∃ (n : Nat) (code : Fragment) (p₁ : Program), b = n ∧ n < p.slots.length ∧ r = .ok () ∧
        Lower.result (Lower.nodes 0 ns) p = (.ok code, p₁) ∧ p.Le p₁ ∧ q = p₁.fill n code.toSlot := by
  cases b with
  | negSucc n =>
    cases h
    exact .inl ⟨_, rfl, .refl p⟩
  | ofNat n =>
    by_cases hn : n < p.slots.length
    · have hinto : p.recompile (.ofNat n) ns = Lower.result (Lower.into n ns) p := if_pos hn
      have hle : p.Le (Lower.result (Lower.nodes 0 ns) p).2 := Lower.nodes_grows 0 ns p (.refl p)
      rw [hinto, Lower.into, Lower.result_bind] at h
      rcases hr : Lower.result (Lower.nodes 0 ns) p with ⟨e | code, p₁⟩
      · rw [hr] at h hle
        cases h
        exact .inl ⟨e, rfl, hle⟩
      · rw [hr] at h hle
        cases h
        exact .inr ⟨n, code, p₁, rfl, hn, rfl, rfl, hle, rfl⟩
    · have hno : p.recompile (.ofNat n) ns = (.error (.noSuchBlock n), p) := if_neg hn
      rw [hno] at h
      cases h
      exact .inl ⟨_, rfl, .refl p⟩

theorem le_of_recompile_error {e : LowerError} (h : p.recompile b ns = (.error e, q)) : p.Le q := by
  rcases recompile_cases h with ⟨-, -, hle⟩ | ⟨-, -, -, -, -, hr, -⟩
  · exact hle
  · cases hr

theorem slot?_fill {n : Nat} (hn : n < p.slots.length) (s : Slot) (b : Int) :
    (p.fill n s).slot? b = if b = n then some s else p.slot? b := by
  cases b with
  | ofNat k =>
    change (p.slots.set n s)[k]? = if ((k : Nat) : Int) = n then some s else p.slots[k]?
    rw [List.getElem?_set]
    by_cases hk : n = k
    · subst hk
      simp [hn]
    · have hne : ¬ ((k : Nat) : Int) = n := by omega
      rw [if_neg hk, if_neg hne]
  | negSucc k => rfl

/-- Compiling into a block changes no other block that is there. -/
theorem recompile_slots {d : Int} {s : Slot} (h : p.recompile b ns = (r, q))
    (hs : p.slot? d = some s) (hd : r = .ok () → d ≠ b) : q.slot? d = some s := by
  rcases recompile_cases h with ⟨e, -, hle⟩ | ⟨n, code, p₁, rfl, hn, rfl, -, hle, rfl⟩
  · exact hle.slot? hs
  · rw [slot?_fill (Nat.lt_of_lt_of_le hn hle.slots.length_le), if_neg (hd rfl)]
    exact hle.slot? hs

end Program

namespace Machine

/-- The request loads a unit again, the code of which is in the block. -/
def Request.Replaces (m : Machine) (b : Int) : Request → Prop
  | .load name src => (m.load name src).1 = .ok () ∧ ∃ u, m.unit? name = some u ∧ u.block = b
  | .loadNodes name ns => (m.loadNodes name ns).1 = .ok () ∧ ∃ u, m.unit? name = some u ∧ u.block = b
  | _ => False

section

variable {s : Slot}

theorem step_program (c : Signals) (m : Machine) : (m.step c).2.program = m.program := by
  unfold step
  split
  · rfl
  · split
    · rfl
    · exact ticks_program c _ m

theorem loadNodes_slot (hs : m.program.slot? b = some s) (hr : ¬ Request.Replaces m b (.loadNodes name ns)) :
    (m.loadNodes name ns).2.program.slot? b = some s := by
  have becomes := loadNodes_becomes m name ns
  generalize hm : (m.loadNodes name ns).2 = m' at becomes
  cases becomes with
  | refused => exact hs
  | failedAgain _ _ _ hp => exact Program.recompile_slots hp hs fun e => by cases e
  | @failedNew e p _ _ _ hp =>
    have hle := m.program.le_compile ns
    rw [hp] at hle
    exact hle.slot? hs
  | @again u p hh hw hu hp =>
    refine Program.recompile_slots hp hs ?_
    intro _ hb
    refine hr ⟨?_, u, hu, hb.symm⟩
    rw [loadNodes_again hh hw hu hp]
  | @new id p _ _ _ hp =>
    have hle := m.program.le_compile ns
    rw [hp] at hle
    exact hle.slot? hs

theorem Request.slot {r : Request} (hs : m.program.slot? b = some s) (hr : ¬ r.Replaces m b) :
    (r.apply m).program.slot? b = some s := by
  cases r with
  | load name src =>
    change (m.load name src).2.program.slot? b = some s
    have hr : ¬ ((m.load name src).1 = .ok () ∧ ∃ u, m.unit? name = some u ∧ u.block = b) := hr
    unfold Machine.load at hr ⊢
    cases hp : Parse.source src with
    | error e => exact hs
    | ok ns =>
      rw [hp] at hr
      exact loadNodes_slot hs hr
  | loadNodes name ns => exact loadNodes_slot hs hr
  | step c =>
    change (m.step c).2.program.slot? b = some s
    rwa [step_program]
  | resume v =>
    change (m.resume v).2.program.slot? b = some s
    unfold Machine.resume
    split <;> exact hs
  | drain | abort | reset => exact hs

end

/-- From the one machine on to the other, by ticks and by whole requests that are allowed, the frame
    with `d` frames below it is not left. -/
inductive Stays (d : Nat) (allowed : Machine → Request → Prop) (m : Machine) : Machine → Prop
  | refl : Stays d allowed m m
  | tick {k k' : Machine} {s : Signal} : Stays d allowed m k → k.halted = none → k.awaiting = false →
      k.tick s = .go k' ∨ k.tick s = .pause k' → d < k'.frames.length → Stays d allowed m k'
  | request {k : Machine} {r : Request} : Stays d allowed m k → allowed k r → d < (r.apply k).frames.length →
      Stays d allowed m (r.apply k)

def Spares (b : Int) (m : Machine) (r : Request) : Prop := ¬ r.Replaces m b

section

variable {k : Machine}

theorem Stays.lasts {allowed : Machine → Request → Prop} (h : Stays d allowed m k) : Lasts d m.frames k.frames := by
  induction h with
  | refl => exact .refl
  | tick _ _ _ ht hd ih =>
    rcases ht with ht | ht
    · exact ih.trans (tick_go_lasts ht d)
    · exact ih.trans (tick_pause_lasts ht hd)
  | request _ _ hd ih => exact ih.trans (Request.lasts hd)

/-- The code of a block is the same all the time. -/
theorem Stays.slot {b : Int} {s : Slot} (h : Stays d (Spares b) m k) (hs : m.program.slot? b = some s) :
    k.program.slot? b = some s := by
  induction h with
  | refl => exact hs
  | @tick k k' s _ _ _ ht _ ih =>
    have hprogram := tick_program s k
    rcases ht with ht | ht
    · rw [ht] at hprogram
      rwa [← hprogram] at ih
    · rw [ht] at hprogram
      rwa [← hprogram] at ih
  | request _ hr _ ih => exact Request.slot ih hr

end

/-! ## (3) Loading again -/

def unitFrame (name : Text) (block : Int) : Frame := { name := name, unit := name, block := block, scope := globals }

theorem load_again {src : Text} {u : CodeUnit} (hu : m.unit? name = some u)
    (hl : m.load name src = (.ok (), m')) :
    ∃ ns, Parse.source src = .ok ns ∧ m.program.recompile u.block ns = (.ok (), m'.program) ∧
      m'.frames = unitFrame name u.block :: m.frames := by
  unfold load at hl
  cases hp : Parse.source src with
  | error e =>
    rw [hp] at hl
    cases hl
  | ok ns =>
    rw [hp] at hl
    replace hl : m.loadNodes name ns = (.ok (), m') := hl
    refine ⟨ns, rfl, ?_⟩
    unfold loadNodes at hl
    rw [hu] at hl
    split at hl
    · cases hl
    split at hl
    · cases hl
    simp only at hl
    split at hl
    · cases hl
    · rename_i q hq
      rw [dropObjects_all] at hl
      cases hl
      exact ⟨hq, rfl⟩

/-- Loading a unit again puts a frame for its new code on top of all the frames, which stand where
    they stood. The block of the unit then has the new code, and all other blocks have their code.
    As long as there are frames above it, a frame does not change. A frame of another block, the
    code of which was not replaced since the frame was entered, has that code until it is left, and
    executes instructions of it only. -/
theorem load_spares_frames {m m' : Machine} {name src : Text} {u : CodeUnit} (hu : m.unit? name = some u)
    (hl : m.load name src = (.ok (), m')) :
    m'.frames = unitFrame name u.block :: m.frames ∧
      (∃ ns code p, Parse.source src = .ok ns ∧ Lower.result (Lower.nodes 0 ns) m.program = (.ok code, p) ∧
        ∀ b s, m.program.slot? b = some s → m'.program.slot? b = some (if b = u.block then code.toSlot else s)) ∧
      (∀ d k, d < m.frames.length → Stays (d + 1) (fun _ _ => True) m' k → k.frameAt d = m.frameAt d) ∧
      ∀ entered d f s, frameAt entered d = some f → entered.program.slot? f.block = some s →
        Stays d (Spares f.block) entered m → f.block ≠ u.block →
        ∀ k, Stays d (Spares f.block) m' k →
          ∃ g, k.frameAt d = some g ∧ g.block = f.block ∧ k.program.slot? f.block = some s ∧
            (k.frames.length = d + 1 → k.current? = (s.code.getD [])[g.pc]?) := by
  obtain ⟨ns, hns, hp, hframes⟩ := load_again hu hl
  have hslots : ∃ code p, Lower.result (Lower.nodes 0 ns) m.program = (.ok code, p) ∧
      ∀ b s, m.program.slot? b = some s → m'.program.slot? b = some (if b = u.block then code.toSlot else s) := by
    rcases Program.recompile_cases hp with ⟨e, he, -⟩ | ⟨n, code, p, hn, hlt, -, hcode, hle, hq⟩
    · cases he
    refine ⟨code, p, hcode, fun b s hs => ?_⟩
    rw [hq, Program.slot?_fill (Nat.lt_of_lt_of_le hlt hle.slots.length_le), hn]
    split
    · rfl
    · exact hle.slot? hs
  obtain ⟨code, p, hcode, hslot⟩ := hslots
  refine ⟨hframes, ⟨ns, code, p, hns, hcode, hslot⟩, ?_, ?_⟩
  · intro d k hd hk
    have hcovered := hk.lasts.covered (by rw [hframes]; exact Nat.succ_lt_succ hd)
    rw [hframes, reverse_cons_lt hd] at hcovered
    exact hcovered
  · intro entered d f s hf hs hm hb k hk
    -- from its entry to the load, by the load, and from then on
    have hpushed : Lasts d m.frames m'.frames := hframes ▸ .push _ .refl
    obtain ⟨g, hg, hgb⟩ := ((hm.lasts.trans hpushed).trans hk.lasts).block hf
    have hloaded := hslot f.block s (hm.slot hs)
    rw [if_neg hb] at hloaded
    have hkept := hk.slot hloaded
    refine ⟨g, hg, hgb, hkept, ?_⟩
    intro htop
    have hhead : k.frames.head? = some g := by
      rw [← List.getLast?_reverse, List.getLast?_eq_getElem?, List.length_reverse, htop]
      exact hg
    have hblock : k.program.block? g.block = some (s.code.getD []) := by
      rw [Program.block?, hgb, hkept]
      rfl
    rw [current?, hhead]
    change (k.program.block? g.block).bind _ = _
    rw [hblock]
    rfl

/-- A machine that has run one unit, and that has just entered another. -/
def secondEntered : Machine :=
  (History.after (new {}) [.load "main" "a = 1", .step false, .load "lib" "f = x => \x7b x \x7d f(1)"]).machine

/-- The first unit is loaded again while the second one is behind its call: the second one has its code. -/
theorem load_spares_frames_second :
    ∃ u m' f g s, (secondEntered.step false).2.unit? "main" = some u ∧
      (secondEntered.step false).2.load "main" "b = 2" = (.ok (), m') ∧
      secondEntered.frameAt 0 = some f ∧ secondEntered.program.slot? f.block = some s ∧ f.block ≠ u.block ∧
      (m'.step false).2.frameAt 0 = some g ∧ g.block = f.block ∧ (m'.step false).2.program.slot? f.block = some s := by
  have hunit : ((secondEntered.step false).2.unit? "main").map (·.block) = some 0 := by decide +kernel
  have hframe : (secondEntered.frameAt 0).map (·.block) = some 1 := by decide +kernel
  have hslot : (secondEntered.program.slot? 1).isSome = true := by decide +kernel
  have hok : ((secondEntered.step false).2.load "main" "b = 2").1.isOk = true := by decide +kernel
  have hentered : 0 < (secondEntered.step false).2.frames.length := by decide +kernel
  have hloaded : 0 < (((secondEntered.step false).2.load "main" "b = 2").2.step false).2.frames.length := by decide +kernel
  -- from here on nothing is evaluated
  generalize secondEntered = entered at *
  obtain ⟨u, hu, hub⟩ := Option.map_eq_some_iff.mp hunit
  obtain ⟨f, hf, hfb⟩ := Option.map_eq_some_iff.mp hframe
  obtain ⟨s, hs⟩ := Option.isSome_iff_exists.mp hslot
  rw [← hfb] at hs
  have hne : f.block ≠ u.block := by
    rw [hfb, hub]
    decide
  rcases hl : (entered.step false).2.load "main" "b = 2" with ⟨_ | _, m'⟩
  · rw [hl] at hok
    cases hok
  rw [hl] at hloaded
  have hspares : ∀ k, Spares f.block k (.step false) := fun _ h => h
  obtain ⟨-, -, -, hkeeps⟩ := load_spares_frames hu hl
  obtain ⟨g, hg, hgb, hgs, -⟩ := hkeeps entered 0 f s hf hs (.request .refl (hspares entered) hentered) hne _
    (.request .refl (hspares m') hloaded)
  exact ⟨u, m', f, g, s, hu, rfl, hf, hs, hne, hg, hgb, hgs⟩

/-- A unit calls a function, and is loaded again when the function was left. -/
def overrunning : List Request :=
  [.load "main" "f = x => \x7b x \x7d f(1)", .step false, .load "main" "a = 1 b = 2 c = 3", .step false]

/-- When the unit's old frame is on top again, it stands behind the eight instructions that it was entered
    with, where the new code has an instruction to execute. -/
theorem overrun :
    ((History.after (new {}) (overrunning.take 1)).machine.program.block? 0).map (·.length) = some 8 ∧
      ((History.after (new {}) (overrunning.take 2)).machine.frameAt 0).map (fun f => (f.block, f.pc)) = some (0, 8) ∧
      ((History.after (new {}) overrunning).machine.frameAt 0).map (fun f => (f.block, f.pc)) = some (0, 8) ∧
      (History.after (new {}) overrunning).machine.current? = some ⟨.store, 0⟩ ∧
      ((History.after (new {}) overrunning).machine.step false).2.halted.map (·.message) =
        some ("runtime error in block #0 at 0008 Store: operand stack underflow" : Text) := by
  refine ⟨by decide +kernel, by decide +kernel, by decide +kernel, by decide +kernel, by decide +kernel⟩

/-! ## (4) Loading that fails -/

theorem loadNodes_error {e : MachineError} (h : m.loadNodes name ns = (.error e, m')) :
    m' = m ∨ ∃ le p, e = .lower le ∧ m.program.Le p ∧ m' = { m with program := p } := by
  unfold loadNodes at h
  split at h
  · cases h
    exact .inl rfl
  split at h
  · cases h
    exact .inl rfl
  split at h
  · split at h
    · rename_i hp
      cases h
      exact .inr ⟨_, _, rfl, Program.le_of_recompile_error hp, rfl⟩
    · cases h
  · split at h
    · rename_i le p hp
      cases h
      have hle := m.program.le_compile ns
      rw [hp] at hle
      exact .inr ⟨_, _, rfl, hle, rfl⟩
    · cases h

theorem load_error {src : Text} {e : MachineError} (h : m.load name src = (.error e, m')) :
    m' = m ∨ ∃ le p, e = .lower le ∧ m.program.Le p ∧ m' = { m with program := p } := by
  unfold load at h
  split at h
  · cases h
    exact .inl rfl
  · exact loadNodes_error h

/-- Loading that fails leaves everything of the machine but its program. The blocks of the program with
    their constructor sites, the names of its numbers and its constants are all as they were. If it was
    not compiling that failed, the program is the same too. -/
theorem failed_load_changes_nothing {m m' : Machine} {name : Text} {e : MachineError}
    (h : (∃ src, m.load name src = (.error e, m')) ∨ ∃ ns, m.loadNodes name ns = (.error e, m')) :
    m' = { m with program := m'.program } ∧
      (∀ b s, m.program.slot? b = some s → m'.program.slot? b = some s) ∧
      (∀ t id, m.program.idents.lookup? t = some id → m'.program.idents.lookup? t = some id ∧ m'.program.name id = t) ∧
      (∀ id v, m.program.const? id = some v → m'.program.const? id = some v) ∧
      ((∀ le, e ≠ .lower le) → m' = m) := by
  have hcases : m' = m ∨ ∃ le p, e = .lower le ∧ m.program.Le p ∧ m' = { m with program := p } := by
    rcases h with ⟨src, h⟩ | ⟨ns, h⟩
    · exact load_error h
    · exact loadNodes_error h
  rcases hcases with rfl | ⟨le, p, rfl, hle, rfl⟩
  · exact ⟨rfl, fun _ _ hs => hs, fun _ _ ht => ⟨ht, Idents.name_of_lookup? ht⟩, fun _ _ hv => hv, fun _ => rfl⟩
  · refine ⟨rfl, fun _ _ hs => hle.slot? hs, ?_, fun _ _ hv => hle.const? hv, fun hno => absurd rfl (hno le)⟩
    intro t id ht
    have ht := Idents.lookup?_mono hle.names ht
    exact ⟨ht, Idents.name_of_lookup? ht⟩

/-- A function in a function, in the innermost body of which, after a name, stands a node that cannot be
    compiled. -/
def illFormed : List Node :=
  [.assign (.ident "b") (.function ["x"] [.function ["y"] [.ident "z", .hole]])]

/-- The unit is loaded and has not run, and is loaded again with trees that cannot be compiled. -/
theorem failed_load_changes_nothing_inside :
    ∃ e m', (History.after (new {}) [.load "main" "a = 1"]).machine.loadNodes "main" illFormed = (.error e, m') ∧
      m'.frames = (History.after (new {}) [.load "main" "a = 1"]).machine.frames ∧
      m'.program.slots.length = 3 ∧
      m'.program.block? 0 = (History.after (new {}) [.load "main" "a = 1"]).machine.program.block? 0 := by
  have hfailed : ((History.after (new {}) [.load "main" "a = 1"]).machine.loadNodes "main" illFormed).1.isOk = false := by
    decide +kernel
  have hslots : ((History.after (new {}) [.load "main" "a = 1"]).machine.loadNodes "main" illFormed).2.program.slots.length = 3 := by
    decide +kernel
  have hslot : ((History.after (new {}) [.load "main" "a = 1"]).machine.program.slot? 0).isSome = true := by
    decide +kernel
  -- from here on nothing is evaluated
  generalize (History.after (new {}) [.load "main" "a = 1"]).machine = m at *
  rcases hl : m.loadNodes "main" illFormed with ⟨e | u, m'⟩
  · obtain ⟨s, hs⟩ := Option.isSome_iff_exists.mp hslot
    obtain ⟨hrest, hkeeps, -⟩ := failed_load_changes_nothing (.inr ⟨illFormed, hl⟩)
    rw [hl] at hslots
    refine ⟨e, m', rfl, by rw [hrest], hslots, ?_⟩
    rw [Program.block?, Program.block?, hs, hkeeps 0 s hs]
  · rw [hl] at hfailed
    cases hfailed

end Machine

end Scriptlet

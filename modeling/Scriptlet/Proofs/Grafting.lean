/-
  Scriptlet.Proofs.Grafting — a unit whose code is part of a longer unit.

  One machine runs a piece of code as a unit of its own. Another one runs it in the middle of the code of a
  longer unit, whose frame may hold operands from before, and with other numbers of blocks. `Graft` says how
  the two programs fit together, and `Graft.Sits` how the two machines do: every frame of the first has its seat in
  the second, the one at the bottom in the frame of the longer unit.

  Tick by tick, both do the same (`Grafted.tick`), until the piece is at its end.
-/

import Scriptlet.Proofs.Driving
import Scriptlet.Proofs.Seating
import Scriptlet.Proofs.Shifting

namespace Scriptlet

open Machine

theorem Frame.seated_unit (f : Frame) (unit : Text) : f.seated { unit := unit } = { f with unit := unit } := by
  simp [seated]

theorem Frame.seated_next (f : Frame) (s : Seat) :
    { f.seated s with pc := (f.seated s).pc + 1 } = Frame.seated s { f with pc := f.pc + 1 } := by
  simp [seated, Nat.add_right_comm]

/-- Why a machine halted, under new numbers of blocks, where block `b` is a part of `b'` that starts at `n`. -/
def Halt.moved (ρ : Renaming) (b b' : Int) (n : Nat) : Halt → Halt
  | .fault block pc i f =>
    if block = b then .fault b' (pc + n) i (f.rename ρ) else .fault (ρ.block block) pc i (f.rename ρ)
  | h => h.rename ρ

/-- A piece of code, in the block `piece` of a program `p`, that stands in the block `whole` of a program `q`, too. -/
structure Graft where
  ρ : Renaming
  p : Program
  q : Program
  piece : Nat
  whole : Nat
  part : Slot
  all : Slot
  /-- How much code stands in front of the piece. -/
  shift : Nat
  unit : Text
  /-- The operands that the code in front has left. -/
  below : List Operand
  returns : Bool
  ident : ρ.ident = id
  units : ρ.unit = id
  gone : ∀ b : Nat, ρ.block piece ≠ b
  names : p.idents.names <+: q.idents.names
  const : ∀ {id : Int} {v : Value}, p.const? id = some v → q.const? id = some (v.rename ρ)
  slot : ∀ {b k : Nat}, b < p.slots.length → ρ.block b = k → q.slots[k]? = p.slots[b]?
  at_piece : p.slots[piece]? = some part
  at_whole : q.slots[whole]? = some all
  code : ∀ k, k < part.marked.length → all.marked[k + shift]? = part.marked[k]?
  stop : returns = true → all.marked.length = part.marked.length + shift

namespace Graft

variable (G : Graft)

def seat : Seat where
  name _ := G.unit
  unit := G.unit
  block _ := G.whole
  shift := G.shift
  below := G.below

def stack : List Frame → List Frame
  | [] => []
  | [f] => [f.seated G.seat]
  | f :: g :: fs => f.seated { unit := G.unit } :: stack (g :: fs)

structure Rests (owed : Nat) (f : Frame) : Prop where
  block : f.block = G.piece
  returns : f.returns = false
  scope : f.scope = Machine.globals
  result : G.returns = false → f.result = none
  pc : f.pc ≤ G.part.marked.length
  level : ∃ h, Marked.balance G.returns (G.part.marked.drop f.pc) (f.operands.length + owed, f.groups.length) = some (h, 0)

/-- The frame at the bottom runs the piece, and all above are functions that return to the ones below. The frame on
    top is still to get so many operands. -/
inductive Founded : Nat → List Frame → Prop
  | bottom {owed : Nat} {f : Frame} : G.Rests owed f → Founded owed [f]
  | above {owed : Nat} {f g : Frame} {fs : List Frame} : f.returns = true → Founded 1 (g :: fs) → Founded owed (f :: g :: fs)

/-- The second machine is the first one under other numbers, with all frames in their seats. -/
structure Sits (pend : List Action) (owed : Nat) (a c : Machine) : Prop where
  seated : ∃ us, c = (a.rename G.ρ G.q).under pend (G.stack (a.frames.map (Frame.rename G.ρ))) us
  founded : G.Founded owed a.frames

def halt : Halt → Halt := Halt.moved G.ρ G.piece G.whole G.shift

inductive Follows (R : Nat → Machine → Machine → Prop) (pend : List Action) : Machine.Tick → Machine.Tick → Prop
  | go {a c : Machine} : a.awaiting = false → R 0 a c → Follows R pend (.go a) (.go c)
  | ask {a c : Machine} : a.awaiting = true → R 1 a c → Follows R pend (.pause a) (.pause c)
  | left {a c : Machine} : a.awaiting = false → R 0 a c → Follows R pend (.pause a) (.pause c)
  | stop {a : Machine} (fs : List Frame) (us : List CodeUnit) {e e' : Halt} : e' = G.halt e →
      Follows R pend (.stop a e) (.stop ((a.rename G.ρ G.q).under pend fs us) e')

variable {G} {fs : List Frame} {owed : Nat} {m : Machine} {site : Bool} {g : Frame} {p : Program} {pend : List Action}

theorem instr_rename (i : Instr) : i.rename G.ρ = i := by
  unfold Instr.rename
  rw [G.ident]
  simp

theorem length_stack (fs : List Frame) : (G.stack fs).length = fs.length := by
  induction fs with
  | nil => rfl
  | cons f fs ih =>
    cases fs with
    | nil => rfl
    | cons g fs => simp [stack, ih]

theorem Founded.ne_nil (h : G.Founded owed fs) : fs ≠ [] := by
  cases h <;> simp

/-- The frame on top gets the operand that it is owed. -/
theorem Founded.deliver {fs : List Frame} (h : G.Founded 1 fs) (v : Value) : G.Founded 0 (deliver v fs) := by
  cases h with
  | bottom hf =>
    refine .bottom ⟨hf.block, hf.returns, hf.scope, hf.result, hf.pc, ?_⟩
    exact hf.level
  | above hr hg => exact .above hr hg

theorem stack_deliver (v : Value) (fs : List Frame) : G.stack (deliver v fs) = deliver v (G.stack fs) := by
  cases fs with
  | nil => rfl
  | cons f fs => cases fs <;> rfl

/-! ## Instructions -/

section

variable {m' : Machine} {f : Frame} {rest : List Frame} {i : Instr} {stop : Nat}

/-- The level of the frame before an instruction is enough for the instruction. -/
theorem Rests.next (h : G.Rests 0 f) (hi : G.part.marked[f.pc]? = some (i, site)) :
    i.isBalanced G.returns (f.operands.length, f.groups.length) = true ∧
      ∃ h, Marked.balance G.returns (G.part.marked.drop (f.pc + 1))
        (Instr.after (i, site) (f.operands.length, f.groups.length)) = some (h, 0) := by
  obtain ⟨k, hk⟩ := h.level
  obtain ⟨hlt, hget⟩ := List.getElem?_eq_some_iff.mp hi
  rw [List.drop_eq_getElem_cons hlt, hget, Marked.balance, Instr.balance] at hk
  split at hk
  · rename_i hb
    exact ⟨hb, k, hk⟩
  · cases hk

theorem Rests.takes (h : G.Rests 0 f)
    (hi : G.part.marked[f.pc]? = some (i, site))
    (ht : Frame.Takes i site G.part.marked.length owed { f with pc := f.pc + 1 } g) : G.Rests owed g := by
  obtain ⟨hb, k, hk⟩ := h.next hi
  have hlevel := ht.level
  dsimp only at hlevel
  refine ⟨ht.block.trans h.block, ht.returns.trans h.returns, ht.scope.trans h.scope, fun hr => ?_, ?_, ?_⟩
  · have hne : i.op ≠ .ret := by
      intro e
      simp [Instr.isBalanced, e, hr] at hb
    exact (ht.result hne).trans (h.result hr)
  · rw [ht.pc]
    split
    · exact Nat.le_refl _
    · exact (List.getElem?_eq_some_iff.mp hi).1
  · rw [ht.pc]
    by_cases e : i.op = .ret
    · rw [if_pos e, List.drop_length]
      simp only [Instr.isBalanced, e, if_true, Bool.and_eq_true, beq_iff_eq] at hb
      rw [hlevel]
      exact ⟨f.operands.length - 1, by simp [Marked.balance, Instr.after, e, hb.2]⟩
    · rw [if_neg e, hlevel]
      exact ⟨k, hk⟩

theorem Founded.exec (h : G.Founded 0 (f :: rest)) (hw : m.awaiting = false)
    (hd : Does m { f with pc := f.pc + 1 } rest stop f.pc i m')
    (hbottom : rest = [] → stop = G.part.marked.length ∧
      G.part.marked[f.pc]? = some (i, m.program.isConstructor f.block f.pc)) :
    G.Founded (if m'.awaiting then 1 else 0) m'.frames := by
  obtain ⟨g, owed, howes, htakes⟩ := hd.owes hw
  cases h with
  | bottom hf =>
    obtain ⟨rfl, hi⟩ := hbottom rfl
    have hg : G.Rests owed g := hf.takes hi htakes
    cases howes with
    | stays hframes hw' =>
      rw [hframes, hw']
      exact .bottom hg
    | asks hframes hw' =>
      rw [hframes, hw']
      exact .bottom hg
    | calls hframes hw' hcallee =>
      rw [hframes, hw']
      exact .above hcallee (.bottom hg)
  | above hr hrest =>
    have hg : g.returns = true := htakes.returns.trans hr
    cases howes with
    | stays hframes hw' | asks hframes hw' =>
      rw [hframes]
      exact .above hg hrest
    | calls hframes hw' hcallee =>
      rw [hframes]
      exact .above hcallee (.above hg hrest)

end

/-! ## Ticks -/

/-- The names of the longer program are known to the machine. -/
theorem relabels (hp : p.idents = G.q.idents) : p.Relabels G.ρ G.q := by
  refine ⟨?_, ?_, ?_, fun id => ?_⟩
  · rw [Renaming.Faithful, G.ident]
    exact Function.injective_id
  · rw [G.units]
    exact Function.injective_id
  · rw [G.ident]
    rfl
  · rw [G.ident, Program.name, Program.name, hp]
    rfl

structure At (s : Seat) (p : Program) (f : Frame) (rest rest' : List Frame) (code code' : Block) (i : Instr) : Prop where
  block : p.block? f.block = some code
  instr : code[f.pc]? = some i
  block' : G.q.block? (s.block (G.ρ.block f.block)) = some code'
  instr' : code'[f.pc + s.shift]? = some i
  const : i.op = .loadConst → G.q.const? i.arg = (p.const? i.arg).map (Value.rename G.ρ)
  site : G.q.isConstructor (s.block (G.ρ.block f.block)) (f.pc + s.shift : Nat) = p.isConstructor f.block f.pc
  stop : i.op = .ret → code'.length = code.length + s.shift
  enough : s.Enough (if i.op = .ret then 1 else i.takes) f
  unit : s.unit = G.unit
  stack : ∀ g, G.stack (g :: rest.map (Frame.rename G.ρ)) = g.seated s :: rest'
  halt : ∀ e, G.halt (.fault f.block f.pc i e) =
    .fault (s.block (G.ρ.block f.block)) (f.pc + s.shift) i (e.rename G.ρ)

section

variable {n c : Machine} {f : Frame} {rest rest' : List Frame} {s : Seat} {code code' : Block} {i : Instr}

theorem exec_stop {pc : Nat} (hi : i.op ≠ .ret) (stop stop' : Nat) :
    m.exec f rest stop pc i = m.exec f rest stop' pc i := by
  obtain ⟨op, arg⟩ := i
  cases op with
  | ret => exact absurd rfl hi
  | _ => rfl

section

variable (h : G.At s n.program f rest rest' code code' i)

include h

/-- The second machine runs the instruction in the seat of the frame. -/
theorem At.exec (hp : n.program.idents = G.q.idents) (pend : List Action)
    (fs : List Frame) (us : List CodeUnit) :
    Stuck.Agree s (s.Seats pend (rest.map (Frame.rename G.ρ)) rest')
      (Stuck.carry G.ρ (rename G.ρ G.q) (n.exec { f with pc := f.pc + 1 } rest code.length f.pc i))
      (((n.rename G.ρ G.q).under pend fs us).exec
        { (f.rename G.ρ).seated s with pc := ((f.rename G.ρ).seated s).pc + 1 } rest' code'.length (f.pc + s.shift) i) := by
  have hlen : rest'.length = rest.length := by
    have := congrArg List.length (h.stack f)
    rw [length_stack] at this
    simpa using this.symm
  have hseated : Stuck.Agree s (s.Seats pend (rest.map (Frame.rename G.ρ)) rest')
      (Stuck.carry G.ρ (rename G.ρ G.q) (n.exec { f with pc := f.pc + 1 } rest code.length f.pc i))
      (((n.rename G.ρ G.q).under pend fs us).exec ((Frame.rename G.ρ { f with pc := f.pc + 1 }).seated s) rest'
        (code.length + s.shift) (f.pc + s.shift) (i.rename G.ρ)) :=
    exec_seated (relabels hp) h.const h.site hlen h.enough
  rw [instr_rename] at hseated
  rw [Frame.seated_next]
  by_cases hi : i.op = .ret
  · rw [h.stop hi]
    exact hseated
  · rw [exec_stop hi code'.length (code.length + s.shift)]
    exact hseated

/-- The machines sit as before, wherever the instruction has put the frame. -/
theorem At.sits {n' c' : Machine}
    (hseats : s.Seats pend (rest.map (Frame.rename G.ρ)) rest' (n'.rename G.ρ G.q) c') (hfounded : G.Founded owed n'.frames) :
    G.Sits pend owed n' c' := by
  refine ⟨?_, hfounded⟩
  cases hseats with
  | stay g us hg hc =>
    refine ⟨us, hc.trans ?_⟩
    rw [show n'.frames.map (Frame.rename G.ρ) = _ from hg, h.stack]
  | enter callee g us hg hc =>
    refine ⟨us, hc.trans ?_⟩
    have hstack : G.stack (callee :: g :: rest.map (Frame.rename G.ρ)) = { callee with unit := s.unit } :: g.seated s :: rest' := by
      rw [Graft.stack, h.stack, Frame.seated_unit, h.unit]
    rw [show n'.frames.map (Frame.rename G.ρ) = _ from hg, hstack]

theorem At.follows (hp : n.program.idents = G.q.idents)
    (ha : n.aborted = false) (hf : n.frames = f :: rest)
    (hfounded : ∀ {n' : Machine}, Does n { f with pc := f.pc + 1 } rest code.length f.pc i n' →
      G.Founded (if n'.awaiting then 1 else 0) n'.frames) (us : List CodeUnit) :
    G.Follows (G.Sits pend) pend (n.tick .quiet)
      (((n.rename G.ρ G.q).under pend (G.stack (n.frames.map (Frame.rename G.ρ))) us).tick .quiet) := by
  let fs := G.stack (n.frames.map (Frame.rename G.ρ))
  have hframes : ((n.rename G.ρ G.q).under pend fs us).frames = (f.rename G.ρ).seated s :: rest' := by
    rw [← h.stack, ← List.map_cons, ← hf]
    rfl
  have hagree := h.exec hp pend fs us
  have htick := tick_instr (m := (n.rename G.ρ G.q).under pend fs us) ha hframes h.block' h.instr'
  rw [tick_instr ha hf h.block h.instr]
  change G.Follows _ pend _ (tick .quiet ((n.rename G.ρ G.q).under pend fs us))
  rw [htick]
  change Stuck.Agree _ _ _ (Machine.exec _ _ _ _ ((f.rename G.ρ).seated s).pc i) at hagree
  generalize Machine.exec ((n.rename G.ρ G.q).under pend fs us) _ rest' code'.length ((f.rename G.ρ).seated s).pc i = x at hagree ⊢
  cases hn : n.exec { f with pc := f.pc + 1 } rest code.length f.pc i with
  | error e =>
    rw [hn] at hagree
    cases x with
    | error e' =>
      obtain rfl : e' = ⟨e.fault.rename G.ρ, (e.frame.rename G.ρ).seated s⟩ := hagree
      exact .stop ((e.frame.rename G.ρ).seated s :: rest') us (h.halt e.fault).symm
    | ok c' => exact hagree.elim
  | ok n' =>
    rw [hn] at hagree
    cases x with
    | error e' => exact hagree.elim
    | ok c' =>
      have hsits := h.sits hagree (hfounded (exec_ok hn))
      obtain ⟨us', hc⟩ := hsits.seated
      have hawaiting : c'.awaiting = n'.awaiting := by rw [hc]; rfl
      dsimp only
      rw [hawaiting]
      cases hw : n'.awaiting with
      | false =>
        rw [hw] at hsits
        exact .go hw hsits
      | true =>
        rw [hw] at hsits
        exact .ask hw hsits

end

theorem marked_some {sl : Slot} {k : Nat} :
    sl.marked[k]? = some (i, site) ↔ (sl.code.getD [])[k]? = some i ∧ (sl.sites.getD []).contains k = site := by
  rw [Slot.marked_getElem?, Option.map_eq_some_iff]
  simp only [Prod.mk.injEq]
  constructor
  · rintro ⟨j, hj, rfl, hs⟩
    exact ⟨hj, hs⟩
  · rintro ⟨hi, hs⟩
    exact ⟨i, hi, rfl, hs⟩

theorem length_marked (sl : Slot) : sl.marked.length = (sl.code.getD []).length := List.length_mapIdx

/-- The frame of the piece is in the seat at the bottom. -/
theorem Rests.at {p : Program} (h : G.Rests 0 f) (hs : p.slots = G.p.slots) (hi : (G.part.code.getD [])[f.pc]? = some i)
    (hconst : i.op = .loadConst → G.q.const? i.arg = (p.const? i.arg).map (Value.rename G.ρ)) :
    G.At G.seat p f [] [] (G.part.code.getD []) (G.all.code.getD []) i := by
  have hpiece : p.slots[G.piece]? = some G.part := hs ▸ G.at_piece
  have hmarked : G.part.marked[f.pc]? = some (i, (G.part.sites.getD []).contains f.pc) := marked_some.mpr ⟨hi, rfl⟩
  have hlt : f.pc < G.part.marked.length := (List.getElem?_eq_some_iff.mp hmarked).1
  obtain ⟨hi', hsite⟩ := marked_some.mp ((G.code f.pc hlt).trans hmarked)
  have hbalanced := (h.next hmarked).1
  refine ⟨?_, hi, Program.block?_of_slot G.at_whole, hi', hconst, ?_, fun hr => ?_, .inr ?_, rfl, fun g => rfl, fun e => ?_⟩
  · rw [h.block]
    exact Program.block?_of_slot hpiece
  · rw [h.block, Program.isConstructor_of_slot hpiece]
    exact (Program.isConstructor_of_slot G.at_whole _).trans hsite
  · have hreturns : G.returns = true := by
      simp only [Instr.isBalanced, hr, if_true, Bool.and_eq_true] at hbalanced
      exact hbalanced.1.1
    rw [← length_marked, ← length_marked]
    exact G.stop hreturns
  · unfold Instr.isBalanced at hbalanced
    split at hbalanced
    · rename_i hr
      rw [if_pos hr]
      simp only [Bool.and_eq_true, decide_eq_true_eq] at hbalanced
      exact hbalanced.1.2
    · rename_i hr
      rw [if_neg hr]
      exact of_decide_eq_true hbalanced
  · exact if_pos h.block

/-- A block that has a number in the second program is the same there. -/
theorem slot_eq (hs : p.slots = G.p.slots) {x : Int} (hx : ∃ b : Nat, x = b ∧ b < p.slots.length)
    (hk : ∃ k : Nat, G.ρ.block x = k) : x ≠ G.piece ∧ G.q.slot? (G.ρ.block x) = p.slot? x := by
  obtain ⟨b, rfl, hlt⟩ := hx
  obtain ⟨k, hk⟩ := hk
  constructor
  · intro e
    exact G.gone k (e ▸ hk)
  · rw [hk, Program.slot?, Program.slot?, hs]
    exact G.slot (hs ▸ hlt) hk

/-- The frame of a function keeps its code, under the new number of its block. -/
theorem above_at (hne : f.block ≠ G.piece) (hslot : G.q.slot? (G.ρ.block f.block) = p.slot? f.block)
    (hcode : p.block? f.block = some code) (hi : code[f.pc]? = some i)
    (hconst : i.op = .loadConst → G.q.const? i.arg = (p.const? i.arg).map (Value.rename G.ρ)) (g : Frame) (fs : List Frame) :
    G.At { unit := G.unit } p f (g :: fs) (G.stack ((g :: fs).map (Frame.rename G.ρ))) code code i := by
  refine ⟨hcode, hi, ?_, hi, hconst, ?_, fun _ => rfl, .inl rfl, rfl, fun g => rfl, fun e => if_neg hne⟩
  · change (G.q.slot? (G.ρ.block f.block)).map _ = _
    rw [hslot]
    exact hcode
  · change ((((G.q.slot? (G.ρ.block f.block)).bind _).getD []).any _) = _
    rw [hslot]
    rfl

theorem leave_returns (hr : f.returns = true) :
    m.leave f (g :: fs) = (m.frameResult f).map fun v => m.withFrames (deliver v (g :: fs)) := by
  unfold leave
  rw [hr]
  cases m.frameResult f <;> rfl

theorem frameResult_unit (fs : List Frame) (us : List CodeUnit) (unit : Text) :
    (m.under pend fs us).frameResult { f with unit := unit } = m.frameResult f := by
  unfold frameResult popResult Frame.pop?
  cases f.result with
  | some v => rfl
  | none =>
    cases f.operands with
    | nil => rfl
    | cons o os =>
      have hsame : (m.under pend fs us).resolved o = m.resolved o := rfl
      simp only [hsame]
      cases m.resolved o <;> rfl

/-- A function that is left gives its result to the frame below, in both machines. -/
theorem left_follows (hp : n.program.idents = G.q.idents) (ha : n.aborted = false)
    (hw : n.awaiting = false) (hf : n.frames = f :: g :: fs) (hr : f.returns = true) (hfounded : G.Founded 1 (g :: fs))
    (hb : n.program.block? f.block = some code) (hb' : G.q.block? (G.ρ.block f.block) = some code)
    (hgone : f.block ≠ G.piece) (hi : code[f.pc]? = none) (us : List CodeUnit) :
    G.Follows (G.Sits pend) pend (n.tick .quiet)
      (((n.rename G.ρ G.q).under pend (G.stack (n.frames.map (Frame.rename G.ρ))) us).tick .quiet) := by
  let c := (n.rename G.ρ G.q).under pend (G.stack (n.frames.map (Frame.rename G.ρ))) us
  let rest' := G.stack ((g :: fs).map (Frame.rename G.ρ))
  have hframes : c.frames = { f.rename G.ρ with unit := G.unit } :: rest' := by
    change G.stack (n.frames.map (Frame.rename G.ρ)) = _
    rw [hf, ← Frame.seated_unit]
    rfl
  have hresult : c.frameResult { f.rename G.ρ with unit := G.unit } = Fault.carry G.ρ (Value.rename G.ρ) (n.frameResult f) :=
    (frameResult_unit _ us G.unit).trans (frameResult_rename (relabels hp))
  obtain ⟨g', fs', hrest⟩ : ∃ g' fs', rest' = g' :: fs' := by
    cases fs <;> exact ⟨_, _, rfl⟩
  have hleave : c.leave { f.rename G.ρ with unit := G.unit } rest' =
      (c.frameResult { f.rename G.ρ with unit := G.unit }).map fun v => c.withFrames (deliver v rest') := by
    rw [hrest]
    exact leave_returns hr
  change G.Follows _ pend _ (tick .quiet c)
  rw [tick_end ha hf hb hi, tick_end (m := c) ha hframes hb' hi, leave_returns hr, hleave, hresult]
  cases n.frameResult f with
  | error e =>
    refine Follows.stop rest' us ?_
    exact (if_neg hgone).symm
  | ok v =>
    refine Follows.left hw ⟨⟨us, ?_⟩, hfounded.deliver v⟩
    have hdeliver : (deliver v (g :: fs)).map (Frame.rename G.ρ) =
        deliver (v.rename G.ρ) ((g :: fs).map (Frame.rename G.ρ)) := rfl
    change c.withFrames (deliver (v.rename G.ρ) rest') =
      (rename G.ρ G.q (n.withFrames (deliver v (g :: fs)))).under pend
        (G.stack ((deliver v (g :: fs)).map (Frame.rename G.ρ))) us
    rw [hdeliver, stack_deliver]
    rfl

end

/-! ## Machines -/

structure Grafted (G : Graft) (pend : List Action) (owed : Nat) (a c : Machine) : Prop extends G.Sits pend owed a c where
  program : a.program = G.p
  supported : a.Supported
  supported' : c.Supported

section

variable {a c : Machine}

theorem Follows.grafted {t t' : Tick} {r : Program} (h : G.Follows (G.Sits pend) pend (t.withProgram r) t')
    (hp : t.machine.program = G.p) (hs : t.machine.Supported) (hs' : t'.machine.Supported) :
    G.Follows (G.Grafted pend) pend t t' := by
  have back {a c : Machine} {owed : Nat} (h : G.Sits pend owed { a with program := r } c) (hp : a.program = G.p)
      (hs : a.Supported) (hs' : c.Supported) : G.Grafted pend owed a c :=
    ⟨⟨h.seated, h.founded⟩, hp, hs, hs'⟩
  cases t with
  | go a =>
    cases h with
    | go hw h => exact .go hw (back h hp hs hs')
  | pause a =>
    cases h with
    | ask hw h => exact .ask hw (back h hp hs hs')
    | left hw h => exact .left hw (back h hp hs hs')
  | stop a e =>
    cases h with
    | stop fs us he => exact .stop fs us he

/-- Both machines do the same, unless the piece is at its end. -/
theorem Grafted.tick (h : G.Grafted pend 0 a c) (ha : a.aborted = false) (hw : a.awaiting = false) :
    (∃ f, a.frames = [f] ∧ (G.part.code.getD [])[f.pc]? = none) ∨
      G.Follows (G.Grafted pend) pend (a.tick .quiet) (c.tick .quiet) := by
  obtain ⟨S, hS⟩ := h.supported.sourced
  let n : Machine := { a with program := a.program.withIdents G.q.idents }
  have hnamed : n.tick .quiet = (a.tick .quiet).withProgram (a.program.withIdents G.q.idents) :=
    h.supported.tick_named (h.program ▸ G.names) .quiet
  suffices hn : (∃ f, a.frames = [f] ∧ (G.part.code.getD [])[f.pc]? = none) ∨
      G.Follows (G.Sits pend) pend (n.tick .quiet) (c.tick .quiet) by
    refine hn.imp_right fun hn => ?_
    rw [hnamed] at hn
    exact hn.grafted ((tick_program .quiet a).trans h.program) (h.supported.tick .quiet) (h.supported'.tick .quiet)
  obtain ⟨us, hc⟩ := h.seated
  have hslots : n.program.slots = G.p.slots := by
    change a.program.slots = _
    rw [h.program]
  have hconst {b : Int} {code : Block} {i : Instr} {k : Nat} (hb : n.program.block? b = some code) (hi : code[k]? = some i)
      (ho : i.op = .loadConst) : G.q.const? i.arg = (n.program.const? i.arg).map (Value.rename G.ρ) := by
    have hrefers := (Compiler.wellFormed_of_sourced (c := ⟨a.program, S⟩) hS).refers b code hb i (List.mem_of_getElem? hi)
    obtain ⟨j, hj, hlt⟩ := hrefers.const ho
    have hv : a.program.const? i.arg = some a.program.consts[j] := by
      rw [hj]
      exact List.getElem?_eq_getElem hlt
    change _ = (a.program.const? i.arg).map _
    rw [hv]
    exact G.const (h.program ▸ hv)
  have hfounded := h.founded
  generalize hframes : a.frames = fs at hfounded
  cases hfounded with
  | @bottom _ f hf =>
    cases hi : (G.part.code.getD [])[f.pc]? with
    | none => exact .inl ⟨f, rfl, hi⟩
    | some i =>
      have hpiece : n.program.slots[G.piece]? = some G.part := hslots ▸ G.at_piece
      have hblock : n.program.block? f.block = some (G.part.code.getD []) := hf.block ▸ Program.block?_of_slot hpiece
      have hsite : (G.part.sites.getD []).contains f.pc = n.program.isConstructor f.block f.pc :=
        hf.block ▸ (Program.isConstructor_of_slot hpiece f.pc).symm
      refine .inr (hc ▸ (hf.at hslots hi (hconst hblock hi)).follows rfl ha hframes (fun hd => ?_) us)
      exact (Founded.bottom hf).exec (m := n) hw hd fun _ => ⟨(length_marked _).symm, marked_some.mpr ⟨hi, hsite⟩⟩
  | @above _ f g fs hr hg =>
    have hmem : f ∈ a.frames := hframes ▸ List.mem_cons_self
    obtain ⟨b, hb, hlt⟩ := h.supported.block hmem
    have hseat : (f.rename G.ρ).seated { unit := G.unit } ∈ c.frames := by
      rw [hc]
      change _ ∈ G.stack (a.frames.map (Frame.rename G.ρ))
      rw [hframes]
      exact List.mem_cons_self
    obtain ⟨k, hk, -⟩ := h.supported'.block hseat
    have hcode : n.program.block? f.block = some ((a.program.slots[b]).code.getD []) := by
      rw [hb]
      exact Program.block?_of_slot (List.getElem?_eq_getElem hlt)
    obtain ⟨hne, hslot⟩ := slot_eq (p := n.program) hslots ⟨b, hb, hlt⟩ ⟨k, hk⟩
    cases hi : ((a.program.slots[b]).code.getD [])[f.pc]? with
    | some i =>
      refine .inr (hc ▸ (above_at hne hslot hcode hi (hconst hcode hi) g fs).follows rfl ha hframes (fun hd => ?_) us)
      exact (Founded.above hr hg).exec (m := n) hw hd fun e => by cases e
    | none =>
      have hcode' : G.q.block? (G.ρ.block f.block) = some ((a.program.slots[b]).code.getD []) := by
        rw [Program.block?, hslot]
        exact hcode
      exact .inr (hc ▸ left_follows (n := n) rfl ha hw hframes hr hg hcode hcode' hne hi us)

end

end Graft

end Scriptlet

/-
  Scriptlet.Proofs.Support — machines in which every number was given out.

  Numbers of identifiers and blocks stand in scopes, frames, objects, units and actions. That the program
  has given out all of them can be said without going through these places one by one: renamings that
  keep the numbers given out change nothing (`Supported`). Since machines do under other numbers what they
  do anyway, this stays true whatever they do (`supported_after`), as long as replies are plain data.

  (1) So every frame runs a block that there is (`Supported.block`).
  (2) Names that are given out later make no difference (`Supported.tick_named`).
-/

import Scriptlet.Proofs.Mirror
import Scriptlet.Proofs.Relabeling
import Scriptlet.Proofs.Sites

namespace Scriptlet

namespace Idents

variable {t u : Idents} {id : Int}

theorem name_of_ne (h : ∀ k : Nat, k < t.size → id ≠ k) : t.name id = [] := by
  cases id with
  | negSucc n => rfl
  | ofNat n =>
    have hn : t.names.length ≤ n := Nat.le_of_not_lt fun hlt => h n hlt rfl
    change t.names.getD n [] = []
    rw [List.getD_eq_getElem?_getD, List.getElem?_eq_none hn]
    rfl

theorem name_mono (h : t.names <+: u.names) (hid : id < t.size) : u.name id = t.name id := by
  cases id with
  | negSucc n => rfl
  | ofNat n =>
    have hn : n < t.names.length := Int.ofNat_lt.mp hid
    obtain ⟨more, hmore⟩ := h
    change u.names.getD n [] = t.names.getD n []
    rw [← hmore, List.getD_eq_getElem?_getD, List.getD_eq_getElem?_getD, List.getElem?_append_left hn]

end Idents

variable {p : Program} {ρ : Renaming} {S : List (List Node)}

/-- A constant mentions no block but that of a function. -/
theorem Value.IsConstant.rename_eq {v : Value} (h : v.IsConstant p)
    (hρ : ∀ b : Nat, b < p.slots.length → (∃ k, v = .proto ⟨b, k⟩) → ρ.block b = b) : v.rename ρ = v := by
  cases v with
  | proto f =>
    obtain ⟨block, k⟩ := f
    obtain ⟨-, b, rfl, hlt⟩ := h
    exact congrArg (fun b => Value.proto ⟨b, k⟩) (hρ b hlt ⟨k, rfl⟩)
  | none | int _ | float _ | str _ | bool _ => rfl
  | _ => cases h

def Program.withIdents (p : Program) (t : Idents) : Program := { p with idents := t }

/-- The renaming keeps the numbers that the program has given out, and gives none of them to anything else. -/
structure Renaming.Respects (ρ : Renaming) (p : Program) : Prop where
  faithful : ρ.Faithful
  unit : ρ.unit = id
  noIdent : ρ.ident Operand.noIdent = Operand.noIdent
  ident : ∀ k : Nat, k < p.idents.size → ρ.ident k = k
  block : ∀ k : Nat, k < p.slots.length → ρ.block k = k
  outside : ∀ b : Int, (∀ k : Nat, k < p.slots.length → b ≠ k) → ∀ k : Nat, k < p.slots.length → ρ.block b ≠ k

namespace Renaming.Respects

variable {q : Program}

theorem mono (h : ρ.Respects q) (hg : p.Grown q) : ρ.Respects p := by
  refine ⟨h.faithful, h.unit, h.noIdent, fun k hk => h.ident k (Nat.lt_of_lt_of_le hk hg.names.length_le),
    fun k hk => h.block k (Nat.lt_of_lt_of_le hk hg.slots), fun b hb k hk e => ?_⟩
  have hk' : k < q.slots.length := Nat.lt_of_lt_of_le hk hg.slots
  by_cases hq : ∃ j : Nat, j < q.slots.length ∧ b = j
  · obtain ⟨j, hj, rfl⟩ := hq
    rw [h.block j hj] at e
    exact hb k hk e
  · refine h.outside b (fun j hj ej => ?_) k hk' e
    exact hq ⟨j, hj, ej⟩

section

variable (h : ρ.Respects p)

include h

/-- Identifiers keep their names. -/
theorem name (id : Int) : p.name (ρ.ident id) = p.name id := by
  by_cases hid : ∃ k : Nat, k < p.idents.size ∧ id = k
  · obtain ⟨k, hk, rfl⟩ := hid
    rw [h.ident k hk]
  · have hnone : p.name id = [] := Idents.name_of_ne fun k hk e => hid ⟨k, hk, e⟩
    rw [hnone]
    refine Idents.name_of_ne fun k hk e => hid ⟨k, hk, ?_⟩
    exact h.faithful (e.trans (h.ident k hk).symm)

theorem instr {i : Instr} (hi : i.Refers p) : i.rename ρ = i := by
  unfold Instr.rename
  by_cases ho : i.op.namesIdent = true
  · obtain ⟨k, hk, hlt⟩ := hi.ident ho
    rw [if_pos ho, hk, h.ident k hlt, ← hk]
  · rw [if_neg ho]

theorem constant {v : Value} (hv : v.IsConstant p) : v.rename ρ = v :=
  hv.rename_eq fun b hb _ => h.block b hb

/-- The block is one of the program, or it is none under either number. -/
theorem slot (b : Int) : ρ.block b = b ∨ p.slot? b = none ∧ p.slot? (ρ.block b) = none := by
  have none_of {b : Int} (hb : ∀ k : Nat, k < p.slots.length → b ≠ k) : p.slot? b = none := by
    cases b with
    | negSucc n => rfl
    | ofNat n => exact List.getElem?_eq_none (Nat.le_of_not_lt fun hlt => hb n hlt rfl)
  by_cases hb : ∃ k : Nat, k < p.slots.length ∧ b = k
  · obtain ⟨k, hk, rfl⟩ := hb
    exact .inl (h.block k hk)
  · have hout : ∀ k : Nat, k < p.slots.length → b ≠ k := fun k hk e => hb ⟨k, hk, e⟩
    exact .inr ⟨none_of hout, none_of (h.outside b hout)⟩

/-- A program of the compiler is the same under the new numbers. -/
theorem renamed (hS : p.Sourced S) : p.Renamed ρ p := by
  have relabels : p.Relabels ρ p := by
    refine ⟨h.faithful, ?_, h.noIdent, h.name⟩
    rw [h.unit]
    exact Function.injective_id
  refine ⟨relabels, fun id => ?_, fun b => ?_, fun b pc => ?_, rfl⟩
  · cases hv : p.const? id with
    | none => rfl
    | some v => exact congrArg some (h.constant (hS.consts v (Program.mem_of_const? hv))).symm
  · rcases h.slot b with hb | ⟨hb, hb'⟩
    · rw [hb]
      cases hc : p.block? b with
      | none => rfl
      | some code =>
        have hrefers := (Compiler.wellFormed_of_sourced (c := ⟨p, S⟩) hS).refers b code hc
        have hsame : code.map (Instr.rename ρ) = code :=
          (List.map_congr_left fun i hi => h.instr (hrefers i hi)).trans (List.map_id code)
        rw [Option.map_some, hsame]
    · rw [Program.block?, Program.block?, hb, hb']
      rfl
  · rcases h.slot b with hb | ⟨hb, hb'⟩
    · rw [hb]
    · rw [Program.isConstructor, Program.isConstructor, Program.sites?, Program.sites?, hb, hb']

end

end Renaming.Respects

def Renaming.beyond (n : Nat) : Renaming where
  block b := if 0 ≤ b ∧ b < n then b else if b < 0 then b - 1 else b + 1

theorem Renaming.beyond_respects (p : Program) : (beyond p.slots.length).Respects p := by
  refine ⟨Function.injective_id, rfl, rfl, fun _ _ => rfl, fun k hk => ?_, fun b hb k hk => ?_⟩
  · exact if_pos ⟨by omega, by omega⟩
  · have hout : ¬ (0 ≤ b ∧ b < p.slots.length) := by
      intro h
      refine hb b.toNat ?_ ?_ <;> omega
    change (if 0 ≤ b ∧ b < p.slots.length then b else if b < 0 then b - 1 else b + 1) ≠ k
    rw [if_neg hout]
    split <;> omega

/-- Gives numbers of identifiers from the first one on to others. -/
def Renaming.above (n k : Nat) : Renaming where
  ident id := if id < n then id else id + k

theorem Renaming.above_respects (p : Program) (k : Nat) : (above p.idents.size k).Respects p := by
  refine ⟨fun a b h => ?_, rfl, ?_, fun j hj => ?_, fun _ _ => rfl, fun b hb => hb⟩
  · simp only [above] at h
    split at h <;> split at h <;> omega
  · have hneg : Operand.noIdent < p.idents.size := by
      unfold Operand.noIdent
      omega
    change (if Operand.noIdent < p.idents.size then Operand.noIdent else Operand.noIdent + k) = _
    rw [if_pos hneg]
  · exact if_pos (by omega)

/-- The block that an image is started with is one of its blocks. -/
theorem Image.entry_of_toProgram {i : Image} (h : i.toProgram = .ok p) :
    ∃ k : Nat, i.entry = k ∧ k < p.slots.length := by
  obtain ⟨hverify, -, -, hslots⟩ := toProgram_ok h
  have hlength : p.slots.length = i.blockList.length := by
    rw [hslots, List.length_zipWith, (framed_of_verify hverify).siteCount, Nat.min_self]
  have hentry : 0 ≤ i.entry ∧ i.entry < i.blockList.length := by
    unfold verify at hverify
    simp only at hverify
    split at hverify
    · cases hverify
    split at hverify
    · cases hverify
    obtain ⟨_, -, hverify⟩ := Machine.bind_ok.mp hverify
    replace hverify : (if i.siteList.length ≠ i.blockList.length then _ else _) = Except.ok () := hverify
    split at hverify
    · cases hverify
    obtain ⟨_, -, hverify⟩ := Machine.bind_ok.mp hverify
    split at hverify
    · cases hverify
    · rename_i hout
      simp only [Bool.or_eq_true, decide_eq_true_eq, not_or, Int.not_lt, Int.not_le] at hout
      exact hout
  exact ⟨i.entry.toNat, by omega, by omega⟩

namespace Machine

/-- All numbers in the machine were given out by its program, which is one of the compiler. -/
structure Supported (m : Machine) : Prop where
  sourced : ∃ S, m.program.Sourced S
  stable : ∀ ρ : Renaming, ρ.Respects m.program → m.rename ρ m.program = m

variable {m : Machine}

section

variable {m' : Machine} {c : Signals}

theorem Supported.renamed (h : m.Supported) {ρ : Renaming} (hρ : ρ.Respects m.program) : m.program.Renamed ρ m.program := by
  obtain ⟨S, hS⟩ := h.sourced
  exact hρ.renamed hS

/-- The machine under other numbers and with a program that has more. -/
theorem Supported.rename_eq (h : m.Supported) (hρ : ρ.Respects m.program) (q : Program) :
    m.rename ρ q = { m with program := q } := by
  have e : m.rename ρ q = { m.rename ρ m.program with program := q } := rfl
  rw [e, h.stable ρ hρ]

/-! ## (1) Frames -/

/-- Every frame runs a block that there is. -/
theorem Supported.block (h : m.Supported) {f : Frame} (hf : f ∈ m.frames) :
    ∃ k : Nat, f.block = k ∧ k < m.program.slots.length := by
  have hstable := h.stable _ (Renaming.beyond_respects m.program)
  have hframes : m.frames.map (Frame.rename (.beyond m.program.slots.length)) = m.frames.map id := by
    rw [List.map_id]
    exact congrArg Machine.frames hstable
  have hb : (f.rename (.beyond m.program.slots.length)).block = f.block :=
    congrArg Frame.block (List.map_inj_left.mp hframes f hf)
  change (if 0 ≤ f.block ∧ f.block < m.program.slots.length then f.block
    else if f.block < 0 then f.block - 1 else f.block + 1) = f.block at hb
  split at hb
  · exact ⟨f.block.toNat, by omega, by omega⟩
  · split at hb <;> omega

/-! ## Steps -/

section

variable (h : m.Supported)

include h

theorem Supported.tick (s : Signal) : (m.tick s).machine.Supported := by
  have hp := tick_program s m
  refine ⟨hp ▸ h.sourced, fun ρ hρ => ?_⟩
  rw [hp] at hρ ⊢
  have ht := tick_rename (h.renamed hρ) s
  rw [h.stable ρ hρ] at ht
  cases hm : m.tick s with
  | go n | pause n =>
    rw [hm] at ht
    injection ht with e
    exact e.symm
  | stop n e =>
    rw [hm] at ht
    injection ht with e
    exact e.symm

theorem Supported.step (c : Signals) : (m.step c).2.Supported := by
  have hp : (m.step c).2.program = m.program := move_program (.step c)
  refine ⟨hp ▸ h.sourced, fun ρ hρ => ?_⟩
  rw [hp] at hρ ⊢
  have hs := step_rename (h.renamed hρ) c
  rw [h.stable ρ hρ] at hs
  exact (congrArg Prod.snd hs).symm

theorem Supported.resume {v : Option Value} (hv : Value.isPlainPlace v = true) : (m.resume v).2.Supported := by
  have hp : (m.resume v).2.program = m.program := move_program (.resume v)
  refine ⟨hp ▸ h.sourced, fun ρ hρ => ?_⟩
  rw [hp] at hρ ⊢
  have hr := resume_rename (m := m) (ρ := ρ) (q := m.program) hv
  rw [h.stable ρ hρ] at hr
  exact (congrArg Prod.snd hr).symm

theorem Supported.drain : m.drain.2.Supported :=
  ⟨h.sourced, fun ρ hρ => congrArg (fun n : Machine => n.drain.2) (h.stable ρ hρ)⟩

theorem Supported.abort : m.abort.Supported :=
  ⟨h.sourced, fun ρ hρ => congrArg Machine.abort (h.stable ρ hρ)⟩

theorem Supported.reset : m.reset.Supported :=
  ⟨h.sourced, fun ρ hρ => congrArg Machine.reset (h.stable ρ hρ)⟩

end

/-! ## (2) Names that are given out later -/

def Tick.withProgram (q : Program) : Tick → Tick
  | .go m => .go { m with program := q }
  | .pause m => .pause { m with program := q }
  | .stop m h => .stop { m with program := q } h

/-- With more names, the machine does the same. -/
theorem Supported.tick_named (h : m.Supported) {t : Idents} (ht : m.program.idents.names <+: t.names) (s : Signal) :
    ({ m with program := m.program.withIdents t } : Machine).tick s = (m.tick s).withProgram (m.program.withIdents t) := by
  obtain ⟨S, hS⟩ := h.sourced
  -- numbers that are not given out go beyond the new names
  let ρ := Renaming.above m.program.idents.size t.size
  have hρ : ρ.Respects m.program := Renaming.above_respects m.program t.size
  have hself := hρ.renamed hS
  have hnames (id : Int) : t.name (ρ.ident id) = m.program.name id := by
    by_cases hid : id < m.program.idents.size
    · rw [show ρ.ident id = id from if_pos hid]
      exact Idents.name_mono ht hid
    · have hnone : m.program.name id = [] := Idents.name_of_ne fun k hk e => by omega
      have hfresh : t.name (id + t.size) = [] := Idents.name_of_ne fun k hk e => by omega
      rw [show ρ.ident id = id + t.size from if_neg hid, hfresh, hnone]
  have hrenamed : m.program.Renamed ρ (m.program.withIdents t) :=
    ⟨⟨hself.faithful, hself.units, hself.noIdent, hnames⟩, hself.const, hself.block, hself.site, hself.longest⟩
  have hstart := h.rename_eq hρ (m.program.withIdents t)
  have hends := h.tick s
  have hp := tick_program s m
  have hrename := tick_rename hrenamed s
  rw [hstart] at hrename
  rw [hrename]
  have same {n : Machine} (hn : n.Supported) (hpn : n.program = m.program) :
      n.rename ρ (m.program.withIdents t) = { n with program := (m.program.withIdents t) } :=
    hn.rename_eq (hpn ▸ hρ) _
  cases hm : m.tick s with
  | go n =>
    rw [hm] at hends hp
    exact congrArg Tick.go (same hends hp)
  | pause n =>
    rw [hm] at hends hp
    exact congrArg Tick.pause (same hends hp)
  | stop n e =>
    have hstop := tick_rename hself s
    rw [h.stable ρ hρ, hm] at hstop
    rw [hm] at hends hp
    injection hstop with _ he
    have hn : n.rename ρ (m.program.withIdents t) = _ := same hends hp
    change Tick.stop (n.rename ρ (m.program.withIdents t)) (e.rename ρ) = .stop _ e
    rw [hn, ← he]

end

/-! ## Loading -/

section

variable {m' : Machine} {q : Program}

theorem enter_rename (hρ : ρ.unit = id) (name : Text) (b : Int) :
    (m.enter name b).rename ρ q = (m.rename ρ q).enter name (ρ.block b) := by
  simp [enter, Machine.rename, Frame.rename, hρ]

theorem drop_rename (r : Registry) (id : Int) : (r.drop id).rename ρ = (r.rename ρ).drop id := by
  unfold Registry.drop Registry.rename
  simp only [List.filter_map]
  congr 3
  funext o
  exact congrArg (· != id) (Value.renameObject_id o).symm

theorem drops_rename (r : Registry) (ids : List Int) :
    (ids.foldl Registry.drop r).rename ρ = ids.foldl Registry.drop (r.rename ρ) := by
  induction ids generalizing r with
  | nil => rfl
  | cons id ids ih => rw [List.foldl_cons, List.foldl_cons, ih, drop_rename]

theorem forgotten_rename (hρ : ρ.unit = id) (name : Text) (us : List CodeUnit) :
    (forgotten name us).map (CodeUnit.rename ρ) = forgotten name (us.map (CodeUnit.rename ρ)) := by
  unfold forgotten amended
  rw [List.map_map, List.map_map]
  refine List.map_congr_left fun u _ => ?_
  have hname : (u.rename ρ).name = u.name := congrFun hρ u.name
  simp only [Function.comp_apply, hname]
  split
  · exact congrArg (CodeUnit.mk · _ _) hname
  · rfl

theorem Supported.becomes {name : Text} {ns : List Node} (h : m.Supported) (hb : Becomes m name ns m') : m'.Supported := by
  obtain ⟨hg, hS⟩ := hb.grown h.sourced
  refine ⟨hS, fun ρ hρ => ?_⟩
  have hm := fun q => h.rename_eq (hρ.mono hg) q
  cases hb with
  | refused => exact h.stable ρ hρ
  | @failedAgain u e p => exact hm p
  | @failedNew e p => exact hm p
  | @again u p _ _ _ hp =>
    obtain ⟨k, hk, hlt⟩ := recompile_block hp
    have hblock : ρ.block u.block = u.block := by rw [hk, (hρ.mono hg).block k hlt]
    have hstay := h.stable ρ (hρ.mono hg)
    have hunits : m.units.map (CodeUnit.rename ρ) = m.units := congrArg Machine.units hstay
    have hregistry : m.registry.rename ρ = m.registry := congrArg Machine.registry hstay
    have hqueue : m.queue.map (Action.rename ρ) = m.queue := congrArg Machine.queue hstay
    have hdestroyed : (u.objects.map Action.destruct).map (Action.rename ρ) = u.objects.map Action.destruct := by
      rw [List.map_map]
      rfl
    rw [enter_rename hρ.unit, hblock]
    have hinner : Machine.rename ρ p { m with
          program := p, units := forgotten name m.units, registry := u.objects.foldl Registry.drop m.registry
          queue := m.queue ++ u.objects.map Action.destruct } =
        { m.rename ρ p with
          units := (forgotten name m.units).map (CodeUnit.rename ρ)
          registry := (u.objects.foldl Registry.drop m.registry).rename ρ
          queue := (m.queue ++ u.objects.map Action.destruct).map (Action.rename ρ) } := rfl
    change (Machine.rename ρ p _).enter name u.block = _
    rw [hinner, hm p, forgotten_rename hρ.unit, hunits, drops_rename, hregistry, List.map_append, hqueue, hdestroyed]
  | @new id p _ _ _ hp =>
    have hblock : ρ.block (id : Nat) = id := hρ.block id (Lower.compile_entry hp).2
    have hunits : m.units.map (CodeUnit.rename ρ) = m.units := congrArg Machine.units (h.stable ρ (hρ.mono hg))
    let added : CodeUnit := ⟨name, (id : Nat), []⟩
    have hadded : added.rename ρ = added := by
      simp only [added, CodeUnit.rename, hρ.unit, hblock, id_eq]
    rw [enter_rename hρ.unit, hblock]
    have hinner : Machine.rename ρ p { m with program := p, units := m.units ++ [added] } =
        { m.rename ρ p with units := (m.units ++ [added]).map (CodeUnit.rename ρ) } := rfl
    change (Machine.rename ρ p { m with program := p, units := m.units ++ [added] }).enter name id = _
    rw [hinner, hm p, List.map_append, hunits, List.map_singleton, hadded]

end

/-! ## Requests -/

def Request.isPlain : Request → Bool
  | .resume v => Value.isPlainPlace v
  | _ => true

theorem Supported.apply {m : Machine} (h : m.Supported) {r : Request} (hr : r.isPlain = true) : (r.apply m).Supported := by
  cases r with
  | load name src =>
    change (m.load name src).2.Supported
    rcases load_becomes m name src with e | ⟨ns, hb⟩
    · rw [e]
      exact h
    · exact h.becomes hb
  | loadNodes name ns => exact h.becomes (loadNodes_becomes m name ns)
  | step c => exact h.step c
  | drain => exact h.drain
  | resume v => exact h.resume hr
  | abort => exact h.abort
  | reset => exact h.reset

theorem supported_ofProgram (hS : p.Sourced S) (o : Options) : (ofProgram p o).Supported := by
  refine ⟨⟨S, sourced_ofProgram hS o⟩, fun ρ hρ => ?_⟩
  let t := p.idents.internAll (importName :: o.hostNames)
  have hp := ofProgram_eq (p := p) (o := o) (Idents.agrees_number t)
  rw [hp] at hρ ⊢
  have hnumber : (fun name => ρ.ident (t.number name)) = t.number := by
    funext name
    unfold Idents.number
    split
    · rename_i id hid
      exact hρ.ident id (List.getElem?_eq_some_iff.mp (Idents.lookup?_eq_some.mp hid)).1
    · exact hρ.noIdent
  have hscopes : (Scopes.initial t.number o.hostNames).rename ρ = .initial t.number o.hostNames := by
    rw [Scopes.rename_initial hρ.faithful, hnumber]
  simp only [Machine.rename, hscopes]
  rfl

theorem Compiled.supported (h : Compiled m) : m.Supported := by
  cases h with
  | new o => exact supported_ofProgram (Compiler.after_sourced []) o
  | @ofImage es i p o m hp hi hs hc hm =>
    obtain ⟨q, hq, rfl⟩ := ofImage_ok hm
    obtain rfl := Except.ok.inj (hp.symm.trans hq)
    have hsupported := supported_ofProgram (sourced_of_written hi hs hc) o
    refine ⟨hsupported.sourced, fun ρ hρ => ?_⟩
    have hentry : ρ.block i.entry = i.entry := by
      obtain ⟨k, hk, hlt⟩ := Image.entry_of_toProgram hp
      have hslots : (ofProgram p o).program.slots = p.slots := by rw [ofProgram_eq]
      rw [hk]
      exact hρ.block k (hslots ▸ hlt)
    have hunit : CodeUnit.rename ρ ⟨imageUnit, i.entry, []⟩ = ⟨imageUnit, i.entry, []⟩ := by
      simp only [CodeUnit.rename, hρ.unit, hentry, id_eq]
    rw [enter_rename hρ.unit, hentry]
    have hinner : Machine.rename ρ (ofProgram p o).program { ofProgram p o with units := [⟨imageUnit, i.entry, []⟩] } =
        { (ofProgram p o).rename ρ (ofProgram p o).program with units := [CodeUnit.rename ρ ⟨imageUnit, i.entry, []⟩] } := rfl
    change (Machine.rename ρ (ofProgram p o).program _).enter imageUnit i.entry = _
    rw [hinner, hsupported.stable ρ hρ, hunit]

/-- However a machine is used, all numbers in it were given out by its program. -/
theorem supported_after (hm : Compiled m) {rs : List Request} (hrs : ∀ r ∈ rs, r.isPlain = true) :
    (History.after m rs).machine.Supported := by
  induction rs using List.reverseRecOn with
  | nil => exact hm.supported
  | append_singleton rs r ih =>
    rw [History.after_snoc]
    have hr := hrs r (by simp)
    exact (ih fun q hq => hrs q (List.mem_append_left _ hq)).apply hr

end Machine

end Scriptlet

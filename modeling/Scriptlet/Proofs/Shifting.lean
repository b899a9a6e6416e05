/-
  Scriptlet.Proofs.Shifting — compiling the same behind other blocks.

  The code of a tree does not depend on the blocks that there are already: only the numbers of the blocks
  that it reserves do, and these stand in prototypes alone. So compiling into a program with other blocks in
  front (`Program.moved`) gives the same code, and the same blocks and constants but for the numbers of
  these blocks (`nodes_moves`).

  Two programs that are compiled one after the other into blocks of their own can then be compared with
  their concatenation in a single block (`Program.Spliced`, `compile_append`).
-/

import Mathlib.Tactic.SplitIfs
import Scriptlet.Proofs.Support

namespace Scriptlet

def Renaming.Shifts (ρ : Renaming) (n k : Nat) : Prop := ∀ j : Nat, ρ.block (n + j : Nat) = (k + j : Nat)

/-- The program with other blocks in place of the first `n` ones, and the numbers in its constants to match. -/
def Program.moved (ρ : Renaming) (n : Nat) (front : List Slot) (p : Program) : Program :=
  { p with consts := p.consts.map (Value.rename ρ), slots := front ++ p.slots.drop n }

namespace Lower

section

variable {α β : Type} {ρ : Renaming} {n : Nat} {front : List Slot}

/-- The second computation does behind the other blocks what the first one does behind `n` blocks. -/
def Moves (ρ : Renaming) (n : Nat) (front : List Slot) (x y : Lower α) : Prop :=
  ∀ p, n ≤ p.slots.length → n ≤ (result x p).2.slots.length ∧
    result y (p.moved ρ n front) = ((result x p).1, (result x p).2.moved ρ n front)

theorem moves_pure (a : α) : Moves ρ n front (pure a) (pure a) := fun _ hp => ⟨hp, rfl⟩

theorem moves_throw (e : LowerError) : Moves ρ n front (throw e : Lower α) (throw e) := fun _ hp => ⟨hp, rfl⟩

theorem moves_bind {x y : Lower α} {k l : α → Lower β} (hx : Moves ρ n front x y) (hk : ∀ a, Moves ρ n front (k a) (l a)) :
    Moves ρ n front (x >>= k) (y >>= l) := by
  intro p hp
  obtain ⟨hlen, hy⟩ := hx p hp
  rw [result_bind, result_bind, hy]
  rcases hr : result x p with ⟨_ | a, r⟩
  · rw [hr] at hlen
    exact ⟨hlen, rfl⟩
  · rw [hr] at hlen
    exact hk a r hlen

theorem moves_intern (name : Text) : Moves ρ n front (intern name) (intern name) := fun _ hp => ⟨hp, rfl⟩

theorem moves_constant {v w : Value} (hw : v.rename ρ = w) : Moves ρ n front (constant v) (constant w) := by
  intro p hp
  have hindex : (p.moved ρ n front).consts.length = p.consts.length := List.length_map _
  have hadded : ((p.moved ρ n front).addConst w).2 = (p.addConst v).2.moved ρ n front := by
    simp [Program.addConst, Program.moved, hw]
  refine ⟨hp, ?_⟩
  change (Except.ok (Fragment.op .loadConst (p.moved ρ n front).consts.length), ((p.moved ρ n front).addConst w).2) = _
  rw [hindex, hadded]
  rfl

theorem moves_operator (op : Operator) : Moves ρ n front (operator op) (operator op) := by
  cases op with
  | other b => exact moves_throw _
  | _ => exact moves_pure _

/-- Blocks that are reserved have the same distance from the blocks in front. -/
theorem moves_reserve {k l : Nat → Lower β} (hk : ∀ j, Moves ρ n front (k (n + j)) (l (front.length + j))) :
    Moves ρ n front ((modifyGet (·.reserve) : Lower Nat) >>= k) ((modifyGet (·.reserve) : Lower Nat) >>= l) := by
  intro p hp
  obtain ⟨j, hj⟩ := Nat.exists_eq_add_of_le hp
  have hlen : (p.moved ρ n front).slots.length = front.length + j := by
    simp [Program.moved, hj]
  have hreserved : (p.moved ρ n front).reserve.2 = p.reserve.2.moved ρ n front := by
    simp [Program.reserve, Program.moved, List.drop_append_of_le_length hp]
  have hmore : n ≤ p.reserve.2.slots.length := by
    rw [show p.reserve.2.slots = p.slots ++ [{}] from rfl, List.length_append]
    omega
  have hmoves := hk j p.reserve.2 hmore
  change _ ≤ (result (k p.slots.length) p.reserve.2).2.slots.length ∧
    result (l (p.moved ρ n front).slots.length) (p.moved ρ n front).reserve.2 = _
  rw [hlen, hreserved]
  rw [← hj] at hmoves
  exact hmoves

theorem moves_fill (j : Nat) (s : Slot) :
    Moves ρ n front (modify (·.fill (n + j) s)) (modify (·.fill (front.length + j) s)) := by
  intro p hp
  have hfilled : (p.moved ρ n front).fill (front.length + j) s = (p.fill (n + j) s).moved ρ n front := by
    simp only [Program.fill, Program.moved]
    rw [List.set_append_right _ _ (Nat.le_add_right _ _), List.drop_set]
    simp
  refine ⟨?_, ?_⟩
  · change n ≤ (p.slots.set (n + j) s).length
    rwa [List.length_set]
  · change (Except.ok (), (p.moved ρ n front).fill (front.length + j) s) = _
    rw [hfilled]
    rfl

theorem moves_proto (hρ : ρ.Shifts n front.length) (j : Nat) (k : Int) :
    Moves ρ n front (constant (.proto ⟨(n + j : Nat), k⟩)) (constant (.proto ⟨(front.length + j : Nat), k⟩)) :=
  moves_constant (congrArg (fun b => Value.proto ⟨b, k⟩) (hρ j))

theorem moves_hereditary (hρ : ρ.Shifts n front.length) : Hereditary (fun {_} x => Moves ρ n front x x) fun _ => True where
  part _ _ := trivial
  pure := moves_pure
  bind := moves_bind
  intern := moves_intern
  literal v hv := by
    refine moves_constant ?_
    cases v with
    | none | int | float | str | bool => rfl
    | _ => cases hv
  operator _ := moves_operator _
  function _ _ hloads hbody :=
    moves_bind hloads fun _ => moves_reserve fun j => moves_bind (moves_proto hρ j _) fun _ =>
      moves_bind hbody fun b => moves_bind (moves_fill j b.toSlot) fun _ => moves_pure _
  hole _ := moves_throw .hole

theorem nodes_moves (hρ : ρ.Shifts n front.length) (d : Nat) (ts : List Node) : Moves ρ n front (nodes d ts) (nodes d ts) :=
  (moves_hereditary hρ).nodes (fun _ _ => trivial) d

end

/-! ## Programs one after the other -/

section

variable {p q r : Program} {ns ks : List Node} {d id : Nat}

theorem nodes_append {a b : Fragment} (ha : Gives (nodes d ns) p a q) (hb : Gives (nodes d ks) q b r) :
    Gives (nodes d (ns ++ ks)) p (a ++ b) r := by
  induction ns generalizing p a with
  | nil =>
    obtain ⟨rfl, rfl⟩ := gives_pure.mp ha
    have hempty : Fragment.empty ++ b = b := by
      change Fragment.mk ([] ++ b.code) ([] ++ b.sites.map (0 + ·)) = b
      simp
    rw [hempty]
    exact hb
  | cons n ns ih =>
    obtain ⟨c, p', hc, ha⟩ := gives_bind.mp ha
    obtain ⟨a', q', ha', ha⟩ := gives_bind.mp ha
    obtain ⟨rfl, rfl⟩ := gives_pure.mp ha
    refine gives_bind.mpr ⟨c, p', hc, gives_bind.mpr ⟨a' ++ b, r, ih ha', ?_⟩⟩
    exact gives_pure.mpr ⟨(Fragment.append_assoc c a' b).symm, rfl⟩

theorem compile_ok :
    p.compile ns = (.ok id, q) ↔ id = p.slots.length ∧
      ∃ f r, Gives (nodes 0 ns) p.reserve.2 f r ∧ q = r.fill p.slots.length f.toSlot := by
  have hinto : Gives (into p.slots.length ns) p.reserve.2 () q ↔
      ∃ f r, Gives (nodes 0 ns) p.reserve.2 f r ∧ q = r.fill p.slots.length f.toSlot := by
    unfold into
    rw [gives_bind]
    refine exists_congr fun f => exists_congr fun r => and_congr_right fun _ => ⟨fun h => (gives_fill h).symm, ?_⟩
    rintro rfl
    rfl
  rw [compile_eq, ← hinto]
  unfold Gives
  rcases result (into p.slots.length ns) p.reserve.2 with ⟨_ | _, r⟩
  · simp
  · simp [eq_comm]

/-- Compiling adds blocks behind the one that it fills. -/
theorem Gives.slots {f : Fragment} (h : Gives (nodes 0 ns) p.reserve.2 f r) :
    ∃ more, r.slots = p.slots ++ {} :: more ∧
      (r.fill p.slots.length f.toSlot).slots = p.slots ++ f.toSlot :: more := by
  obtain ⟨more, hmore⟩ := (h.le (nodes_grows 0 ns)).slots
  have hslots : r.slots = p.slots ++ {} :: more := by
    rw [← hmore, show p.reserve.2.slots = p.slots ++ [{}] from rfl, List.append_assoc]
    rfl
  refine ⟨more, hslots, ?_⟩
  change r.slots.set p.slots.length f.toSlot = _
  rw [hslots, List.set_append_right _ _ (Nat.le_refl _), Nat.sub_self]
  rfl

end

end Lower

/-- What becomes of the blocks if the code of blocks `n` and `k` goes into block `n` alone: those behind `k` move
    up, and the two are nothing's number any more. -/
def Renaming.splice (n k : Nat) : Renaming where
  block b :=
    if b = n then -1 else if b = k then -2 else if b = -1 then n
    else if b < 0 then b - 1 else if b < k then b else b - 1

namespace Renaming

variable {n k : Nat}

theorem splice_shifts (h : n < k) : (splice n k).Shifts (k + 1) k := by
  intro j
  simp only [splice]
  repeat' split
  all_goals omega

theorem splice_kept {b : Nat} (hb : b < k) (hn : b ≠ n) : (splice n k).block b = b := by
  simp only [splice]
  repeat' split
  all_goals omega

theorem splice_injective (h : n < k) : Function.Injective (splice n k).block := by
  intro a b hab
  simp only [splice] at hab
  split_ifs at hab <;> omega

theorem splice_surjective (h : n < k) : Function.Surjective (splice n k).block := by
  intro b
  have hcases : b = -1 ∨ b = -2 ∨ b = n ∨ (0 ≤ b ∧ b < k ∧ b ≠ n) ∨ (b ≤ -3 ∨ k ≤ b) := by omega
  rcases hcases with rfl | rfl | rfl | hb | hb
  · exact ⟨n, if_pos rfl⟩
  · refine ⟨k, ?_⟩
    simp only [splice]
    rw [if_neg (by omega), if_pos trivial]
  · exact ⟨-1, by simp [splice]⟩
  · refine ⟨b, ?_⟩
    simp only [splice]
    rw [if_neg hb.2.2, if_neg (by omega), if_neg (by omega), if_neg (by omega), if_pos hb.2.1]
  · refine ⟨b + 1, ?_⟩
    simp only [splice]
    rw [if_neg (by omega), if_neg (by omega), if_neg (by omega)]
    split
    · omega
    · rw [if_neg (by omega)]
      omega

/-- Blocks that were there before the two are what they were. -/
theorem splice_respects {p : Program} (h : p.slots.length < k) : (splice p.slots.length k).Respects p := by
  refine ⟨Function.injective_id, rfl, rfl, fun _ _ => rfl, fun b hb => splice_kept (by omega) (by omega), fun b hb i hi => ?_⟩
  have hout : ¬ (0 ≤ b ∧ b < p.slots.length) := by
    intro hin
    refine hb b.toNat ?_ ?_ <;> omega
  simp only [splice]
  split_ifs <;> omega

end Renaming

/-- How the tables of two programs that were compiled one after the other, with codes `a` and `b` and with the
    blocks `A` and `B` of their functions, are in `q`, where both are a single program. -/
structure Program.Spliced (p₀ p₁ p₂ q : Program) (a b : Fragment) (A B : List Slot) : Prop where
  first : p₁.slots = p₀.slots ++ a.toSlot :: A
  second : p₂.slots = p₁.slots ++ b.toSlot :: B
  whole : q.slots = p₀.slots ++ (a ++ b).toSlot :: (A ++ B)
  idents : q.idents = p₂.idents
  consts : q.consts = p₂.consts.map (Value.rename (.splice p₀.slots.length p₁.slots.length))
  kept : p₁.consts.map (Value.rename (.splice p₀.slots.length p₁.slots.length)) = p₁.consts
  grown : p₁.Le p₂

namespace Lower

section

variable {p q : Program} {ns : List Node} {f : Fragment}

/-- No function has the block of the program that is compiled. -/
theorem Gives.spares (hp : ∃ S, p.Sourced S) (h : Gives (nodes 0 ns) p.reserve.2 f q) {v : Value} (hv : v ∈ q.consts) {k : Int} :
    v ≠ .proto ⟨p.slots.length, k⟩ := by
  -- under a renaming of this block alone, all constants stay as they are
  let ρ : Renaming := { block := fun b => if b = p.slots.length then -1 else b }
  let front := p.reserve.2.slots
  have hfront : front.length = p.slots.length + 1 := by simp [front, Program.reserve]
  have hρ : ρ.Shifts (p.slots.length + 1) front.length := by
    intro j
    rw [hfront]
    exact if_neg (by omega)
  have hconsts : p.consts.map (Value.rename ρ) = p.consts := by
    obtain ⟨S, hS⟩ := hp
    refine (List.map_congr_left fun v hv => ?_).trans (List.map_id _)
    refine (hS.consts v hv).rename_eq fun b hb _ => ?_
    exact if_neg (by omega)
  have hstart : p.reserve.2.moved ρ (p.slots.length + 1) front = p.reserve.2 := by
    have hdrop : front ++ p.reserve.2.slots.drop (p.slots.length + 1) = front := by
      rw [← hfront, List.drop_length, List.append_nil]
    change Program.mk p.idents (p.consts.map (Value.rename ρ)) (front ++ p.reserve.2.slots.drop (p.slots.length + 1)) = _
    rw [hconsts, hdrop]
    rfl
  have hmoves := (nodes_moves hρ 0 ns p.reserve.2 (Nat.le_of_eq hfront.symm)).2
  rw [hstart, h] at hmoves
  have hkept : q.consts.map (Value.rename ρ) = q.consts := (congrArg (fun r => r.2.consts) hmoves).symm
  rintro rfl
  have hsame := List.map_inj_left.mp (hkept.trans (List.map_id _).symm) _ hv
  simp [Value.rename, Proto.rename, ρ] at hsame

end

variable {p₀ p₁ p₂ : Program} {ns ks : List Node} {i j : Nat}

/-- Programs that can be compiled one after the other can be compiled as one. -/
theorem compile_append (hp : ∃ S, p₀.Sourced S) (h₁ : p₀.compile ns = (.ok i, p₁)) (h₂ : p₁.compile ks = (.ok j, p₂)) :
    ∃ a b A B q, p₀.compile (ns ++ ks) = (.ok p₀.slots.length, q) ∧ p₀.Spliced p₁ p₂ q a b A B ∧
      a.Sited ∧ b.Sited ∧ (∃ keep r, LoweredAll keep r 0 ns a.marked) ∧ ∃ keep r, LoweredAll keep r 0 ks b.marked := by
  obtain ⟨rfl, a, r₁, ha, hp₁⟩ := compile_ok.mp h₁
  obtain ⟨rfl, b, r₂, hb, hp₂⟩ := compile_ok.mp h₂
  obtain ⟨A, hr₁, hA⟩ := ha.slots
  obtain ⟨B, hr₂, hB⟩ := hb.slots
  rw [← hp₁] at hA
  rw [← hp₂] at hB
  have hlen : r₁.slots.length = p₁.slots.length := by
    rw [hr₁, hA]
    simp
  have hlt : p₀.slots.length < p₁.slots.length := by
    rw [hA]
    simp
  let ρ := Renaming.splice p₀.slots.length p₁.slots.length
  have hkept : p₁.consts.map (Value.rename ρ) = p₁.consts := by
    obtain ⟨S, hS⟩ := hp
    have hsourced := (Compiler.next_follows (c := ⟨p₀, S⟩) hS (.compile ns)).sourced
    have hprogram : (Compiler.next ⟨p₀, S⟩ (.compile ns)).program = p₁ := congrArg Prod.snd h₁
    rw [hprogram] at hsourced
    refine (List.map_congr_left fun v hv => ?_).trans (List.map_id _)
    refine (hsourced.consts v hv).rename_eq fun k hk hproto => Renaming.splice_kept hk ?_
    rintro rfl
    obtain ⟨c, rfl⟩ := hproto
    have hv : Value.proto ⟨p₀.slots.length, c⟩ ∈ r₁.consts := by
      rw [hp₁] at hv
      exact hv
    exact ha.spares ⟨S, hS⟩ hv rfl
  -- behind the code of the first program, the second one is compiled as in a block of its own
  have hstart : p₁.reserve.2.moved ρ (p₁.slots.length + 1) r₁.slots = r₁ := by
    have hdrop : p₁.reserve.2.slots.drop (p₁.slots.length + 1) = [] := by simp [Program.reserve]
    change Program.mk p₁.idents (p₁.consts.map (Value.rename ρ)) (r₁.slots ++ p₁.reserve.2.slots.drop _) = _
    rw [hkept, hdrop, List.append_nil, hp₁]
    rfl
  have hρ : ρ.Shifts (p₁.slots.length + 1) r₁.slots.length := by
    rw [hlen]
    exact Renaming.splice_shifts hlt
  have hmoves := (nodes_moves hρ 0 ks p₁.reserve.2 (by simp [Program.reserve])).2
  rw [hstart, hb] at hmoves
  have hall := nodes_append ha hmoves
  have hstands := nodes_lowered ns ha
  have hstands' := nodes_lowered ks hb
  refine ⟨a, b, A, B, _, compile_ok.mpr ⟨rfl, a ++ b, _, hall, rfl⟩, ⟨hA, hB, ?_, ?_, ?_, hkept, ?_⟩,
    hstands.marks.sited, hstands'.marks.sited,
    ⟨fun _ => True, r₁, hstands.code (fun _ _ => trivial) ((Program.Le.refl _).retains _)⟩,
    fun _ => True, r₂, hstands'.code (fun _ _ => trivial) ((Program.Le.refl _).retains _)⟩
  · change (r₁.slots ++ r₂.slots.drop (p₁.slots.length + 1)).set p₀.slots.length (a ++ b).toSlot = _
    have hdrop : r₂.slots.drop (p₁.slots.length + 1) = B := by
      rw [hr₂]
      simp
    rw [hdrop, hr₁, List.append_assoc, List.set_append_right _ _ (Nat.le_refl _), Nat.sub_self]
    rfl
  · rw [hp₂]
    rfl
  · rw [hp₂]
    rfl
  · have hle := hb.le (nodes_grows 0 ks)
    refine ⟨?_, ?_, hB ▸ List.prefix_append _ _⟩
    · rw [hp₂]
      exact hle.names
    · rw [hp₂]
      exact hle.consts

end Lower

end Scriptlet

/-
  Scriptlet.Proofs.Sites — the constructor sites of any machine ascend.

  Whether an instruction completes a struct instance is looked up by halving the list of sites, which is
  right only if they ascend. That is so for the blocks of an image that verifies, and for those that are
  compiled later, whether compiling succeeds or not, so it is so after all requests to a machine
  (`History.ascending`).
-/

import Scriptlet.Proofs.Requests
import Scriptlet.Proofs.Tables

namespace Scriptlet

def Program.Ascending (p : Program) : Prop := ∀ s ∈ p.slots, (s.sites.getD []).Pairwise (· < ·)

/-! ## Compiled code -/

theorem ascending_invariant : Lower.Invariant Program.Ascending where
  intern _ h := h
  literal _ h := h
  proto _ h := h
  reserve {p} h := by
    intro s hs
    rcases List.mem_append.mp hs with hs | hs
    · exact h s hs
    · rw [List.mem_singleton.mp hs]
      exact .nil
  fill {p} id f hf h := by
    intro s hs
    rcases List.mem_or_eq_of_mem_set hs with hs | rfl
    · exact h s hs
    · rw [Fragment.sites_toSlot]
      exact hf.ascending

/-! ## Images -/

variable {i : Image}

namespace Image

theorem ascends_of_verifySites {n : Nat} {b : Block} {before : Option Int} {pcs : List Int}
    (h : verifySites n b before pcs = .ok ()) :
    pcs.Pairwise (· < ·) ∧ ∀ pc ∈ pcs, 0 ≤ pc ∧ ∀ q ∈ before, q < pc := by
  induction pcs generalizing before with
  | nil => exact ⟨.nil, fun pc hpc => by cases hpc⟩
  | cons pc pcs ih =>
    rw [verifySites] at h
    split at h
    · rename_i hfits
      rw [siteFits, Bool.and_eq_true, beq_iff_eq] at hfits
      obtain ⟨hasc, hpcs⟩ := ih h
      have hpos : 0 ≤ pc := by
        cases pc with
        | ofNat k => exact Int.natCast_nonneg k
        | negSucc k => cases hfits.1
      have hbefore : ∀ q ∈ before, q < pc := by
        rintro q rfl
        simpa using hfits.2
      have hall : ∀ r ∈ pcs, pc < r := fun r hr => (hpcs r hr).2 pc rfl
      refine ⟨.cons hall hasc, List.forall_mem_cons.mpr ⟨⟨hpos, hbefore⟩, fun r hr => ⟨(hpcs r hr).1, fun q hq => ?_⟩⟩⟩
      exact (hbefore q hq).trans (hall r hr)
    · cases h

theorem ascends_toNat {pcs : List Int} (ha : pcs.Pairwise (· < ·)) (hp : ∀ pc ∈ pcs, 0 ≤ pc) :
    (pcs.map Int.toNat).Pairwise (· < ·) := by
  rw [List.pairwise_map]
  refine ha.imp_of_mem fun {p q} hp' _ hlt => ?_
  have := hp p hp'
  omega

theorem ascending_of_verifyAllSites {n : Nat} {bs : List (Option Block)} {ss : List (Option (List Int))}
    (h : verifyAllSites n bs ss = .ok ()) :
    ∀ s ∈ List.zipWith (fun b s => (⟨b, s.map fun l => l.map Int.toNat⟩ : Slot)) bs ss,
      (s.sites.getD []).Pairwise (· < ·) := by
  induction bs generalizing n ss with
  | nil => exact fun s hs => by cases hs
  | cons b bs ih =>
    cases ss with
    | nil => exact fun s hs => by cases hs
    | cons pcs ss =>
      rw [verifyAllSites] at h
      cases hv : verifySites n (b.getD []) none (pcs.getD []) with
      | error e =>
        rw [hv] at h
        cases h
      | ok u =>
        rw [hv] at h
        obtain ⟨hasc, hpos⟩ := ascends_of_verifySites hv
        rw [List.zipWith_cons_cons]
        refine List.forall_mem_cons.mpr ⟨?_, ih h⟩
        have := ascends_toNat hasc fun pc hpc => (hpos pc hpc).1
        cases pcs <;> exact this

theorem framed_of_verify (h : i.verify = .ok ()) : i.Framed := by
  unfold verify at h
  simp only at h
  split at h
  · cases h
  rename_i hversion
  split at h
  · cases h
  rename_i hprints
  obtain ⟨_, -, h⟩ := Machine.bind_ok.mp h
  replace h : (if i.siteList.length ≠ i.blockList.length then _ else _) = Except.ok () := h
  split at h
  · cases h
  rename_i hcount
  obtain ⟨_, hsites, h⟩ := Machine.bind_ok.mp h
  replace h : (if _ then _ else _) = Except.ok () := h
  split at h
  · cases h
  rename_i hentry
  simp only [Bool.or_eq_true, decide_eq_true_eq, not_or, Int.not_lt, Int.not_le] at hentry
  exact ⟨not_not.mp hversion, not_not.mp hprints, not_not.mp hcount, hsites, hentry⟩

/-- What the program of an image consists of. -/
theorem toProgram_ok {p : Program} (h : i.toProgram = .ok p) :
    i.verify = .ok () ∧ (i.consts.getD []).mapM Const.toValue = .ok p.consts ∧
      p.idents = Idents.empty.internAll (i.idents.getD []) ∧
      p.slots = List.zipWith (fun b s => ⟨b, s.map fun l => l.map Int.toNat⟩) i.blockList i.siteList := by
  obtain ⟨_, hv, h⟩ := Machine.bind_ok.mp h
  obtain ⟨consts, hc, h⟩ := Machine.bind_ok.mp h
  cases h
  exact ⟨hv, hc, rfl, rfl⟩

theorem ascending_toProgram {p : Program} (h : i.toProgram = .ok p) : p.Ascending := by
  obtain ⟨hv, -, -, hslots⟩ := toProgram_ok h
  unfold Program.Ascending
  rw [hslots]
  exact ascending_of_verifyAllSites (framed_of_verify hv).sites

end Image

/-! ## Requests -/

namespace Machine

theorem kept_ascending : Kept fun m => m.program.Ascending where
  exec h _ _ _ _ hd := hd.program ▸ h
  spend h _ _ := h
  drop h _ := h
  deliver h _ _ := h
  terminate {m} h := by
    unfold Machine.terminate
    split <;> exact h
  abort h := h
  halt _ h _ := h

theorem Request.ascending {m : Machine} (r : Request) (hm : m.program.Ascending) : (r.apply m).program.Ascending := by
  generalize hk : r.apply m = k
  cases r.changes hk with
  | read hb | loaded hb => exact hb.invariant ascending_invariant hm
  | stepped c => exact kept_ascending.step hm
  | _ => exact hm

theorem ascending_ofImage {o : Options} {m : Machine} (h : ofImage i o = .ok m) : m.program.Ascending := by
  obtain ⟨p, hp, rfl⟩ := ofImage_ok h
  have hslots : (ofProgram p o).program.slots = p.slots := by rw [ofProgram_eq]
  intro s hs
  exact Image.ascending_toProgram hp s (hslots ▸ hs)

theorem History.ascending {m : Machine} (hm : m.program.Ascending) (rs : List Request) :
    (after m rs).machine.program.Ascending := by
  have run (h : History) (hh : h.machine.program.Ascending) : (h.run rs).machine.program.Ascending := by
    induction rs generalizing h with
    | nil => exact hh
    | cons r rs ih => exact ih (h.next r) (r.ascending hh)
  exact run { machine := m } hm

end Machine

end Scriptlet

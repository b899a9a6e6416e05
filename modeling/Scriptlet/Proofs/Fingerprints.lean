/-
  Scriptlet.Proofs.Fingerprints — the fingerprint of a block stands for the block.

  (1) The text from which a fingerprint is made spells out one block only (`spelling_inj`). Blocks are compared
      instruction by instruction (`equal_iff`).
  (2) So an image in which one block was replaced verifies if and only if the block is still the same, as far as
      the digest tells the two texts apart (`replaced_block_verifies_iff`).
-/

import Scriptlet.Proofs.Delimiting
import Scriptlet.Proofs.Sites

namespace Scriptlet

/-! ## (1) Spelling -/

namespace Instr

def spelled (i : Instr) : Text := "\x7bArg:" ++ (Text.ofInt i.arg ++ (",Op:" ++ (Text.ofNat i.op.code.toNat ++ "\x7d")))

/-- Whatever follows it, an instruction is read off. -/
theorem spelled_inj {i j : Instr} {s t : Text} (h : i.spelled ++ s = j.spelled ++ t) : i = j ∧ s = t := by
  unfold spelled at h
  simp only [List.append_assoc] at h
  replace h := List.append_cancel_left h
  have harg := (Text.run_inj Text.isNumeral_of_mem_ofInt Text.isNumeral_of_mem_ofInt rfl rfl h).1
  rw [harg] at h
  replace h := List.append_cancel_left (List.append_cancel_left h)
  have hop := (Text.run_inj Text.isDigit_of_mem_ofNat Text.isDigit_of_mem_ofNat rfl rfl h).1
  rw [hop] at h
  have hcode := UInt8.toNat_inj.mp (Text.ofNat_inj hop)
  obtain ⟨o, n⟩ := i
  obtain ⟨o', n'⟩ := j
  obtain rfl : n = n' := Text.ofInt_inj harg
  obtain rfl : o = o' := by rw [← Op.ofCode_code o, hcode, Op.ofCode_code]
  exact ⟨rfl, List.append_cancel_left (List.append_cancel_left h)⟩

end Instr

namespace Block

/-- Comparing decides whether blocks are the same. -/
theorem equal_iff {a b : Block} : a.equal b = true ↔ a = b := by
  induction a generalizing b with
  | nil => cases b <;> simp [equal]
  | cons i a ih =>
    cases b with
    | nil => simp [equal]
    | cons j b =>
      rw [List.cons.injEq, ← ih]
      simp only [equal, List.length_cons, List.zip_cons_cons, List.all_cons, Bool.and_eq_true, beq_iff_eq,
        Nat.add_right_cancel_iff]
      exact and_left_comm

/-- The texts of blocks are the same only if the blocks are, instruction by instruction. -/
theorem spelling_inj {a b : Block} (h : a.spelling = b.spelling) : a = b := by
  have hjoin : Text.join [','.toUInt8] (a.map Instr.spelled) ++ ']'.toUInt8 :: ['}'.toUInt8] =
      Text.join [','.toUInt8] (b.map Instr.spelled) ++ ']'.toUInt8 :: ['}'.toUInt8] := by
    simp only [spelling, List.append_assoc] at h
    exact List.append_cancel_left h
  refine (Text.join_inj (P := fun _ => True) (by decide) ?_ ?_ (fun _ _ => trivial) (fun _ _ => trivial) hjoin).1
  · exact fun i _ s t h => absurd (List.cons.inj h).1 (by decide)
  · exact fun i j _ _ x s y t _ _ h => Instr.spelled_inj h

theorem eq_of_fingerprint {a b : Block} (hmd5 : Digest.md5 a.spelling = Digest.md5 b.spelling → a.spelling = b.spelling)
    (h : a.fingerprint = b.fingerprint) : a = b :=
  spelling_inj (hmd5 (Text.hexOfBytes_inj (List.append_cancel_left h)))

end Block

/-! ## (2) Verification -/

namespace Image

variable {bs : List (Option Block)} {s : Option (List Int)}

/-- Another block in place of one with the right fingerprint. -/
theorem verifyFingerprints_set {n k : Nat} {fs : List Text} {a b : Option Block}
    (h : verifyFingerprints n bs fs = .ok ()) (hlen : fs.length = bs.length) (hb : bs[k]? = some b) :
    verifyFingerprints n (bs.set k a) fs =
      if (a.getD []).fingerprint = (b.getD []).fingerprint then .ok () else .error (.fingerprint (n + k)) := by
  induction bs generalizing n k fs with
  | nil => cases hb
  | cons c bs ih =>
    cases fs with
    | nil => cases hlen
    | cons f fs =>
      rw [verifyFingerprints] at h
      split at h
      · rename_i hf
        cases k with
        | zero =>
          cases hb
          subst hf
          simp only [List.set_cons_zero, verifyFingerprints, h]
          rfl
        | succ k =>
          rw [List.set_cons_succ, verifyFingerprints, if_pos hf, ih h (Nat.succ.inj hlen) hb, Nat.add_right_comm]
          rfl
      · cases h

/-- A block without constructor sites may be replaced as far as these are concerned. -/
theorem verifyAllSites_set {n k : Nat} {ss : List (Option (List Int))}
    {a : Option Block} (hs : ss[k]? = some s) (hnone : s.getD [] = []) :
    verifyAllSites n (bs.set k a) ss = verifyAllSites n bs ss := by
  induction bs generalizing n k ss with
  | nil => rfl
  | cons c bs ih =>
    cases ss with
    | nil => cases hs
    | cons r ss =>
      cases k with
      | zero =>
        cases hs
        simp only [List.set_cons_zero, verifyAllSites, hnone]
        rfl
      | succ k => rw [List.set_cons_succ, verifyAllSites, verifyAllSites, ih (by simpa using hs)]

theorem verify_set {i : Image} {k : Nat} {a b : Option Block}
    (h : i.verify = .ok ()) (hbs : i.blocks = some bs) (hb : bs[k]? = some b) (hs : i.siteList[k]? = some s)
    (hnone : s.getD [] = []) : { i with blocks := some (bs.set k a) }.verify =
      if (a.getD []).fingerprint = (b.getD []).fingerprint then .ok () else .error (.fingerprint k) := by
  have hi := framed_of_verify h
  have hprints := hi.verify.symm.trans h
  obtain ⟨hversion, hlen, hcount, hsites, hentry⟩ := hi
  rw [blockList, hbs, Option.getD_some] at hprints hlen hcount hsites hentry
  have hset : (bs.set k a).length = bs.length := List.length_set
  have hj : { i with blocks := some (bs.set k a) }.Framed :=
    ⟨hversion, hlen.trans hset.symm, hcount.trans hset.symm, (verifyAllSites_set hs hnone).trans hsites, by
      rwa [blockList, Option.getD_some, hset]⟩
  have hprint := verifyFingerprints_set (a := a) hprints hlen hb
  rw [Nat.zero_add] at hprint
  exact hj.verify.trans hprint

/-- The texts from which fingerprints are made are the same if and only if the blocks are, where a block that is missing
    counts as empty. So if a block without constructor sites of an image that verifies is replaced, and the digests of the
    two texts do not collide, the image still verifies if and only if the block is the same; if it is
    not, the fingerprint of this block is refused. -/
theorem fingerprints_determine_blocks (a b : Option Block) :
    ((a.getD []).spelling = (b.getD []).spelling ↔ a.getD [] = b.getD []) ∧
    ∀ (i : Image) (bs : List (Option Block)) (k : Nat) (s : Option (List Int)), i.verify = .ok () → i.blocks = some bs →
      bs[k]? = some b → i.siteList[k]? = some s → s.getD [] = [] →
      (Digest.md5 (a.getD []).spelling = Digest.md5 (b.getD []).spelling → (a.getD []).spelling = (b.getD []).spelling) →
      ({ i with blocks := some (bs.set k a) }.verify = .ok () ↔ a.getD [] = b.getD []) ∧
      (a.getD [] ≠ b.getD [] → { i with blocks := some (bs.set k a) }.verify = .error (.fingerprint k)) := by
  refine ⟨⟨Block.spelling_inj, congrArg Block.spelling⟩, fun i bs k s hi hbs hb hs hnone hmd5 => ?_⟩
  rw [verify_set hi hbs hb hs hnone]
  by_cases hab : a.getD [] = b.getD []
  · simp [hab]
  · have hprint : (a.getD []).fingerprint ≠ (b.getD []).fingerprint := fun h => hab (Block.eq_of_fingerprint hmd5 h)
    simp [hab, hprint]

def returning (n : Int) : Block := [⟨.loadConst, n⟩, ⟨.ret, 0⟩]

/-- An image with a block for each of two constants, and one that is missing. -/
def twoConstants : Image where
  version := currentVersion
  idents := none
  consts := none
  blocks := some [some (returning 0), none, some (returning 1)]
  entry := 0
  fingerprints := some [(returning 0).fingerprint, Block.fingerprint [], (returning 1).fingerprint]
  sites := some [none, none, some []]

theorem fingerprints_determine_blocks_twoConstants :
    twoConstants.verify = .ok () ∧ Digest.md5 (returning (-1)).spelling ≠ Digest.md5 (returning 1).spelling ∧
      { twoConstants with blocks := some [some (returning 0), none, some (returning (-1))] }.verify =
        .error (.fingerprint 2) := by
  have hverify : twoConstants.verify = .ok () := by decide +kernel
  have hmd5 : Digest.md5 (returning (-1)).spelling ≠ Digest.md5 (returning 1).spelling := by decide +kernel
  obtain ⟨-, himage⟩ := fingerprints_determine_blocks (some (returning (-1))) (some (returning 1))
  have hreplaced := himage twoConstants _ 2 (some []) hverify rfl rfl rfl rfl fun h => absurd h hmd5
  exact ⟨hverify, hmd5, hreplaced.2 (by decide)⟩

end Image

end Scriptlet

/-
  Scriptlet.Proofs.Fidelity — what an image says, and what is loaded from it.

  Whatever image is accepted, and not only one that was made of a program: its constants, its
  blocks and their constructor sites are in the program under the numbers that they have in
  the image (`toValue_describes`, `slots_of_verify`).

  Its names need not be. Nothing that is verified is about names, and a name that stands twice in
  the image has the first of its numbers in the program, so all names behind it move
  (`Idents.names_internAll_empty`). The program has the names of the image under their numbers if
  and only if no name stands twice (`keepsNames_iff`).
-/

import Mathlib.Data.List.Induction
import Scriptlet.Proofs.Sites
import Scriptlet.Proofs.Storing

namespace Scriptlet

/-! ## Names -/

/-- Names get numbers in the order in which they occur first. -/
theorem Idents.names_internAll_empty (names : List Text) : (Idents.empty.internAll names).names = names.eraseDups := by
  induction names using List.reverseRecOn with
  | nil => rfl
  | append_singleton names name ih =>
    have hlast : Idents.empty.internAll (names ++ [name]) = ((Idents.empty.internAll names).intern name).2 := by
      simp [internAll]
    rw [hlast, names_intern, ih, List.eraseDups_append]
    by_cases hname : name ∈ names
    · simp [hname, List.removeAll]
    · simp [hname, List.removeAll, List.eraseDups_cons]

namespace Image

def nameList (i : Image) : List Text := i.idents.getD []

/-- The program has exactly the names of the image, each under its number there. -/
def KeepsNames (i : Image) (p : Program) : Prop :=
  p.idents.size = i.nameList.length ∧ ∀ (k : Nat) name, i.nameList[k]? = some name → p.name k = name

end Image

/-! ## Constants -/

namespace Const

inductive Describes : Const → Value → Prop
  | none {k : UInt8} {n block params : Int} {x : Binary64} {s : Text} {b : Bool} {cs : List Const} :
      ValueKind.ofNumber? k = some .none → Describes (.mk k n x s b cs block params) .none
  | int {k : UInt8} {n block params : Int} {x : Binary64} {s : Text} {b : Bool} {cs : List Const} {v : Int64} :
      ValueKind.ofNumber? k = some .int → (-2 ^ 63 ≤ n → n < 2 ^ 63 → v.toInt = n) →
      Describes (.mk k n x s b cs block params) (.int v)
  | float {k : UInt8} {n block params : Int} {x : Binary64} {s : Text} {b : Bool} {cs : List Const} :
      ValueKind.ofNumber? k = some .float → Describes (.mk k n x s b cs block params) (.float x)
  | str {k : UInt8} {n block params : Int} {x : Binary64} {s : Text} {b : Bool} {cs : List Const} :
      ValueKind.ofNumber? k = some .str → Describes (.mk k n x s b cs block params) (.str s)
  | bool {k : UInt8} {n block params : Int} {x : Binary64} {s : Text} {b : Bool} {cs : List Const} :
      ValueKind.ofNumber? k = some .bool → Describes (.mk k n x s b cs block params) (.bool b)
  | array {k : UInt8} {n block params : Int} {x : Binary64} {s : Text} {b : Bool} {cs : List Const} {vs : List Value} :
      ValueKind.ofNumber? k = some .array → List.Forall₂ Describes cs vs →
      Describes (.mk k n x s b cs block params) (.array (vs.map some))
  | proto {k : UInt8} {n block params : Int} {x : Binary64} {s : Text} {b : Bool} {cs : List Const} :
      ValueKind.ofNumber? k = some .proto → Describes (.mk k n x s b cs block params) (.proto ⟨block, params⟩)

mutual

theorem toValue_describes : ∀ (c : Const) {v}, c.toValue = .ok v → c.Describes v
  | .mk kind int float str bool items block params, v, h => by
    rw [toValue] at h
    split at h
    · rename_i hk
      cases h
      exact .none hk
    · rename_i hk
      cases h
      exact .int hk fun hlo hhi => Int64.toInt_ofInt_of_le hlo hhi
    · rename_i hk
      cases h
      exact .float hk
    · rename_i hk
      cases h
      exact .str hk
    · rename_i hk
      cases h
      exact .bool hk
    · rename_i hk
      cases hvs : toValues items with
      | error e =>
        rw [hvs] at h
        cases h
      | ok vs =>
        rw [hvs] at h
        cases h
        exact .array hk (toValues_describes items hvs)
    · rename_i hk
      cases h
      exact .proto hk
    · cases h

theorem toValues_describes : ∀ cs {vs}, toValues cs = .ok vs → List.Forall₂ Describes cs vs
  | [], vs, h => by
    cases h
    exact .nil
  | c :: cs, vs, h => by
    rw [toValues] at h
    obtain ⟨v, hv, h⟩ := Machine.bind_ok.mp h
    obtain ⟨vs, hvs, h⟩ := Machine.bind_ok.mp h
    cases h
    exact .cons (toValue_describes c hv) (toValues_describes cs hvs)

end

end Const

/-! ## Blocks -/

def Slot.siteList? (s : Slot) : Option (List Int) := s.sites.map fun l => l.map fun (pc : Nat) => (pc : Int)

namespace Image

theorem map_toNat {pcs : List Int} (h : ∀ pc ∈ pcs, 0 ≤ pc) :
    (pcs.map Int.toNat).map (fun (pc : Nat) => (pc : Int)) = pcs := by
  rw [List.map_map]
  refine (List.map_congr_left fun pc hpc => ?_).trans (List.map_id pcs)
  exact Int.toNat_of_nonneg (h pc hpc)

/-- A block and its sites are both in the slot that is made of them. -/
theorem slots_of_verify {n : Nat} {bs : List (Option Block)} {ss : List (Option (List Int))}
    (hl : ss.length = bs.length) (h : verifyAllSites n bs ss = .ok ()) :
    let slots := List.zipWith (fun b s => (⟨b, s.map fun l => l.map Int.toNat⟩ : Slot)) bs ss
    slots.map (·.code) = bs ∧ slots.map Slot.siteList? = ss := by
  induction bs generalizing n ss with
  | nil =>
    have hss : ss = [] := List.length_eq_zero_iff.mp hl
    subst hss
    exact ⟨rfl, rfl⟩
  | cons b bs ih =>
    cases ss with
    | nil => cases hl
    | cons pcs ss =>
      obtain ⟨u, hv, hrest⟩ := Machine.bind_ok.mp h
      obtain ⟨hcodes, hsites⟩ := ih (by simpa using hl) hrest
      have hpcs : Slot.siteList? ⟨b, pcs.map fun l => l.map Int.toNat⟩ = pcs := by
        cases pcs with
        | none => rfl
        | some pcs => exact congrArg some (map_toNat fun pc hpc => ((ascends_of_verifySites hv).2 pc hpc).1)
      simp only [List.zipWith_cons_cons, List.map_cons]
      exact ⟨by rw [hcodes], by rw [hpcs, hsites]⟩

/-! ## Loading -/

theorem keepsNames_iff {i : Image} {p : Program} (hp : p.idents.names = i.nameList.eraseDups) :
    i.KeepsNames p ↔ i.nameList.Nodup := by
  have hname (k : Nat) : p.name k = (p.idents.names[k]?).getD [] := List.getD_eq_getElem?_getD
  constructor
  · intro h
    have hsame : p.idents.names = i.nameList := by
      apply List.ext_getElem h.1
      intro k hk hk'
      have hkept := h.2 k _ (List.getElem?_eq_getElem hk')
      rwa [hname, List.getElem?_eq_getElem hk] at hkept
    exact hsame ▸ p.idents.nodup
  · intro hnodup
    have hsame : p.idents.names = i.nameList := by
      rw [hp, ← Idents.names_internAll_empty]
      exact Idents.names_internAll_new (t := .empty) hnodup
    refine ⟨congrArg List.length hsame, ?_⟩
    intro k name hk
    rw [hname, hsame, hk]
    rfl

/-- An image that is accepted gives the program its constants, blocks and sites under their
    numbers. The names are those of the image in the order in which they occur first, so they have
    their numbers too if and only if none of them stands twice. -/
theorem toProgram_faithful {i : Image} {p : Program} (h : i.toProgram = .ok p) :
    List.Forall₂ Const.Describes (i.consts.getD []) p.consts ∧
      p.slots.map (·.code) = i.blockList ∧ p.slots.map Slot.siteList? = i.siteList ∧
      p.idents.names = i.nameList.eraseDups ∧ (i.KeepsNames p ↔ i.nameList.Nodup) := by
  obtain ⟨hverify, hconsts, hidents, hslots⟩ := toProgram_ok h
  have hnames : p.idents.names = i.nameList.eraseDups := by
    rw [hidents]
    exact Idents.names_internAll_empty i.nameList
  obtain ⟨-, -, hlength, hsites, -⟩ := framed_of_verify hverify
  obtain ⟨hcodes, hsites⟩ := slots_of_verify hlength hsites
  rw [← hslots] at hcodes hsites
  refine ⟨?_, hcodes, hsites, hnames, keepsNames_iff hnames⟩
  exact (Machine.mapM_ok.mp hconsts).imp fun c v hv => c.toValue_describes hv

def assigning : Program where
  idents := ⟨["a", "b"], by decide⟩
  consts := [.int 7]
  slots := [⟨some [⟨.loadIdent, 1⟩, ⟨.loadConst, 0⟩, ⟨.store, 0⟩], some []⟩]

def assigningImage : Image := .holding assigning 0 [.mk 1 7 .zero [] false [] 0 0]

theorem toProgram_assigningImage : assigningImage.toProgram = .ok assigning := by
  refine toProgram_holding ?_ (by decide) rfl
  intro s hs
  cases List.mem_singleton.mp hs
  exact ⟨.nil, by simp⟩

theorem toProgram_faithful_assigning :
    assigningImage.toProgram = .ok assigning ∧ assigning.slots.map (·.code) = assigningImage.blockList ∧
      assigningImage.KeepsNames assigning := by
  obtain ⟨-, hcodes, -, -, hkeeps⟩ := toProgram_faithful toProgram_assigningImage
  exact ⟨toProgram_assigningImage, hcodes, hkeeps.mpr (by decide)⟩

/-- The same image with the name of the variable `a` standing twice: the variable that the code
    assigns to is `a` in the image, and `b` in the program. -/
def doubledImage : Image := { assigningImage with idents := some ["a", "a", "b"] }

theorem doubledImage_renames :
    ∃ p, doubledImage.toProgram = .ok p ∧ p.block? 0 = some [⟨.loadIdent, 1⟩, ⟨.loadConst, 0⟩, ⟨.store, 0⟩] ∧
      doubledImage.nameList[1]? = some ("a" : Text) ∧ p.name 1 = "b" ∧ p.idents.size = 2 ∧ ¬ doubledImage.KeepsNames p := by
  have hload : doubledImage.toProgram = .ok { assigning with idents := Idents.empty.internAll ["a", "a", "b"] } := by
    have hverify : doubledImage.verify = .ok () := (toProgram_ok toProgram_assigningImage).1
    unfold toProgram
    rw [hverify]
    rfl
  refine ⟨_, hload, rfl, rfl, by decide, by decide, ?_⟩
  intro hkeeps
  exact absurd hkeeps.1 (by decide)

end Image

end Scriptlet

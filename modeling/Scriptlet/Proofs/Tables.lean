/-
  Scriptlet.Proofs.Tables — the tables of a program, however it was compiled.

  A program is compiled by one request after the other, and any of them may fail, also in the middle
  of a function inside of another one. What a block is to hold is known from the trees alone: `Node.ends`
  tells where the code of a tree completes struct instances, and `Node.bodies` lists the functions
  in the order of their blocks.

  (1) A request keeps what the tables hold, but for the one block that it replaces
      (`Compiler.next_follows`).
  (2) Lowering a node fills the blocks of its functions with the code of their bodies, and if it fails,
      it was in the middle of that (`Lower.node_adds`). So each block has the code of the tree that
      was lowered into it, or none (`Compiler.after_sourced`).
  (3) The sites of a block ascend, so that halving the list finds them (`Slot.finds_iff`).
-/

import Scriptlet.Proofs.Relabeling
import Scriptlet.Proofs.Storing

namespace Scriptlet

open Node Lower Program
open List (prefix_rfl mem_map mem_singleton getElem?_eq_getElem prefix_append append_nil)

namespace Node

/-! ## Places in the code of a tree -/

/-- The same places in code that starts so many instructions later. -/
def later (n : Nat) (ends : List (Nat × Text)) : List (Nat × Text) := ends.map fun e => (n + e.1, e.2)

/-- How many instructions stand in front of the fields of a struct instance. -/
def opening (depth : Nat) (fs : List (Text × Node)) : Nat := if depth = 0 && !fs.isEmpty then 0 else 1

mutual

/-- How many instructions a node takes, at a depth of struct instances around it. -/
def size (depth : Nat) : Node → Nat
  | .assign l r => l.size depth + r.size depth + 1
  | .construct _ fs => opening depth fs + sizeFields (depth + 1) fs + 1
  | .array items => sizeAll depth items + 1
  | .call callee args => callee.size depth + sizeAll depth args + 1
  | .property object _ => object.size depth + 1
  | .binary _ l r => l.size depth + r.size depth + 1
  | .function params _ => params.length + 2
  | .structDef _ fs => fs.length + 1
  | .variable _ _ => 3
  | .ret none => 2
  | .ret (some v) => v.size depth + 1
  | .ident _ | .int _ | .float _ | .str _ => 1
  | .hole => 0
termination_by structural n => n

def sizeAll (depth : Nat) : List Node → Nat
  | [] => 0
  | n :: ns => n.size depth + sizeAll depth ns
termination_by structural ns => ns

def sizeFields (depth : Nat) : List (Text × Node) → Nat
  | [] => 0
  | (_, n) :: fs => n.size depth + 1 + sizeFields depth fs
termination_by structural fs => fs

end

mutual

/-- Where the code of a node completes struct instances, and the names of their types. The body of a
    function is code of another block. -/
def ends (depth : Nat) : Node → List (Nat × Text)
  | .assign l r => l.ends depth ++ later (l.size depth) (r.ends depth)
  | .construct type fs =>
    later (opening depth fs) (endsFields (depth + 1) fs) ++ [(opening depth fs + sizeFields (depth + 1) fs, type)]
  | .array items => endsAll depth items
  | .call callee args => callee.ends depth ++ later (callee.size depth) (endsAll depth args)
  | .property object _ => object.ends depth
  | .binary _ l r => l.ends depth ++ later (l.size depth) (r.ends depth)
  | .ret (some v) => v.ends depth
  | _ => []
termination_by structural n => n

def endsAll (depth : Nat) : List Node → List (Nat × Text)
  | [] => []
  | n :: ns => n.ends depth ++ later (n.size depth) (endsAll depth ns)
termination_by structural ns => ns

def endsFields (depth : Nat) : List (Text × Node) → List (Nat × Text)
  | [] => []
  | (_, n) :: fs => n.ends depth ++ later (n.size depth + 1) (endsFields depth fs)
termination_by structural fs => fs

end

mutual

/-- The bodies of the functions in a node, in the order of their blocks. -/
def bodies : Node → List (List Node)
  | .assign l r => l.bodies ++ r.bodies
  | .construct _ fs => bodiesFields fs
  | .array items => bodiesAll items
  | .call callee args => callee.bodies ++ bodiesAll args
  | .property object _ => object.bodies
  | .binary _ l r => l.bodies ++ r.bodies
  | .function _ body => body :: bodiesAll body
  | .ret (some v) => v.bodies
  | _ => []
termination_by structural n => n

def bodiesAll : List Node → List (List Node)
  | [] => []
  | n :: ns => n.bodies ++ bodiesAll ns
termination_by structural ns => ns

def bodiesFields : List (Text × Node) → List (List Node)
  | [] => []
  | (_, n) :: fs => n.bodies ++ bodiesFields fs
termination_by structural fs => fs

end

end Node

/-! ## Tables that grow -/

/-- Every number that the first program has given out is one of the second, and means the same, but for the code of
    blocks. -/
structure Program.Grown (p q : Program) : Prop where
  names : p.idents.names <+: q.idents.names
  consts : p.consts <+: q.consts
  slots : p.slots.length ≤ q.slots.length

variable {p q : Program} {k id : Nat} {v : Value} {o : Op} {S : List (List Node)} {ns : List Node}

namespace Program.Grown

variable {r : Program}

theorem refl (p : Program) : p.Grown p := ⟨prefix_rfl, prefix_rfl, Nat.le_refl _⟩

theorem trans (h : p.Grown q) (k : q.Grown r) : p.Grown r :=
  ⟨h.names.trans k.names, h.consts.trans k.consts, Nat.le_trans h.slots k.slots⟩

theorem of_le (h : p.Le q) : p.Grown q := ⟨h.names, h.consts, h.slots.length_le⟩

theorem fill (p : Program) (id : Nat) (s : Slot) : p.Grown (p.fill id s) :=
  ⟨prefix_rfl, prefix_rfl, by simp [Program.fill]⟩

end Program.Grown

/-- The operation refers to nothing in the tables. -/
def Op.isPlain (o : Op) : Bool := !o.namesIdent && o != .loadConst && o != .makeFn

structure Instr.Refers (p : Program) (i : Instr) : Prop where
  const : i.op = .loadConst → ∃ k : Nat, i.arg = k ∧ k < p.consts.length
  ident : i.op.namesIdent = true → ∃ k : Nat, i.arg = k ∧ k < p.idents.size

/-- The instruction in front of `k` loads the prototype of a function with `n` parameters. -/
def Block.Prepares (p : Program) (code : Block) (k : Nat) (n : Int) : Prop :=
  ∃ j c b : Nat, k = j + 1 ∧ code[j]? = some ⟨.loadConst, c⟩ ∧ p.consts[c]? = some (.proto ⟨b, n⟩) ∧ b < p.slots.length

/-- A constant that the compiler makes: plain data, or the prototype of a function that has a block. -/
def Value.IsConstant (p : Program) : Value → Prop
  | .none | .int _ | .float _ | .str _ | .bool _ => True
  | .proto f => 0 ≤ f.params ∧ ∃ b : Nat, f.block = b ∧ b < p.slots.length
  | _ => False

theorem Instr.Refers.mono {i : Instr} (h : i.Refers p) (hg : p.Grown q) : i.Refers q := by
  refine ⟨fun ho => ?_, fun ho => ?_⟩
  · obtain ⟨k, hk, hlt⟩ := h.const ho
    exact ⟨k, hk, Nat.lt_of_lt_of_le hlt hg.consts.length_le⟩
  · obtain ⟨k, hk, hlt⟩ := h.ident ho
    exact ⟨k, hk, Nat.lt_of_lt_of_le hlt hg.names.length_le⟩

theorem Block.Prepares.mono {code : Block} {n : Int} (h : code.Prepares p k n) (hg : p.Grown q) :
    code.Prepares q k n := by
  obtain ⟨j, c, b, hk, hj, hc, hb⟩ := h
  exact ⟨j, c, b, hk, hj, getElem?_mono hg.consts hc, Nat.lt_of_lt_of_le hb hg.slots⟩

theorem Value.IsConstant.mono (h : v.IsConstant p) (hg : p.Grown q) : v.IsConstant q := by
  cases v with
  | proto f =>
    obtain ⟨hn, b, hb, hlt⟩ := h
    exact ⟨hn, b, hb, Nat.lt_of_lt_of_le hlt hg.slots⟩
  | _ => exact h

theorem Value.IsConstant.ofValue {v : Value} (h : v.IsConstant p) : ∃ c, Const.ofValue v = .ok c := by
  cases v with
  | array | closure | structType | object | host | builtin => cases h
  | _ => exact ⟨_, rfl⟩

/-! ## Code of a tree -/

namespace Fragment

theorem code_append (a b : Fragment) : (a ++ b).code = a.code ++ b.code := rfl

theorem append_assoc (a b c : Fragment) : a ++ b ++ c = a ++ (b ++ c) := by
  change Fragment.append (.append a b) c = .append a (.append b c)
  simp [append, Nat.add_assoc]

theorem sites_append (a b : Fragment) : (a ++ b).sites = a.sites ++ b.sites.map (a.code.length + ·) := rfl

/-- The fragment has so many instructions, which refer to what is in the tables, and it completes struct instances
    at the ends, and nowhere else. -/
structure Codes (p : Program) (n : Nat) (ends : List (Nat × Text)) (f : Fragment) : Prop where
  length : f.code.length = n
  sites : f.sites = ends.map (·.1)
  ascending : f.sites.Pairwise (· < ·)
  completes : ∀ e ∈ ends, ∃ id, p.idents.lookup? e.2 = some id ∧ f.code[e.1]? = some ⟨.loadIdent, id⟩
  refers : ∀ i ∈ f.code, i.Refers p
  prepares : ∀ k i, f.code[k]? = some i → i.op = .makeFn → f.code.Prepares p k i.arg

section

variable {n m : Nat} {e g : List (Nat × Text)} {a b : Fragment}

theorem Codes.mono (h : Codes p n e a) (hg : p.Grown q) : Codes q n e a := by
  refine ⟨h.length, h.sites, h.ascending, fun x hx => ?_, fun i hi => (h.refers i hi).mono hg,
    fun k i hk ho => (h.prepares k i hk ho).mono hg⟩
  obtain ⟨id, hid, hc⟩ := h.completes x hx
  exact ⟨id, Idents.lookup?_mono hg.names hid, hc⟩

theorem Codes.site_lt (h : Codes p n e a) (hk : k ∈ a.sites) : k < n := by
  rw [h.sites] at hk
  obtain ⟨x, hx, rfl⟩ := mem_map.mp hk
  obtain ⟨id, -, hc⟩ := h.completes x hx
  rw [← h.length]
  exact (List.getElem?_eq_some_iff.mp hc).1

theorem Codes.append (ha : Codes p n e a) (hb : Codes p m g b) : Codes p (n + m) (e ++ later n g) (a ++ b) := by
  refine ⟨?_, ?_, ?_, ?_, ?_, ?_⟩
  · rw [code_append, List.length_append, ha.length, hb.length]
  · rw [sites_append, ha.sites, hb.sites, ha.length, List.map_append, later, List.map_map, List.map_map]
    rfl
  · rw [sites_append, List.pairwise_append]
    refine ⟨ha.ascending, ?_, ?_⟩
    · rw [List.pairwise_map]
      exact hb.ascending.imp fun hlt => by omega
    · intro i hi j hj
      obtain ⟨k, -, rfl⟩ := mem_map.mp hj
      have := ha.site_lt hi
      have := ha.length
      omega
  · intro x hx
    rcases List.mem_append.mp hx with hx | hx
    · obtain ⟨id, hid, hc⟩ := ha.completes x hx
      exact ⟨id, hid, by rw [code_append, List.getElem?_append_left (List.getElem?_eq_some_iff.mp hc).1, hc]⟩
    · obtain ⟨y, hy, rfl⟩ := mem_map.mp hx
      obtain ⟨id, hid, hc⟩ := hb.completes y hy
      have := ha.length
      refine ⟨id, hid, ?_⟩
      rw [code_append, List.getElem?_append_right (by omega), ha.length, Nat.add_sub_cancel_left, hc]
  · intro i hi
    rcases List.mem_append.mp hi with hi | hi
    · exact ha.refers i hi
    · exact hb.refers i hi
  · intro k i hk ho
    rw [code_append] at hk ⊢
    by_cases hlt : k < a.code.length
    · rw [List.getElem?_append_left hlt] at hk
      obtain ⟨j, c, d, rfl, hj, hc, hd⟩ := ha.prepares k i hk ho
      exact ⟨j, c, d, rfl, by rw [List.getElem?_append_left (by omega), hj], hc, hd⟩
    · rw [List.getElem?_append_right (by omega)] at hk
      obtain ⟨j, c, d, hkj, hj, hc, hd⟩ := hb.prepares _ i hk ho
      refine ⟨a.code.length + j, c, d, by omega, ?_, hc, hd⟩
      rw [List.getElem?_append_right (by omega), Nat.add_sub_cancel_left, hj]

theorem codes_empty : Codes p 0 [] .empty :=
  ⟨rfl, rfl, .nil, by simp, by simp [empty], by simp [empty]⟩

theorem codes_op {arg : Nat} (hr : Instr.Refers p ⟨o, arg⟩) (ho : o ≠ .makeFn) : Codes p 1 [] (.op o arg) := by
  refine ⟨rfl, rfl, .nil, by simp, ?_, ?_⟩
  · intro i hi
    rw [mem_singleton.mp hi]
    exact hr
  · intro k i hk hm
    obtain ⟨-, rfl⟩ : k = 0 ∧ (⟨o, arg⟩ : Instr) = i := by
      cases k with
      | zero => exact ⟨rfl, Option.some.inj hk⟩
      | succ k => cases hk
    exact absurd hm ho

theorem codes_ident {name : Text} (ho : o.namesIdent = true) (h : p.idents.lookup? name = some id) :
    Codes p 1 [] (.op o id) := by
  have hid : id < p.idents.size := (List.getElem?_eq_some_iff.mp (Idents.lookup?_eq_some.mp h)).1
  refine codes_op ⟨fun e => ?_, fun _ => ⟨id, rfl, hid⟩⟩ fun e => ?_ <;> · subst e; cases ho

theorem codes_const (h : p.consts[k]? = some v) : Codes p 1 [] (.op .loadConst k) :=
  codes_op ⟨fun _ => ⟨k, rfl, (List.getElem?_eq_some_iff.mp h).1⟩, by simp [Op.namesIdent]⟩ (by simp)

theorem codes_plain (arg : Nat) (ho : o.isPlain = true) : Codes p 1 [] (.op o arg) := by
  refine codes_op ⟨fun e => ?_, fun e => ?_⟩ fun e => ?_
  · rw [Op.isPlain, show o = .loadConst from e] at ho
    cases ho
  · rw [Op.isPlain, show o.namesIdent = true from e] at ho
    simp at ho
  · rw [Op.isPlain, e] at ho
    cases ho

theorem codes_site {type : Text} (h : p.idents.lookup? type = some id) : Codes p 1 [(0, type)] (.site id) := by
  have hid : id < p.idents.size := (List.getElem?_eq_some_iff.mp (Idents.lookup?_eq_some.mp h)).1
  refine ⟨rfl, rfl, List.pairwise_singleton _ _, ?_, ?_, ?_⟩
  · intro x hx
    rw [mem_singleton.mp hx]
    exact ⟨id, h, rfl⟩
  · intro i hi
    rw [mem_singleton.mp hi]
    exact ⟨by simp, fun _ => ⟨id, rfl, hid⟩⟩
  · intro k i hk hm
    cases k with
    | zero =>
      cases hk
      cases hm
    | succ k => cases hk

theorem Codes.then_plain (ha : Codes p n e a) (hb : Codes p m [] b) : Codes p (n + m) e (a ++ b) := by
  simpa [later] using ha.append hb

theorem Codes.then_site {type : Text} (ha : Codes p n e a) (h : p.idents.lookup? type = some id) :
    Codes p (n + 1) (e ++ [(n, type)]) (a ++ .site id) := by
  simpa [later] using ha.append (codes_site h)

end

end Fragment

inductive Slot.Holds (p : Program) (ns : List Node) : Slot → Prop
  | nothing : Holds p ns {}
  | code {f : Fragment} : f.Codes p (Node.sizeAll 0 ns) (Node.endsAll 0 ns) → Holds p ns f.toSlot

structure Program.Sourced (S : List (List Node)) (p : Program) : Prop where
  slots : List.Forall₂ (fun ns s => Slot.Holds p ns s) S p.slots
  consts : ∀ v ∈ p.consts, v.IsConstant p

theorem forall₂_set {α β : Type} {R : α → β → Prop} {l : List α} {m : List β} (h : List.Forall₂ R l m) (k : Nat) {a : α}
    {b : β} (hab : R a b) : List.Forall₂ R (l.set k a) (m.set k b) := by
  induction h generalizing k with
  | nil => exact .nil
  | cons hh ht ih =>
    cases k with
    | zero => exact .cons hab ht
    | succ k => exact .cons hh (ih k)

section

variable {s : Slot}

theorem Slot.Holds.mono (h : s.Holds p ns) (hg : p.Grown q) : s.Holds q ns := by
  cases h with
  | nothing => exact .nothing
  | code hf => exact .code (hf.mono hg)

theorem Fragment.sites_toSlot (f : Fragment) : f.toSlot.sites.getD [] = f.sites := by
  unfold Fragment.toSlot
  split
  · rename_i h
    exact (List.isEmpty_iff.mp h).symm
  · rfl

namespace Slot.Holds

theorem refers (h : s.Holds p ns) : ∀ i ∈ s.code.getD [], i.Refers p := by
  cases h with
  | nothing => simp
  | code hf => exact hf.refers

theorem prepares (h : s.Holds p ns) {k : Nat} {i : Instr} (hi : (s.code.getD [])[k]? = some i) (ho : i.op = .makeFn) :
    Block.Prepares p (s.code.getD []) k i.arg := by
  cases h with
  | nothing => cases hi
  | code hf => exact hf.prepares k i hi ho

/-- The sites are the places where the trees have their struct instances completed. -/
theorem mem_sites (h : s.Holds p ns) :
    k ∈ s.sites.getD [] ↔ s.code.isSome = true ∧ ∃ type, (k, type) ∈ endsAll 0 ns := by
  cases h with
  | nothing => simp
  | code hf =>
    rw [Fragment.sites_toSlot, hf.sites]
    simp [Fragment.toSlot]

theorem completes (h : s.Holds p ns) (hc : s.code.isSome = true) {k : Nat} {type : Text}
    (hk : (k, type) ∈ endsAll 0 ns) :
    ∃ id, p.idents.lookup? type = some id ∧ (s.code.getD [])[k]? = some ⟨.loadIdent, id⟩ := by
  cases h with
  | nothing => cases hc
  | code hf => exact hf.completes (k, type) hk

theorem isOrdered (h : s.Holds p ns) : s.IsOrdered := by
  refine ⟨?_, fun k hk => ?_⟩
  · cases h with
    | nothing => exact .nil
    | code hf =>
      rw [Fragment.sites_toSlot]
      exact hf.ascending
  · obtain ⟨hc, type, hk⟩ := h.mem_sites.mp hk
    obtain ⟨id, -, hi⟩ := h.completes hc hk
    rw [hi]
    rfl

end Slot.Holds

namespace Program.Sourced

/-- The trees of a block. -/
theorem holds (h : p.Sourced S) {b : Nat} (hs : p.slots[b]? = some s) : ∃ ns, S[b]? = some ns ∧ s.Holds p ns := by
  obtain ⟨hb, rfl⟩ := List.getElem?_eq_some_iff.mp hs
  have hS : b < S.length := by
    rw [h.slots.length_eq]
    exact hb
  exact ⟨S[b], getElem?_eq_getElem hS, (List.forall₂_iff_get.mp h.slots).2 b hS hb⟩

theorem length_eq (h : p.Sourced S) : S.length = p.slots.length := h.slots.length_eq

/-- Tables that grow without a new block. -/
theorem grow (h : p.Sourced S) (hg : p.Grown q) (hs : q.slots = p.slots) (hc : ∀ v ∈ q.consts, v ∈ p.consts ∨ v.IsConstant q) :
    q.Sourced S := by
  refine ⟨?_, fun v hv => ?_⟩
  · rw [hs]
    exact h.slots.imp fun _ _ hh => hh.mono hg
  · rcases hc v hv with hv | hv
    · exact (h.consts v hv).mono hg
    · exact hv

theorem grown_intern (p : Program) (name : Text) : p.Grown (p.intern name).2 :=
  ⟨(p.idents.intern_spec name).1, prefix_rfl, Nat.le_refl _⟩

section

variable (h : p.Sourced S)

include h

theorem intern (name : Text) : (p.intern name).2.Sourced S :=
  h.grow (grown_intern p name) rfl fun _ hv => .inl hv

theorem addConst {v : Value} (hv : v.IsConstant p) : (p.addConst v).2.Sourced S := by
  have hg : p.Grown (p.addConst v).2 := ⟨prefix_rfl, prefix_append _ _, Nat.le_refl _⟩
  refine h.grow hg rfl fun w hw => ?_
  rcases List.mem_append.mp hw with hw | hw
  · exact .inl hw
  · rw [mem_singleton.mp hw]
    exact .inr (hv.mono hg)

theorem reserve (ns : List Node) : p.reserve.2.Sourced (S ++ [ns]) := by
  have hg : p.Grown p.reserve.2 := ⟨prefix_rfl, prefix_rfl, by simp [Program.reserve]⟩
  refine ⟨?_, fun v hv => (h.consts v hv).mono hg⟩
  exact List.rel_append (h.slots.imp fun _ _ hh => hh.mono hg) (.cons .nothing .nil)

/-- A block is filled with the code of other trees. -/
theorem fill {f : Fragment} (id : Nat) (hf : f.Codes p (sizeAll 0 ns) (endsAll 0 ns)) :
    (p.fill id f.toSlot).Sourced (S.set id ns) := by
  have hg := Grown.fill p id f.toSlot
  refine ⟨?_, fun v hv => (h.consts v hv).mono hg⟩
  exact forall₂_set (h.slots.imp fun _ _ hh => hh.mono hg) id (.code (hf.mono hg))

theorem isOrdered : ∀ s ∈ p.slots, s.IsOrdered := by
  intro s hs
  obtain ⟨b, hb⟩ := List.getElem?_of_mem hs
  obtain ⟨ns, -, hh⟩ := h.holds hb
  exact hh.isOrdered

/-- The program has an image, with a constant for each of its own. -/
theorem image {entry : Nat} (he : entry < p.slots.length) :
    ∃ cs, List.Forall₂ (fun v c => Const.ofValue v = .ok c) p.consts cs ∧
      Image.ofProgram p entry = .ok (.holding p entry cs) := by
  have hconsts : ∀ vs : List Value, (∀ v ∈ vs, v.IsConstant p) →
      ∃ cs, List.Forall₂ (fun v c => Const.ofValue v = .ok c) vs cs ∧ vs.mapM Const.ofValue = .ok cs := by
    intro vs hvs
    induction vs with
    | nil => exact ⟨[], .nil, rfl⟩
    | cons v vs ih =>
      obtain ⟨c, hc⟩ : ∃ c, Const.ofValue v = .ok c := (hvs v List.mem_cons_self).ofValue
      obtain ⟨cs, hcs, hm⟩ := ih fun w hw => hvs w (List.mem_cons_of_mem v hw)
      refine ⟨c :: cs, .cons hc hcs, ?_⟩
      rw [List.mapM_cons, hc, hm]
      rfl
  obtain ⟨cs, hcs, hm⟩ := hconsts p.consts h.consts
  have hslot : p.slot? entry = some p.slots[entry] := getElem?_eq_getElem he
  refine ⟨cs, hcs, ?_⟩
  unfold Image.ofProgram
  rw [hslot, hm]
  rfl

end

end Program.Sourced

theorem Program.exists_of_slot? {b : Int} (h : (p.slot? b).isSome = true) : ∃ n : Nat, b = n ∧ n < p.slots.length := by
  obtain ⟨s, hs⟩ := Option.isSome_iff_exists.mp h
  cases b with
  | ofNat n => exact ⟨n, rfl, (List.getElem?_eq_some_iff.mp hs).1⟩
  | negSucc n => cases hs

end

namespace Lower

/-! ## Lowering fills the blocks it adds -/

section

variable {α β : Type}

/-- Lowering succeeds and adds a block with code for each of the trees; or it fails when it has added the first of
    these blocks, some perhaps without code. -/
inductive Adds (S : List (List Node)) (p : Program) (B : List (List Node)) (R : Program → α → Prop) (x : Lower α) : Prop
  | gives {a : α} {q : Program} : result x p = (.ok a, q) → p.Le q → q.Sourced (S ++ B) →
    (∀ b s, p.slots.length ≤ b → q.slots[b]? = some s → s.code.isSome = true) → R q a → Adds S p B R x
  | fails {e : LowerError} {q : Program} {done : List (List Node)} : result x p = (.error e, q) → p.Le q → done <+: B →
    q.Sourced (S ++ done) → Adds S p B R x

variable {B C : List (List Node)} {R : Program → α → Prop} {T : Program → β → Prop} {x : Lower α} {k : α → Lower β}

theorem Adds.bind (hx : Adds S p B R x)
    (hk : ∀ {a q}, p.Le q → q.Sourced (S ++ B) → R q a → Adds (S ++ B) q C T (k a)) :
    Adds S p (B ++ C) T (x >>= k) := by
  cases hx with
  | fails hr hle hd hs => exact .fails (by rw [result_bind, hr]) hle (hd.trans (prefix_append _ _)) hs
  | @gives a q hr hle hs hf ha =>
    cases hk hle hs ha with
    | fails hr' hle' hd hs' =>
      refine .fails (by rw [result_bind, hr]; exact hr') (hle.trans hle') ((List.prefix_append_right_inj B).mpr hd) ?_
      rwa [List.append_assoc] at hs'
    | @gives c r hr' hle' hs' hf' hc =>
      refine .gives (by rw [result_bind, hr]; exact hr') (hle.trans hle') (by rwa [List.append_assoc] at hs') ?_ hc
      intro b s hb hbs
      by_cases hlt : b < q.slots.length
      · have hq := getElem?_mono hle'.slots (getElem?_eq_getElem hlt)
        rw [hq] at hbs
        exact hf b s hb (by rw [getElem?_eq_getElem hlt, hbs])
      · exact hf' b s (by omega) hbs

/-- What comes then adds no block. -/
theorem Adds.next (hx : Adds S p B R x)
    (hk : ∀ {a q}, p.Le q → q.Sourced (S ++ B) → R q a → Adds (S ++ B) q [] T (k a)) :
    Adds S p B T (x >>= k) := by
  simpa only [append_nil] using hx.bind (C := []) hk

/-- What comes then adds all the blocks. -/
theorem Adds.first (hx : Adds S p [] R x) (hk : ∀ {a q}, p.Le q → q.Sourced S → R q a → Adds S q B T (k a)) :
    Adds S p B T (x >>= k) := by
  have := hx.bind (C := B) (T := T) (k := k) fun hle hs ha => by
    rw [append_nil] at hs ⊢
    exact hk hle hs ha
  simpa only [List.nil_append] using this

variable (h : p.Sourced S)

theorem adds_quiet {a : α} (hr : result x p = (.ok a, q)) (hle : p.Le q) (hs : q.Sourced S)
    (hl : q.slots = p.slots) (ha : R q a) : Adds S p [] R x := by
  refine .gives hr hle (by rwa [append_nil]) (fun b s hb hbs => ?_) ha
  have := (List.getElem?_eq_some_iff.mp hbs).1
  rw [hl] at this
  omega

include h

theorem adds_pure {a : α} (ha : R p a) : Adds S p [] R (pure a) := adds_quiet rfl (.refl p) h rfl ha

theorem adds_throw (e : LowerError) : Adds S p B R (throw e) :=
  .fails rfl (.refl p) (List.nil_prefix) (by rwa [append_nil])

theorem adds_intern (name : Text) : Adds S p [] (fun q id => q.idents.lookup? name = some id) (intern name) :=
  adds_quiet (a := (p.intern name).1) rfl ⟨(p.idents.intern_spec name).1, prefix_rfl, prefix_rfl⟩ (h.intern name)
    rfl (p.idents.intern_spec name).2

theorem adds_literal (hv : v.IsConstant p) : Adds S p [] (fun q f => f.Codes q 1 []) (constant v) := by
  refine adds_quiet (q := (p.addConst v).2) rfl ⟨prefix_rfl, prefix_append _ _, prefix_rfl⟩ (h.addConst hv)
    rfl (Fragment.codes_const (v := v) ?_)
  simp [addConst]

theorem adds_operator (op : Operator) : Adds S p [] (fun q f => f.Codes q 1 []) (operator op) := by
  cases op with
  | other b => exact adds_throw h _
  | _ => exact adds_pure h (Fragment.codes_plain 0 rfl)

theorem adds_loads (ho : o.namesIdent = true) (names : List Text) :
    Adds S p [] (fun q f => f.Codes q names.length []) (loads o names) := by
  induction names generalizing p with
  | nil => exact adds_pure h Fragment.codes_empty
  | cons name names ih =>
    refine (adds_intern h name).first fun _ hs hid => (ih hs).first fun hle hs hf => adds_pure hs ?_
    have hid := Fragment.codes_ident ho (Idents.lookup?_mono hle.names hid)
    have := hid.append hf
    rwa [Nat.add_comm] at this

end

/-! ### Blocks -/

/-- The trees are put into a block that exists: it gets their code, and blocks are added for the functions in them; or,
    when that fails, the block stays as it is. -/
inductive Puts (S : List (List Node)) (p : Program) (id : Nat) (ns : List Node) : Except LowerError Unit × Program → Prop
  | done {q : Program} {s : Slot} : p.Le q → (q.fill id s).Sourced (S.set id ns ++ Node.bodiesAll ns) →
    s.code.isSome = true → (∀ b s, p.slots.length ≤ b → q.slots[b]? = some s → s.code.isSome = true) →
    Puts S p id ns (.ok (), q.fill id s)
  | failed {e : LowerError} {q : Program} {done : List (List Node)} : p.Le q → done <+: Node.bodiesAll ns →
    q.Sourced (S ++ done) → Puts S p id ns (.error e, q)

section

variable {body : List Node}

/-- Lowering the trees gives their code, and fills the blocks of the functions in them. -/
abbrev AddsAll (S : List (List Node)) (p : Program) (ns : List Node) : Prop :=
  Adds S p (Node.bodiesAll ns) (fun q f => f.Codes q (Node.sizeAll 0 ns) (Node.endsAll 0 ns)) (nodes 0 ns)

theorem into_puts (h : p.Sourced S) (hid : id < p.slots.length) (hn : AddsAll S p ns) :
    Puts S p id ns (result (into id ns) p) := by
  change Puts S p id ns (result (nodes 0 ns >>= fun f => modify (·.fill id f.toSlot)) p)
  rw [result_bind]
  cases hn with
  | fails hr hle hd hs =>
    rw [hr]
    exact .failed hle hd hs
  | @gives f q hr hle hs hf hc =>
    rw [hr]
    refine .done hle ?_ rfl hf
    have := hs.fill id hc
    rwa [List.set_append_left _ _ (by rw [h.length_eq]; exact hid)] at this

/-- A function: its block is reserved, its prototype becomes a constant, and its body is put into the block. -/
theorem adds_function {R : Program → Fragment → Prop} (h : p.Sourced S) (params : Nat) (g : Fragment → Fragment)
    (hb : ∀ {q : Program}, q.Sourced (S ++ [body]) → AddsAll (S ++ [body]) q body)
    (hg : ∀ {q k}, p.Le q → p.slots.length < q.slots.length →
      q.consts[k]? = some (.proto ⟨p.slots.length, params⟩) → R q (g (.op .loadConst k))) :
    Adds S p (body :: bodiesAll body) R
      ((modifyGet (·.reserve) : Lower Nat) >>= fun id => constant (.proto ⟨id, params⟩) >>= fun k =>
        nodes 0 body >>= fun b => modify (·.fill id b.toSlot) >>= fun _ => pure (g k)) := by
  let q₂ := (p.reserve.2.addConst (.proto ⟨p.slots.length, params⟩)).2
  have hlen : q₂.slots.length = p.slots.length + 1 := by simp [q₂, addConst, Program.reserve]
  have hle : p.Le q₂ := ⟨prefix_rfl, prefix_append _ _, prefix_append _ _⟩
  have hs : q₂.Sourced (S ++ [body]) := by
    refine (h.reserve body).addConst ⟨Int.natCast_nonneg _, p.slots.length, rfl, ?_⟩
    simp [Program.reserve]
  have hr : ∀ r, result (into p.slots.length body) q₂ = r → result
      ((modifyGet (·.reserve) : Lower Nat) >>= fun id => constant (.proto ⟨id, params⟩) >>= fun k =>
        nodes 0 body >>= fun b => modify (·.fill id b.toSlot) >>= fun _ => pure (g k)) p =
        (r.1.map fun _ => g (.op .loadConst p.consts.length), r.2) := by
    intro r hr
    change result (nodes 0 body >>= fun b => modify (·.fill p.slots.length b.toSlot) >>= fun _ =>
      pure (g (.op .loadConst p.consts.length))) q₂ = _
    subst hr
    unfold into
    rw [result_bind, result_bind]
    rcases result (nodes 0 body) q₂ with ⟨_ | _, q⟩ <;> rfl
  have hputs : Puts (S ++ [body]) q₂ p.slots.length body (result (into p.slots.length body) q₂) :=
    into_puts hs (by omega) (hb hs)
  generalize hres : result (into p.slots.length body) q₂ = r at hputs
  cases hputs with
  | failed hleq hd hs' =>
    refine .fails (hr _ hres) (hle.trans hleq) ((List.prefix_cons_inj body).mpr hd) ?_
    rwa [List.append_assoc] at hs'
  | @done q s hleq hs' hcode hf =>
    have hlq := hleq.slots.length_le
    have hfill : p.Le (q.fill p.slots.length s) := grows_fill s (Nat.le_refl _) q (hle.trans hleq)
    refine .gives (hr _ hres) hfill ?_ ?_ (hg hfill ?_ (getElem?_mono hleq.consts ?_))
    · have hset : (S ++ [body]).set p.slots.length body = S ++ [body] := by simp [← h.length_eq]
      rwa [hset, List.append_assoc] at hs'
    · intro b t hb hbt
      change (q.slots.set p.slots.length s)[b]? = some t at hbt
      by_cases hbp : p.slots.length = b
      · subst hbp
        rw [List.getElem?_set_self (by omega)] at hbt
        rwa [← Option.some.inj hbt]
      · rw [List.getElem?_set_ne hbp] at hbt
        exact hf b t (by omega) hbt
    · change p.slots.length < (q.slots.set p.slots.length s).length
      rw [List.length_set]
      omega
    · simp [q₂, addConst, Program.reserve]

end

section

open Fragment

theorem codes_opening (d : Nat) (fs : List (Text × Node)) :
    Codes p (opening d fs) [] (if d = 0 && !fs.isEmpty then Fragment.empty else .op .beginStruct) := by
  unfold opening
  split
  · exact codes_empty
  · exact codes_plain 0 rfl

theorem isConstant_initial (p : Program) (type : Text) : (initial type).IsConstant p := by
  unfold initial
  repeat' split
  all_goals exact trivial

section

variable {B C : List (List Node)} {n m : Nat} {e g : List (Nat × Text)} {x y : Lower Fragment}

section

variable (hx : Adds S p B (fun q f => f.Codes q n e) x)

include hx

/-- Code and an operation behind it. -/
theorem Adds.thenOp (arg : Nat) (ho : o.isPlain = true) :
    Adds S p B (fun q f => f.Codes q (n + 1) e) (x >>= fun a => pure (a ++ .op o arg)) :=
  hx.next fun _ hs ha => adds_pure hs (ha.then_plain (codes_plain arg ho))

/-- The code of two parts and an operation behind it. -/
theorem Adds.pair
    (hy : ∀ {q : Program}, q.Sourced (S ++ B) → Adds (S ++ B) q C (fun q f => f.Codes q m g) y) (arg : Nat)
    (ho : o.isPlain = true) :
    Adds S p (B ++ C) (fun q f => f.Codes q (n + m + 1) (e ++ later n g))
      (x >>= fun a => y >>= fun b => pure (a ++ b ++ .op o arg)) :=
  hx.bind fun _ hs ha => (hy hs).next fun hle hs hb =>
    adds_pure hs (((ha.mono (.of_le hle)).append hb).then_plain (codes_plain arg ho))

/-- Code and an operation that names an identifier behind it. -/
theorem Adds.thenIdent (name : Text) (ho : o.namesIdent = true) :
    Adds S p B (fun q f => f.Codes q (n + 1) e) (x >>= fun a => intern name >>= fun id => pure (a ++ .op o id)) :=
  hx.next fun _ hs ha => (adds_intern hs name).next fun hle hs hi =>
    adds_pure hs ((ha.mono (.of_le hle)).then_plain (codes_ident ho hi))

end

end

/-- The end of the code that makes a function. -/
theorem codes_function {a : Fragment} {n b : Nat} (ha : Codes p n [] a)
    (hk : p.consts[k]? = some (.proto ⟨b, n⟩)) (hb : b < p.slots.length) :
    Codes p (n + 2) [] (a ++ .op .loadConst k ++ .op .makeFn n) := by
  have hmade : Codes p 2 [] (.op .loadConst k ++ .op .makeFn n) := by
    refine ⟨rfl, rfl, .nil, by simp, ?_, ?_⟩
    · intro i hi
      rcases List.mem_cons.mp hi with rfl | hi
      · exact (codes_const hk).refers _ (List.mem_singleton_self _)
      · rw [mem_singleton.mp hi]
        exact ⟨by simp, by simp [Op.namesIdent]⟩
    · intro j i hj ho
      rcases j with _ | _ | j
      · cases hj
        cases ho
      · cases hj
        exact ⟨0, k, b, rfl, rfl, hk, hb⟩
      · cases hj
  rw [append_assoc]
  exact ha.then_plain hmade

theorem function_adds (d : Nat) (params : List Text) {body : List Node} (h : p.Sourced S)
    (hb : ∀ {S : List (List Node)} {q : Program}, q.Sourced S → AddsAll S q body) :
    Adds S p (body :: bodiesAll body) (fun q f => f.Codes q (params.length + 2) []) (node d (.function params body)) := by
  refine (adds_loads h rfl params).first fun {a q} _ hs hp => ?_
  have hmade := adds_function (R := fun q f => f.Codes q (params.length + 2) []) hs params.length
    (fun k => a ++ k ++ .op .makeFn params.length) hb fun hle hlt hk => codes_function (hp.mono (.of_le hle)) hk hlt
  exact hmade

mutual

theorem node_adds (d : Nat) {S} {p : Program} : ∀ n, p.Sourced S →
    Adds S p n.bodies (fun q f => f.Codes q (n.size d) (n.ends d)) (node d n)
  | .ident name, h => (adds_intern h name).next fun _ hs hi => adds_pure hs (codes_ident rfl hi)
  | .assign l r, h => (node_adds d l h).pair (node_adds d r) 0 rfl
  | .construct type fs, h =>
    (fields_adds (d + 1) fs h).next fun _ hs hf => (adds_intern hs type).next fun hle hs hi =>
      adds_pure hs (((codes_opening d fs).append (hf.mono (.of_le hle))).then_site hi)
  | .array items, h => (nodes_adds d items h).thenOp items.length rfl
  | .call callee args, h => (node_adds d callee h).pair (nodes_adds d args) args.length rfl
  | .property object name, h => (node_adds d object h).thenIdent name rfl
  | .binary op l r, h =>
    (node_adds d l h).bind fun _ hs hl => (node_adds d r hs).next fun hle hs hr =>
      (adds_operator hs op).next fun hle' hs ho =>
        adds_pure hs (((hl.mono (.of_le (hle.trans hle'))).append (hr.mono (.of_le hle'))).then_plain ho)
  | .function params body, h => function_adds d params h (nodes_adds 0 body)
  | .structDef name fs, h => by
    have := (adds_loads (o := .addField) h rfl (fs.map (·.1))).thenIdent (o := .createStruct) name rfl
    rwa [List.length_map] at this
  | .variable type name, h =>
    (adds_intern h name).first fun _ hs hi => (adds_literal hs (isConstant_initial _ type)).next fun hle hs hk =>
      adds_pure hs (((codes_ident rfl (Idents.lookup?_mono hle.names hi)).append hk).then_plain (codes_plain 0 rfl))
  | .ret none, h => (adds_literal (v := .none) h trivial).thenOp 0 rfl
  | .ret (some v), h => (node_adds d v h).thenOp 0 rfl
  | .int n, h => adds_literal h trivial
  | .float x, h => adds_literal h trivial
  | .str s, h => adds_literal h trivial
  | .hole, h => adds_throw h .hole

theorem nodes_adds (d : Nat) {S} {p : Program} : ∀ ns, p.Sourced S →
    Adds S p (bodiesAll ns) (fun q f => f.Codes q (sizeAll d ns) (endsAll d ns)) (nodes d ns)
  | [], h => adds_pure h codes_empty
  | n :: ns, h =>
    (node_adds d n h).bind fun _ hs hn => (nodes_adds d ns hs).next fun hle hs hns =>
      adds_pure hs ((hn.mono (.of_le hle)).append hns)

theorem fields_adds (d : Nat) {S} {p : Program} : ∀ fs, p.Sourced S →
    Adds S p (bodiesFields fs) (fun q f => f.Codes q (sizeFields d fs) (endsFields d fs)) (fields d fs)
  | [], h => adds_pure h codes_empty
  | (name, n) :: fs, h =>
    (node_adds d n h).bind fun _ hs hn => (adds_intern hs name).first fun hle hs hi =>
      (fields_adds d fs hs).next fun hle' hs hf => adds_pure hs (by
        have hi := codes_ident (o := .storeField) rfl (Idents.lookup?_mono hle'.names hi)
        exact ((hn.mono (.of_le (hle.trans hle'))).then_plain hi).append hf)

end

end

section

variable {r : Except LowerError Unit × Program}

theorem Puts.grown (h : Puts S p id ns r) : p.Grown r.2 := by
  cases h with
  | done hle => exact (Grown.of_le hle).trans (.fill ..)
  | failed hle => exact .of_le hle

/-- Only the block that the trees are put into changes, and only if that succeeds. -/
theorem Puts.slots (h : Puts S p id ns r) {b : Nat} (hb : b < p.slots.length) (hid : r.1.isOk = true → b ≠ id) :
    r.2.slots[b]? = p.slots[b]? := by
  have hkept : ∀ {q : Program}, p.Le q → q.slots[b]? = p.slots[b]? := by
    intro q hle
    rw [getElem?_eq_getElem hb]
    exact getElem?_mono hle.slots (getElem?_eq_getElem hb)
  cases h with
  | failed hle => exact hkept hle
  | @done q s hle =>
    change (q.slots.set id s)[b]? = _
    rw [List.getElem?_set_ne (Ne.symm (hid rfl)), hkept hle]

theorem Puts.filled (h : Puts S p id ns r) (hok : r.1.isOk = true) {b : Nat} {s : Slot} (hb : p.slots.length ≤ b ∨ b = id)
    (hs : r.2.slots[b]? = some s) : s.code.isSome = true := by
  cases h with
  | failed => cases hok
  | @done q t hle _ hcode hf =>
    change (q.slots.set id t)[b]? = some s at hs
    by_cases hbid : b = id
    · subst hbid
      have hlt := (List.getElem?_eq_some_iff.mp hs).1
      rw [List.length_set] at hlt
      rw [List.getElem?_set_self hlt] at hs
      rwa [← Option.some.inj hs]
    · rw [List.getElem?_set_ne (Ne.symm hbid)] at hs
      exact hf b s (hb.resolve_right hbid) hs

/-- The blocks that are added are for the first of the functions. -/
theorem Puts.sourced (h : Puts S p id ns r) (hS : S.length = p.slots.length) :
    r.2.Sourced ((if r.1.isOk then S.set id ns else S) ++ (bodiesAll ns).take (r.2.slots.length - p.slots.length)) := by
  have htake : ∀ {q : Program} {T done : List (List Node)}, T.length = p.slots.length → done <+: bodiesAll ns →
      q.Sourced (T ++ done) → q.Sourced (T ++ (bodiesAll ns).take (q.slots.length - p.slots.length)) := by
    intro q T done hT hd hq
    have hlen := hq.length_eq
    rw [List.length_append] at hlen
    rwa [show q.slots.length - p.slots.length = done.length by omega, ← List.prefix_iff_eq_take.mp hd]
  cases h with
  | failed hle hd hs => exact htake hS hd hs
  | done hle hs => exact htake ((List.length_set ..).trans hS) prefix_rfl hs

end

end Lower

/-! ## Halving a list of sites -/

/-- The first position from `lo` on and before `hi` where a site is not before `pc`, or else `hi`. -/
def bisect (sites : List Nat) (pc : Int) (lo hi : Nat) : Nat :=
  if lo < hi then
    if (sites.getD ((lo + hi) / 2) 0 : Int) < pc then bisect sites pc ((lo + hi) / 2 + 1) hi
    else bisect sites pc lo ((lo + hi) / 2)
  else lo
termination_by hi - lo

def Slot.finds (s : Slot) (pc : Int) : Bool :=
  let sites := s.sites.getD []
  sites[bisect sites pc 0 sites.length]?.any fun (site : Nat) => site == pc

/-- All sites before the position are before `pc`, and those from there on are not. -/
def Splits (sites : List Nat) (pc : Int) (lo hi : Nat) : Prop :=
  ∀ k site : Nat, sites[k]? = some site → (k < lo → (site : Int) < pc) ∧ (hi ≤ k → pc ≤ site)

theorem splits_bisect {sites : List Nat} (ha : sites.Pairwise (· < ·)) {pc : Int} {lo hi : Nat} (hle : lo ≤ hi)
    (hlen : hi ≤ sites.length) (h : Splits sites pc lo hi) :
    Splits sites pc (bisect sites pc lo hi) (bisect sites pc lo hi) := by
  have hmono : ∀ {j k x y : Nat}, sites[j]? = some x → sites[k]? = some y → j ≤ k → x ≤ y := by
    intro j k x y hj hk hjk
    obtain ⟨hjl, rfl⟩ := List.getElem?_eq_some_iff.mp hj
    obtain ⟨hkl, rfl⟩ := List.getElem?_eq_some_iff.mp hk
    rcases Nat.eq_or_lt_of_le hjk with rfl | hlt
    · exact Nat.le_refl _
    · exact Nat.le_of_lt (List.pairwise_iff_getElem.mp ha j k hjl hkl hlt)
  fun_induction bisect sites pc lo hi with
  | case1 lo hi hlt hbefore ih =>
    refine ih (by omega) hlen fun k site hk => ⟨fun hlo => ?_, (h k site hk).2⟩
    have hm := getElem?_eq_getElem (show (lo + hi) / 2 < sites.length by omega)
    rw [List.getD_eq_getElem?_getD, hm, Option.getD_some] at hbefore
    have := hmono hk hm (by omega)
    omega
  | case2 lo hi hlt hbehind ih =>
    refine ih (by omega) (by omega) fun k site hk => ⟨(h k site hk).1, fun hhi => ?_⟩
    have hm := getElem?_eq_getElem (show (lo + hi) / 2 < sites.length by omega)
    rw [List.getD_eq_getElem?_getD, hm, Option.getD_some] at hbehind
    have := hmono hm hk hhi
    omega
  | case3 lo hi hge =>
    obtain rfl : lo = hi := by omega
    exact h

theorem Slot.finds_iff {s : Slot} (ha : (s.sites.getD []).Pairwise (· < ·)) (pc : Int) :
    s.finds pc = true ↔ ∃ site ∈ s.sites.getD [], (site : Int) = pc := by
  unfold finds
  generalize s.sites.getD [] = sites at ha
  have hsplit : Splits sites pc (bisect sites pc 0 sites.length) (bisect sites pc 0 sites.length) := by
    refine splits_bisect ha (Nat.zero_le _) (Nat.le_refl _) fun k site hk => ⟨by omega, fun hle => ?_⟩
    have := (List.getElem?_eq_some_iff.mp hk).1
    omega
  simp only [Option.any_eq_true, beq_iff_eq]
  constructor
  · rintro ⟨site, hk, hpc⟩
    exact ⟨site, List.mem_of_getElem? hk, hpc⟩
  · rintro ⟨site, hm, hpc⟩
    obtain ⟨k, hk⟩ := List.getElem?_of_mem hm
    have hk' := hsplit k site hk
    obtain hlt | rfl | hgt := Nat.lt_trichotomy k (bisect sites pc 0 sites.length)
    · have := hk'.1 hlt
      omega
    · exact ⟨site, hk, hpc⟩
    · -- The site at the split is before this one, and not before `pc`.
      have hlen := (List.getElem?_eq_some_iff.mp hk).1
      have hb := getElem?_eq_getElem (Nat.lt_trans hgt hlen)
      have hge := (hsplit _ _ hb).2 (Nat.le_refl _)
      have := List.pairwise_iff_getElem.mp ha _ k (Nat.lt_trans hgt hlen) hlen hgt
      have := (List.getElem?_eq_some_iff.mp hk).2
      omega

/-! ## Requests to the compiler -/

/-- Replacing the code of a block takes a block that there is. -/
theorem recompile_block {p q : Program} {b : Int} {ns : List Node} (h : p.recompile b ns = (.ok (), q)) :
    ∃ k : Nat, b = k ∧ k < p.slots.length := by
  unfold Program.recompile at h
  split at h
  · rename_i n
    split at h
    · rename_i hn
      exact ⟨n, rfl, hn⟩
    · cases h
  · cases h

inductive Edit where
  | compile (program : List Node)
  | recompile (block : Int) (program : List Node)

/-- The compiler at work: its program, and for every block the trees that it is for. -/
structure Compiler where
  program : Program := {}
  sources : List (List Node) := []

namespace Compiler

def accepts (c : Compiler) : Edit → Bool
  | .compile ns => (c.program.compile ns).1.isOk
  | .recompile b ns => (c.program.recompile b ns).1.isOk

def edited (c : Compiler) : Edit → Program
  | .compile ns => (c.program.compile ns).2
  | .recompile b ns => (c.program.recompile b ns).2

/-- A request is for a block of its own, or for one that exists, and for the blocks of the functions in it, which are
    reserved as the compiler comes to them. -/
def next (c : Compiler) (e : Edit) : Compiler where
  program := c.edited e
  sources :=
    let made := (c.edited e).slots.length - c.program.slots.length
    match e with
    | .compile ns => c.sources ++ (ns :: Node.bodiesAll ns).take made
    | .recompile b ns =>
      (if c.accepts e then c.sources.set b.toNat ns else c.sources) ++ (Node.bodiesAll ns).take made

def run (c : Compiler) (es : List Edit) : Compiler := es.foldl next c

def after (es : List Edit) : Compiler := run {} es

def Replaces (c : Compiler) (e : Edit) (b : Nat) : Prop :=
  c.accepts e = true ∧ ∃ ns, e = .recompile b ns

structure Follows (c : Compiler) (e : Edit) (d : Compiler) : Prop where
  grown : c.program.Grown d.program
  slots : ∀ b, b < c.program.slots.length → ¬ c.Replaces e b → d.program.slots[b]? = c.program.slots[b]?
  filled : c.accepts e = true → ∀ b s, c.program.slots.length ≤ b ∨ c.Replaces e b → d.program.slots[b]? = some s →
    s.code.isSome = true
  sourced : d.program.Sourced d.sources

section

variable {c : Compiler}

theorem compile_follows (h : c.program.Sourced c.sources) (ns : List Node) :
    c.Follows (.compile ns) (c.next (.compile ns)) := by
  have hr := h.reserve ns
  have hle : c.program.Le c.program.reserve.2 := ⟨prefix_rfl, prefix_rfl, prefix_append _ _⟩
  have hlen : c.program.reserve.2.slots.length = c.program.slots.length + 1 := by simp [Program.reserve]
  have hputs : Puts (c.sources ++ [ns]) c.program.reserve.2 c.program.slots.length ns
      (result (into c.program.slots.length ns) c.program.reserve.2) :=
    into_puts hr (by omega) (nodes_adds 0 ns hr)
  have hedited : c.edited (.compile ns) =
      (result (into c.program.slots.length ns) c.program.reserve.2).2 := by
    rw [edited, compile_eq]
    rcases result (into c.program.slots.length ns) c.program.reserve.2 with ⟨_ | _, q⟩ <;> rfl
  have haccepts : c.accepts (.compile ns) =
      (result (into c.program.slots.length ns) c.program.reserve.2).1.isOk := by
    rw [accepts, compile_eq]
    rcases result (into c.program.slots.length ns) c.program.reserve.2 with ⟨_ | _, q⟩ <;> rfl
  generalize result (into c.program.slots.length ns) c.program.reserve.2 = r at hputs hedited haccepts
  have hgrown := hputs.grown
  have hnot : ∀ b, ¬ c.Replaces (.compile ns) b := by
    rintro b ⟨-, ms, e⟩
    cases e
  unfold next
  rw [hedited]
  refine ⟨(Grown.of_le hle).trans hgrown, ?_, ?_, ?_⟩
  · intro b hb _
    rw [hputs.slots (by omega) fun _ => Nat.ne_of_lt hb]
    exact List.getElem?_append_left hb
  · intro hok b s hb hs
    have hb := hb.resolve_right (hnot b)
    exact hputs.filled (haccepts ▸ hok) (by omega) hs
  · have hs := hputs.sourced hr.length_eq
    have hset : (c.sources ++ [ns]).set c.program.slots.length ns = c.sources ++ [ns] := by simp [← h.length_eq]
    rw [hset, ite_self, List.append_assoc] at hs
    have hslots := hgrown.slots
    rwa [show r.2.slots.length - c.program.slots.length = r.2.slots.length - c.program.reserve.2.slots.length + 1 by omega]

theorem recompile_follows (h : c.program.Sourced c.sources) (b : Int) (ns : List Node) :
    c.Follows (.recompile b ns) (c.next (.recompile b ns)) := by
  by_cases hb : ∃ n : Nat, b = n ∧ n < c.program.slots.length
  · obtain ⟨n, rfl, hn⟩ := hb
    have hputs : Puts c.sources c.program n ns (c.program.recompile n ns) := by
      have : c.program.recompile n ns = result (into n ns) c.program := if_pos hn
      rw [this]
      exact into_puts h hn (nodes_adds 0 ns h)
    have hreplaces : ∀ d, (c.program.recompile n ns).1.isOk = true → (c.Replaces (.recompile n ns) d ↔ d = n) := by
      intro d hok
      constructor
      · rintro ⟨-, ms, e⟩
        injection e with e
        omega
      · rintro rfl
        exact ⟨hok, ns, rfl⟩
    refine ⟨hputs.grown, ?_, ?_, ?_⟩
    · intro d hd hnot
      exact hputs.slots hd fun hok e => hnot ((hreplaces d hok).mpr e)
    · intro hok d s hd hs
      exact hputs.filled hok (hd.imp id (hreplaces d hok).mp) hs
    · exact hputs.sourced h.length_eq
  · -- There is no such block, so nothing happens.
    have hsame : ∃ e, c.program.recompile b ns = (.error e, c.program) := by
      cases b with
      | negSucc n => exact ⟨_, rfl⟩
      | ofNat n => exact ⟨_, if_neg fun hn => hb ⟨n, rfl, hn⟩⟩
    obtain ⟨e, hsame⟩ := hsame
    have hedited : c.edited (.recompile b ns) = c.program := by rw [edited, hsame]
    have haccepts : c.accepts (.recompile b ns) = false := by
      rw [accepts, hsame]
      rfl
    unfold next
    rw [hedited, haccepts]
    refine ⟨.refl _, fun _ _ _ => rfl, fun hok => ?_, ?_⟩
    · rw [haccepts] at hok
      cases hok
    · simpa using h

/-- The block was made from the trees, and has code. -/
def Has (c : Compiler) (b : Nat) (ns : List Node) : Prop :=
  c.sources[b]? = some ns ∧ ∃ s, c.program.slots[b]? = some s ∧ s.code.isSome = true

/-- A block that has to be filled, and is there, has the code of its trees. -/
theorem Follows.has {d : Compiler} {e : Edit} {b : Nat} {ns : List Node} (h : c.Follows e d) (hok : c.accepts e = true)
    (hnew : c.program.slots.length ≤ b ∨ c.Replaces e b) (hb : b < d.program.slots.length) (hs : d.sources[b]? = some ns) :
    d.Has b ns :=
  ⟨hs, _, getElem?_eq_getElem hb, h.filled hok b _ hnew (getElem?_eq_getElem hb)⟩

/-- Compiling gives the number of the block, which is the next one. -/
theorem compile_has (h : c.program.Sourced c.sources) {ns : List Node} {id : Nat} {q : Program}
    (hc : c.program.compile ns = (.ok id, q)) : id = c.program.slots.length ∧ (c.next (.compile ns)).program = q ∧
      (c.next (.compile ns)).Has id ns := by
  obtain ⟨rfl, hlt⟩ := compile_entry hc
  have hok : c.accepts (.compile ns) = true := by
    rw [accepts, hc]
    rfl
  obtain rfl : c.edited (.compile ns) = q := congrArg Prod.snd hc
  refine ⟨rfl, rfl, (compile_follows h ns).has hok (.inl (Nat.le_refl _)) hlt ?_⟩
  obtain ⟨k, hk⟩ : ∃ k, (c.edited (.compile ns)).slots.length - c.program.slots.length = k + 1 :=
    Nat.exists_eq_succ_of_ne_zero (by omega)
  change (c.sources ++ (ns :: Node.bodiesAll ns).take _)[c.program.slots.length]? = some ns
  rw [hk, ← h.length_eq, List.getElem?_append_right (Nat.le_refl _), Nat.sub_self]
  rfl

theorem recompile_has (h : c.program.Sourced c.sources) {b : Int} {ns : List Node}
    (hok : c.accepts (.recompile b ns) = true) :
    ∃ k : Nat, b = k ∧ k < c.program.slots.length ∧ (c.next (.recompile b ns)).Has k ns := by
  obtain ⟨k, rfl, hk⟩ : ∃ k : Nat, b = k ∧ k < c.program.slots.length := by
    rcases hr : c.program.recompile b ns with ⟨_ | _, q⟩
    · rw [accepts, hr] at hok
      cases hok
    · exact recompile_block hr
  have hfollows := recompile_follows h k ns
  have hlt := Nat.lt_of_lt_of_le hk hfollows.grown.slots
  refine ⟨k, rfl, hk, hfollows.has hok (.inr ⟨hok, ns, rfl⟩) hlt ?_⟩
  have hset : k < (c.sources.set k ns).length := by
    rw [List.length_set, h.length_eq]
    exact hk
  simp only [next, hok, if_true, Int.toNat_natCast]
  rw [List.getElem?_append_left hset, List.getElem?_set_self (by simpa using hset)]

/-- Every request follows the rules, whether it succeeds or not. -/
theorem next_follows (h : c.program.Sourced c.sources) (e : Edit) : c.Follows e (c.next e) := by
  cases e with
  | compile ns => exact compile_follows h ns
  | recompile b ns => exact recompile_follows h b ns

end

theorem run_append (c : Compiler) (es fs : List Edit) : c.run (es ++ fs) = (c.run es).run fs := List.foldl_append

theorem after_append (es fs : List Edit) : after (es ++ fs) = (after es).run fs := run_append {} es fs

variable {c : Compiler} {b : Int}

theorem run_sourced (h : c.program.Sourced c.sources) (es : List Edit) :
    (c.run es).program.Sourced (c.run es).sources := by
  induction es generalizing c with
  | nil => exact h
  | cons e es ih => exact ih (next_follows h e).sourced

theorem after_sourced (es : List Edit) : (after es).program.Sourced (after es).sources :=
  run_sourced ⟨.nil, by simp⟩ es

/-- Requests keep the tables, but for the blocks that they replace. -/
theorem run_keeps (h : c.program.Sourced c.sources) (es : List Edit) :
    c.program.Grown (c.run es).program ∧
      ∀ b, b < c.program.slots.length → (∀ fs e gs, es = fs ++ e :: gs → ¬ (c.run fs).Replaces e b) →
        (c.run es).program.slots[b]? = c.program.slots[b]? := by
  induction es generalizing c with
  | nil => exact ⟨.refl _, fun _ _ _ => rfl⟩
  | cons e es ih =>
    have hstep := next_follows h e
    obtain ⟨hgrown, hslots⟩ := ih hstep.sourced
    refine ⟨hstep.grown.trans hgrown, fun b hb hnot => ?_⟩
    have hb' := Nat.lt_of_lt_of_le hb hstep.grown.slots
    rw [run, List.foldl_cons]
    refine (hslots b hb' fun fs f gs hfs => ?_).trans (hstep.slots b hb (hnot [] e es rfl))
    exact hnot (e :: fs) f gs (by rw [hfs, List.cons_append])

/-! ## Well-formed tables -/

/-- The instruction completes a struct instance of a type, in the trees that its block has the code of. -/
def Completes (c : Compiler) (b pc : Int) (type : Text) : Prop :=
  ∃ (n k : Nat) (s : Slot) (ns : List Node), b = n ∧ pc = k ∧ c.program.slots[n]? = some s ∧ s.code.isSome = true ∧
    c.sources[n]? = some ns ∧ (k, type) ∈ Node.endsAll 0 ns

structure WellFormed (c : Compiler) : Prop where
  /-- Names and numbers are inverse to each other. -/
  lookup : ∀ name id, c.program.idents.lookup? name = some id ↔ id < c.program.idents.size ∧ c.program.name id = name
  /-- A name that is known keeps its number, and another one gets the next. -/
  intern : ∀ name, (c.program.intern name).2.idents.lookup? name = some (c.program.intern name).1 ∧
    (c.program.intern name).2.idents.names =
      if name ∈ c.program.idents.names then c.program.idents.names else c.program.idents.names ++ [name]
  refers : ∀ b code, c.program.block? b = some code → ∀ i ∈ code, i.Refers c.program
  prepares : ∀ b code, c.program.block? b = some code → ∀ k i, code[k]? = some i → i.op = .makeFn →
    code.Prepares c.program k i.arg
  /-- The instructions that complete struct instances are known as such. -/
  constructors : ∀ b pc, c.program.isConstructor b pc = true ↔ ∃ type, c.Completes b pc type
  completes : ∀ b pc type, c.Completes b pc type → ∃ code id, c.program.block? b = some code ∧
    code[pc.toNat]? = some ⟨.loadIdent, id⟩ ∧ c.program.name id = type
  ascending : ∀ b sites, c.program.sites? b = some sites → sites.Pairwise (· < ·)
  /-- They are found by halving. -/
  finds : ∀ (b : Nat) s, c.program.slots[b]? = some s → ∀ pc, s.finds pc = c.program.isConstructor b pc
  verifies : ∀ entry, (c.program.slot? entry).isSome = true →
    ∃ i, Image.ofProgram c.program entry = .ok i ∧ i.verify = .ok ()

theorem slot_of_block? {code : Block} (h : p.block? b = some code) :
    ∃ (n : Nat) (s : Slot), b = n ∧ p.slots[n]? = some s ∧ code = s.code.getD [] := by
  obtain ⟨s, hs, rfl⟩ := Option.map_eq_some_iff.mp h
  cases b with
  | ofNat n => exact ⟨n, s, rfl, hs, rfl⟩
  | negSucc n => cases hs

theorem slot_of_sites? {sites : List Nat} (h : p.sites? b = some sites) :
    ∃ (n : Nat) (s : Slot), b = n ∧ p.slots[n]? = some s ∧ s.sites = some sites := by
  obtain ⟨s, hs, hsites⟩ := Option.bind_eq_some_iff.mp h
  cases b with
  | ofNat n => exact ⟨n, s, rfl, hs, hsites⟩
  | negSucc n => cases hs

theorem isConstructor_iff {pc : Int} :
    p.isConstructor b pc = true ↔
      ∃ (n k : Nat) (s : Slot), b = n ∧ pc = k ∧ p.slots[n]? = some s ∧ k ∈ s.sites.getD [] := by
  constructor
  · intro h
    cases hs : p.sites? b with
    | none =>
      rw [isConstructor, hs] at h
      cases h
    | some sites =>
      obtain ⟨n, s, rfl, hn, hsites⟩ := slot_of_sites? hs
      rw [isConstructor, hs, Option.getD_some, List.any_eq_true] at h
      obtain ⟨k, hk, hpc⟩ := h
      exact ⟨n, k, s, rfl, (beq_iff_eq.mp hpc).symm, hn, by rwa [hsites]⟩
  · rintro ⟨n, k, s, rfl, rfl, hs, hk⟩
    rw [isConstructor_of_slot hs]
    simpa using hk

theorem wellFormed_of_sourced (h : c.program.Sourced c.sources) : c.WellFormed where
  lookup name id := by
    rw [Idents.lookup?_eq_some]
    change _ ↔ id < c.program.idents.names.length ∧ c.program.idents.names.getD id [] = name
    rw [List.getElem?_eq_some_iff, List.getD_eq_getElem?_getD]
    constructor
    · rintro ⟨hid, hn⟩
      exact ⟨hid, by rw [getElem?_eq_getElem hid, hn]; rfl⟩
    · rintro ⟨hid, hn⟩
      rw [getElem?_eq_getElem hid] at hn
      exact ⟨hid, hn⟩
  intern name := ⟨(c.program.idents.intern_spec name).2, c.program.idents.names_intern name⟩
  refers b code hb i hi := by
    obtain ⟨n, s, -, hs, rfl⟩ := slot_of_block? hb
    obtain ⟨ns, -, hh⟩ := h.holds hs
    exact hh.refers i hi
  prepares b code hb k i hi ho := by
    obtain ⟨n, s, -, hs, rfl⟩ := slot_of_block? hb
    obtain ⟨ns, -, hh⟩ := h.holds hs
    exact hh.prepares hi ho
  constructors b pc := by
    rw [isConstructor_iff]
    constructor
    · rintro ⟨n, k, s, rfl, rfl, hs, hk⟩
      obtain ⟨ns, hns, hh⟩ := h.holds hs
      obtain ⟨hc, type, ht⟩ := hh.mem_sites.mp hk
      exact ⟨type, n, k, s, ns, rfl, rfl, hs, hc, hns, ht⟩
    · rintro ⟨type, n, k, s, ns, rfl, rfl, hs, hc, hns, ht⟩
      obtain ⟨ms, hms, hh⟩ := h.holds hs
      obtain rfl : ns = ms := Option.some.inj (hns.symm.trans hms)
      exact ⟨n, k, s, rfl, rfl, hs, hh.mem_sites.mpr ⟨hc, type, ht⟩⟩
  completes b pc type := by
    rintro ⟨n, k, s, ns, rfl, rfl, hs, hc, hns, ht⟩
    obtain ⟨ms, hms, hh⟩ := h.holds hs
    obtain rfl : ns = ms := Option.some.inj (hns.symm.trans hms)
    obtain ⟨id, hid, hi⟩ := hh.completes hc ht
    exact ⟨s.code.getD [], id, block?_of_slot hs, hi, Idents.name_of_lookup? hid⟩
  ascending b sites hb := by
    obtain ⟨n, s, -, hs, hsites⟩ := slot_of_sites? hb
    obtain ⟨ns, -, hh⟩ := h.holds hs
    have := hh.isOrdered.ascending
    rwa [hsites] at this
  finds b s hs pc := by
    obtain ⟨ns, -, hh⟩ := h.holds hs
    rw [Bool.eq_iff_iff, Slot.finds_iff hh.isOrdered.ascending, isConstructor_iff]
    constructor
    · rintro ⟨k, hk, rfl⟩
      exact ⟨b, k, s, rfl, rfl, hs, hk⟩
    · rintro ⟨n, k, t, hn, rfl, ht, hk⟩
      obtain rfl : b = n := by omega
      obtain rfl : s = t := Option.some.inj (hs.symm.trans ht)
      exact ⟨k, hk, rfl⟩
  verifies entry he := by
    obtain ⟨n, rfl, hn⟩ := exists_of_slot? he
    obtain ⟨cs, -, hi⟩ := h.image hn
    exact ⟨_, hi, Image.verify_holding h.isOrdered hn⟩

/-- However a program was compiled, its tables are well formed. Later requests, whether they succeed or not, keep what
    the tables hold, but for the blocks that they replace, and those that succeed leave no block without code. What is
    compiled gets the next block, and its trees are those of the block then, as with code that is replaced. -/
theorem tables_well_formed (es fs : List Edit) :
    (after es).WellFormed ∧ (after es).program.Grown (after (es ++ fs)).program ∧
      (∀ b, b < (after es).program.slots.length →
        (∀ gs e hs, fs = gs ++ e :: hs → ¬ (after (es ++ gs)).Replaces e b) →
          (after (es ++ fs)).program.slots[b]? = (after es).program.slots[b]?) ∧
      (∀ e, (after es).accepts e = true → ∀ b s, (after es).program.slots.length ≤ b ∨ (after es).Replaces e b →
        ((after es).next e).program.slots[b]? = some s → s.code.isSome = true) ∧
      (∀ ns id q, (after es).program.compile ns = (.ok id, q) → id = (after es).program.slots.length ∧
        ((after es).next (.compile ns)).program = q ∧ ((after es).next (.compile ns)).Has id ns) ∧
      ∀ b ns, (after es).accepts (.recompile b ns) = true → ∃ k : Nat, b = k ∧ k < (after es).program.slots.length ∧
        ((after es).next (.recompile b ns)).Has k ns := by
  have hsourced := after_sourced es
  obtain ⟨hgrown, hslots⟩ := run_keeps hsourced fs
  refine ⟨wellFormed_of_sourced hsourced, ?_, fun b hb hnot => ?_, fun e => (next_follows hsourced e).filled,
    fun _ _ _ => compile_has hsourced, fun _ _ => recompile_has hsourced⟩
  · rwa [after_append]
  · rw [after_append]
    refine hslots b hb fun gs e hs hfs => ?_
    rw [← after_append]
    exact hnot gs e hs hfs

/-- An instance without fields opens a group of its own; the one around it needs none. -/
example (a b x : Text) : endsAll 0 [.construct a [(x, .construct b [])]] = [(1, b), (3, a)] := rfl

end Compiler

end Scriptlet

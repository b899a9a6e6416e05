/-
  Scriptlet.Proofs.Numbering — compiling with other names in the tables.

  The same program is compiled twice, once into tables that have given out numbers for more names
  before. All that differs are the numbers of identifiers: both programs have the same constants, and
  their blocks are alike, instruction by instruction (`Program.Paired`). Compiling a node keeps it that
  way (`Lower.node_pairs`), and so does compiling a whole program (`Lower.compile_pairs`). The program
  compiled into empty tables can be stored.
-/

import Mathlib.Data.List.Forall2
import Scriptlet.Proofs.Parsing
import Scriptlet.Proofs.Relabeling
import Scriptlet.Proofs.Storing

namespace Scriptlet

/-! ## Code that is alike -/

inductive Instr.Alike (t u : Idents) : Instr → Instr → Prop
  | named {o : Op} {name : Text} {i j : Nat} : o.namesIdent = true → t.lookup? name = some i → u.lookup? name = some j →
      Alike t u ⟨o, i⟩ ⟨o, j⟩
  | plain {o : Op} (arg : Int) : o.namesIdent = false → Alike t u ⟨o, arg⟩ ⟨o, arg⟩

variable {name : Text}

section

variable {t u t' u' : Idents}

theorem Instr.Alike.mono {i j : Instr} (h : Instr.Alike t u i j) (ht : t.names <+: t'.names) (hu : u.names <+: u'.names) :
    Instr.Alike t' u' i j := by
  cases h with
  | named ho hi hj => exact .named ho (Idents.lookup?_mono ht hi) (Idents.lookup?_mono hu hj)
  | plain arg ho => exact .plain arg ho

namespace Fragment

structure Alike (t u : Idents) (a b : Fragment) : Prop where
  code : List.Forall₂ (Instr.Alike t u) a.code b.code
  sites : b.sites = a.sites
  ascending : a.sites.Pairwise (· < ·)
  loads : ∀ k ∈ a.sites, (b.code[k]?.map (·.op)) = some .loadIdent

variable {a b c d : Fragment}

theorem Alike.mono (h : Alike t u a b) (ht : t.names <+: t'.names) (hu : u.names <+: u'.names) : Alike t' u' a b :=
  ⟨h.code.imp fun _ _ hi => hi.mono ht hu, h.sites, h.ascending, h.loads⟩

theorem Alike.site_lt (h : Alike t u a b) {k : Nat} (hk : k ∈ a.sites) : k < a.code.length := by
  have hl := h.loads k hk
  rw [h.code.length_eq]
  by_contra hlt
  rw [List.getElem?_eq_none (Nat.le_of_not_lt hlt)] at hl
  cases hl

theorem Alike.append (h : Alike t u a b) (k : Alike t u c d) : Alike t u (a ++ c) (b ++ d) := by
  have hlen := h.code.length_eq
  refine ⟨List.rel_append h.code k.code, ?_, ?_, ?_⟩
  · change b.sites ++ d.sites.map (b.code.length + ·) = a.sites ++ c.sites.map (a.code.length + ·)
    rw [h.sites, k.sites, hlen]
  · change (a.sites ++ c.sites.map (a.code.length + ·)).Pairwise (· < ·)
    rw [List.pairwise_append]
    refine ⟨h.ascending, ?_, ?_⟩
    · rw [List.pairwise_map]
      exact k.ascending.imp fun hlt => by omega
    · intro i hi j hj
      obtain ⟨j', -, rfl⟩ := List.mem_map.mp hj
      have := h.site_lt hi
      omega
  · intro i hi
    change ((b.code ++ d.code)[i]?.map (·.op)) = _
    rcases List.mem_append.mp hi with hi | hi
    · have hlt : i < b.code.length := hlen ▸ h.site_lt hi
      rw [List.getElem?_append_left hlt]
      exact h.loads i hi
    · obtain ⟨j, hj, rfl⟩ := List.mem_map.mp hi
      rw [hlen, List.getElem?_append_right (by omega), Nat.add_sub_cancel_left]
      exact k.loads j hj

theorem alike_empty : Alike t u .empty .empty := ⟨.nil, rfl, .nil, by simp [empty]⟩

theorem alike_op {o : Op} (ho : o.namesIdent = false) (n : Nat) : Alike t u (.op o n) (.op o n) :=
  ⟨.cons (.plain n ho) .nil, rfl, .nil, by simp [op, of]⟩

theorem alike_named {o : Op} {i j : Nat} (ho : o.namesIdent = true)
    (h : t.lookup? name = some i ∧ u.lookup? name = some j) : Alike t u (.op o i) (.op o j) :=
  ⟨.cons (.named ho h.1 h.2) .nil, rfl, .nil, by simp [op, of]⟩

theorem alike_site {i j : Nat} (h : t.lookup? name = some i ∧ u.lookup? name = some j) :
    Alike t u (.site i) (.site j) :=
  ⟨.cons (.named rfl h.1 h.2) .nil, rfl, List.pairwise_singleton _ _, by simp [site]⟩

end Fragment

structure Slot.Alike (t u : Idents) (a b : Slot) : Prop where
  code : List.Forall₂ (Instr.Alike t u) (a.code.getD []) (b.code.getD [])
  sites : b.sites = a.sites
  ordered : b.IsOrdered

theorem Slot.Alike.mono {a b : Slot} (h : Slot.Alike t u a b) (ht : t.names <+: t'.names) (hu : u.names <+: u'.names) :
    Slot.Alike t' u' a b :=
  ⟨h.code.imp fun _ _ hi => hi.mono ht hu, h.sites, h.ordered⟩

theorem Slot.alike_empty : Slot.Alike t u {} {} := ⟨.nil, rfl, .nil, by simp⟩

theorem Fragment.Alike.toSlot {a b : Fragment} (h : Fragment.Alike t u a b) : Slot.Alike t u a.toSlot b.toSlot := by
  have hsites : b.toSlot.sites.getD [] = a.sites := by
    rw [Fragment.toSlot, h.sites]
    cases a.sites <;> rfl
  refine ⟨h.code, ?_, ?_, ?_⟩
  · rw [Fragment.toSlot, Fragment.toSlot, h.sites]
  · rw [hsites]
    exact h.ascending
  · rw [hsites]
    exact h.loads

end

/-! ## Programs that are alike -/

/-- The programs differ in the numbers of identifiers alone, of which the first has those of `base`, too. The
    names and constants of the second can be stored. -/
structure Program.Paired (base : List Text) (p q : Program) : Prop where
  names : ∀ name, name ∈ p.idents.names ↔ name ∈ base ∨ name ∈ q.idents.names
  consts : q.consts = p.consts
  slots : List.Forall₂ (Slot.Alike p.idents q.idents) p.slots q.slots
  valid : ∀ name ∈ q.idents.names, name.isValid = true
  storable : ∀ v ∈ q.consts, v.isStorable = true

theorem Program.Paired.isStorable {base : List Text} {p q : Program} (h : p.Paired base q) : q.IsStorable := by
  refine ⟨h.valid, h.storable, fun s hs => ?_⟩
  obtain ⟨k, hk, rfl⟩ := List.mem_iff_getElem.mp hs
  have hlen := h.slots.length_eq
  exact ((List.forall₂_iff_get.mp h.slots).2 k (hlen ▸ hk) hk).ordered

/-! ## Trees whose names and literals can be stored -/

namespace Node

def isPortable : Node → Bool
  | .ident name => name.isValid
  | .float x => (Value.float x).isStorable
  | .str s => (Value.str s).isStorable
  | _ => true

theorem leaf_of_parsed {n leaf : Node} (h : n.isParsed isPortable = true) (hl : leaf ∈ n.leaves) :
    leaf.isPortable = true := by
  simp only [isParsed, Bool.and_eq_true, List.all_eq_true] at h
  exact h.2 leaf hl

theorem valid_of_parsed {n : Node} (h : n.isParsed isPortable = true) : ∀ name ∈ n.names, name.isValid = true := by
  intro name hm
  have hl : Node.ident name ∈ n.leaves := by
    cases n with
    | int | float | str => cases hm
    | _ => exact List.mem_map_of_mem hm
  exact leaf_of_parsed h hl

end Node

namespace Lower

open Fragment (Alike alike_op alike_named alike_empty)

section

variable {α β : Type} {base : List Text} {p q : Program}

/-- Both computations succeed, with results that are related and programs that are alike. -/
def Pairs (base : List Text) (p q : Program) (R : Idents → Idents → α → α → Prop) (x y : Lower α) : Prop :=
  ∃ a b p' q', Gives x p a p' ∧ Gives y q b q' ∧ p.idents.names <+: p'.idents.names ∧ q.idents.names <+: q'.idents.names ∧
    p'.Paired base q' ∧ R p'.idents q'.idents a b

theorem pairs_pure {R : Idents → Idents → α → α → Prop} {a b : α} (h : p.Paired base q) (hr : R p.idents q.idents a b) :
    Pairs base p q R (pure a) (pure b) :=
  ⟨a, b, p, q, rfl, rfl, List.prefix_rfl, List.prefix_rfl, h, hr⟩

theorem Pairs.bind {R : Idents → Idents → α → α → Prop} {S : Idents → Idents → β → β → Prop} {x y : Lower α}
    {k l : α → Lower β} (hx : Pairs base p q R x y)
    (hk : ∀ {a b : α} {p' q' : Program}, p.idents.names <+: p'.idents.names → q.idents.names <+: q'.idents.names →
      p'.Paired base q' → R p'.idents q'.idents a b → Pairs base p' q' S (k a) (l b)) :
    Pairs base p q S (x >>= k) (y >>= l) := by
  obtain ⟨a, b, p', q', ha, hb, hp, hq, h, hr⟩ := hx
  obtain ⟨c, d, p'', q'', hc, hd, hp', hq', h', hs⟩ := hk hp hq h hr
  exact ⟨c, d, p'', q'', gives_bind.mpr ⟨a, p', ha, hc⟩, gives_bind.mpr ⟨b, q', hb, hd⟩, hp.trans hp', hq.trans hq', h', hs⟩

/-! ## The parts of the compiler -/

def Number (name : Text) (t u : Idents) (i j : Nat) : Prop := t.lookup? name = some i ∧ u.lookup? name = some j

section

variable (h : p.Paired base q)

include h

theorem pairs_intern (hn : name.isValid = true) : Pairs base p q (Number name) (intern name) (intern name) := by
  obtain ⟨hp, hi⟩ := p.idents.intern_spec name
  obtain ⟨hq, hj⟩ := q.idents.intern_spec name
  refine ⟨_, _, (p.intern name).2, (q.intern name).2, rfl, rfl, hp, hq, ?_, hi, hj⟩
  refine ⟨fun other => ?_, h.consts, h.slots.imp fun _ _ hs => hs.mono hp hq, fun other ho => ?_, h.storable⟩
  · change other ∈ (p.idents.intern name).2.names ↔ _ ∨ other ∈ (q.idents.intern name).2.names
    rw [Idents.mem_intern, Idents.mem_intern, h.names, or_assoc]
  · rcases Idents.mem_intern.mp ho with ho | rfl
    · exact h.valid other ho
    · exact hn

theorem pairs_constant {v : Value} (hv : v.isStorable = true) : Pairs base p q Alike (constant v) (constant v) := by
  refine ⟨_, _, (p.addConst v).2, (q.addConst v).2, rfl, rfl, List.prefix_rfl, List.prefix_rfl, ?_, ?_⟩
  · refine ⟨h.names, congrArg (· ++ [v]) h.consts, h.slots, h.valid, fun w hw => ?_⟩
    rcases List.mem_append.mp hw with hw | hw
    · exact h.storable w hw
    · rwa [List.mem_singleton.mp hw]
  · rw [h.consts]
    exact alike_op rfl _

theorem pairs_operator {op : Operator} {l r : Node} (ho : (Node.binary op l r).isWhole = true) :
    Pairs base p q Alike (operator op) (operator op) := by
  cases op with
  | other b => cases ho
  | _ => exact pairs_pure h (alike_op rfl 0)

theorem pairs_loads {o : Op} (ho : o.namesIdent = true) {names : List Text}
    (hn : ∀ name ∈ names, name.isValid = true) : Pairs base p q Alike (loads o names) (loads o names) := by
  induction names generalizing p q with
  | nil => exact pairs_pure h alike_empty
  | cons name names ih =>
    refine (pairs_intern h (hn name List.mem_cons_self)).bind fun _ _ h hi => ?_
    refine (ih h fun other hm => hn other (List.mem_cons_of_mem name hm)).bind fun hp hq h ha => ?_
    exact pairs_pure h (((alike_named ho hi).mono hp hq).append ha)

theorem pairs_reserve :
    Pairs base p q (fun _ _ a b => a = p.slots.length ∧ b = p.slots.length) (modifyGet (·.reserve) : Lower Nat)
      (modifyGet (·.reserve)) := by
  refine ⟨_, _, p.reserve.2, q.reserve.2, rfl, rfl, List.prefix_rfl, List.prefix_rfl, ?_, rfl, h.slots.length_eq.symm⟩
  exact ⟨h.names, h.consts, List.rel_append h.slots (.cons Slot.alike_empty .nil), h.valid, h.storable⟩

theorem pairs_fill (id : Nat) {a b : Fragment} (hs : Alike p.idents q.idents a b) :
    Pairs base p q (fun _ _ _ _ => True) (modify (·.fill id a.toSlot)) (modify (·.fill id b.toSlot)) := by
  refine ⟨_, _, p.fill id a.toSlot, q.fill id b.toSlot, rfl, rfl, List.prefix_rfl, List.prefix_rfl, ?_, trivial⟩
  refine ⟨h.names, h.consts, ?_, h.valid, h.storable⟩
  change List.Forall₂ _ (p.slots.set id a.toSlot) (q.slots.set id b.toSlot)
  have hlen := h.slots.length_eq
  rw [List.forall₂_iff_get]
  refine ⟨by simpa using hlen, fun k hk hk' => ?_⟩
  simp only [List.get_eq_getElem, List.getElem_set]
  split
  · exact hs.toSlot
  · simp only [List.length_set] at hk hk'
    exact (List.forall₂_iff_get.mp h.slots).2 k hk hk'

end

/-! ## Whole trees -/

theorem isStorable_initial (type : Text) : (initial type).isStorable = true := by
  unfold initial
  repeat' split
  all_goals rfl

/-- The code of the node is the same but for the numbers of identifiers, whatever numbers there are already. -/
def NodePairs (base : List Text) (n : Node) : Prop :=
  ∀ {d} {p q : Program}, p.Paired base q → Pairs base p q Alike (node d n) (node d n)

theorem nodes_pairs {d : Nat} {ns : List Node} (hns : ∀ n ∈ ns, NodePairs base n) (h : p.Paired base q) :
    Pairs base p q Alike (nodes d ns) (nodes d ns) := by
  induction ns generalizing p q with
  | nil => exact pairs_pure h alike_empty
  | cons n ns ih =>
    rw [List.forall_mem_cons] at hns
    refine (hns.1 h).bind fun _ _ h ha => ?_
    exact (ih hns.2 h).bind fun hp hq h hb => pairs_pure h ((ha.mono hp hq).append hb)

theorem fields_pairs {d : Nat} {fs : List (Text × Node)} (hfs : ∀ n ∈ fs.map (·.2), NodePairs base n)
    (hv : ∀ name ∈ fs.map (·.1), name.isValid = true) (h : p.Paired base q) :
    Pairs base p q Alike (fields d fs) (fields d fs) := by
  induction fs generalizing p q with
  | nil => exact pairs_pure h alike_empty
  | cons f fs ih =>
    rw [List.map_cons, List.forall_mem_cons] at hfs hv
    refine (hfs.1 h).bind fun _ _ h ha => ?_
    refine (pairs_intern h hv.1).bind fun hp hq h hi => ?_
    refine (ih hfs.2 hv.2 h).bind fun hp' hq' h hb => ?_
    have hs := (ha.mono hp hq).append (alike_named (o := .storeField) rfl hi)
    exact pairs_pure h ((hs.mono hp' hq').append hb)

theorem node_pairs : ∀ n : Node, n.every (Node.isParsed Node.isPortable) = true → NodePairs base n := by
  refine Node.induction_every fun n hn ih d p q h => ?_
  have hnames := Node.valid_of_parsed hn
  cases n with
  | ident name => exact (pairs_intern h (hnames name (.head _))).bind fun _ _ h hi => pairs_pure h (alike_named rfl hi)
  | assign l r =>
    refine (ih l (.head _) h).bind fun _ _ h ha => (ih r (.tail _ (.head _)) h).bind fun hp hq h hb => ?_
    exact pairs_pure h (((ha.mono hp hq).append hb).append (alike_op rfl 0))
  | construct type fs =>
    refine (fields_pairs ih (fun name hf => hnames name (.tail _ hf)) h).bind fun _ _ h ha => ?_
    refine (pairs_intern h (hnames type (.head _))).bind fun hp hq h hi => ?_
    refine pairs_pure h ((Alike.append ?_ (ha.mono hp hq)).append (Fragment.alike_site hi))
    split
    · exact alike_empty
    · exact alike_op rfl 0
  | array items =>
    exact (nodes_pairs ih h).bind fun _ _ h ha => pairs_pure h (ha.append (alike_op rfl items.length))
  | call callee args =>
    refine (ih callee (.head _) h).bind fun _ _ h ha => ?_
    refine (nodes_pairs (fun n hn => ih n (.tail _ hn)) h).bind fun hp hq h hb => ?_
    exact pairs_pure h (((ha.mono hp hq).append hb).append (alike_op rfl args.length))
  | property object name =>
    refine (ih object (.head _) h).bind fun _ _ h ha => ?_
    refine (pairs_intern h (hnames name (.head _))).bind fun hp hq h hi => ?_
    exact pairs_pure h ((ha.mono hp hq).append (alike_named rfl hi))
  | binary op l r =>
    simp only [Node.isParsed, Bool.and_eq_true] at hn
    refine (ih l (.head _) h).bind fun _ _ h ha => (ih r (.tail _ (.head _)) h).bind fun hp hq h hb => ?_
    refine (pairs_operator h hn.1.2).bind fun hp' hq' h ho => ?_
    exact pairs_pure h ((((ha.mono hp hq).append hb).mono hp' hq').append ho)
  | function params body =>
    refine (pairs_loads h rfl hnames).bind fun _ _ h ha => ?_
    refine (pairs_reserve h).bind fun hp₁ hq₁ h e => ?_
    obtain ⟨rfl, rfl⟩ := e
    refine (pairs_constant h rfl).bind fun hp₂ hq₂ h hk => ?_
    refine (nodes_pairs ih h).bind fun hp₃ hq₃ h hb => ?_
    refine (pairs_fill h _ hb).bind fun hp₄ hq₄ h _ => ?_
    have ha := (((ha.mono hp₁ hq₁).mono hp₂ hq₂).append hk).mono (hp₃.trans hp₄) (hq₃.trans hq₄)
    exact pairs_pure h (ha.append (alike_op rfl params.length))
  | structDef name fs =>
    refine (pairs_loads h rfl fun f hf => hnames f (.tail _ hf)).bind fun _ _ h ha => ?_
    refine (pairs_intern h (hnames name (.head _))).bind fun hp hq h hi => ?_
    exact pairs_pure h ((ha.mono hp hq).append (alike_named rfl hi))
  | «variable» type name =>
    refine (pairs_intern h (hnames name (.head _))).bind fun _ _ h hi => ?_
    refine (pairs_constant h (isStorable_initial type)).bind fun hp hq h hk => ?_
    have hi := (alike_named (o := .loadIdent) rfl hi).mono hp hq
    exact pairs_pure h ((hi.append hk).append (alike_op rfl 0))
  | ret v =>
    cases v with
    | none => exact (pairs_constant h rfl).bind fun _ _ h hk => pairs_pure h (hk.append (alike_op rfl 0))
    | some v => exact (ih v (.head _) h).bind fun _ _ h ha => pairs_pure h (ha.append (alike_op rfl 0))
  | int n => exact pairs_constant h rfl
  | float | str => exact pairs_constant h (Node.leaf_of_parsed hn (.head _))
  | hole => cases hn

/-- A program is compiled into the same block, and the programs stay alike. -/
theorem compile_pairs (h : p.Paired base q) {ns : List Node}
    (hn : Node.everyNode (Node.isParsed Node.isPortable) ns = true) :
    ∃ p' q', p.compile ns = (.ok p.slots.length, p') ∧ q.compile ns = (.ok p.slots.length, q') ∧
      p.idents.names <+: p'.idents.names ∧ p'.Paired base q' := by
  have hc : Pairs base p q (fun _ _ a b => a = p.slots.length ∧ b = p.slots.length)
      (modifyGet (·.reserve) >>= fun id : Nat => into id ns >>= fun _ => pure id)
      (modifyGet (·.reserve) >>= fun id : Nat => into id ns >>= fun _ => pure id) := by
    refine (pairs_reserve h).bind fun _ _ h e => ?_
    obtain ⟨rfl, rfl⟩ := e
    have hns : ∀ n ∈ ns, NodePairs base n := fun n hm => node_pairs n (Node.everyNode_iff.mp hn n hm)
    refine Pairs.bind ((nodes_pairs hns h).bind fun _ _ h ha => pairs_fill h _ ha) fun _ _ h _ => ?_
    exact pairs_pure h ⟨rfl, rfl⟩
  obtain ⟨_, _, p', q', hp, hq, hle, -, h', rfl, rfl⟩ := hc
  exact ⟨p', q', hp, hq, hle, h'⟩

end

end Lower

end Scriptlet

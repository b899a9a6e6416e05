/-
  Scriptlet.Proofs.Outlining — the outline of a program tells the program.

  A node is one line, and what stands below it are blocks of lines, a level deeper (`outline_eq`).
  (1) From line to line the depth rises by one at most (`levels_flatten`, `outline_block`).
  (2) A block ends where the next line is not deeper than its first, so lines tell the blocks (`blocks_inj`). With its
      label they tell the node (`eq_of_label`), hence an outline tells its node (`outline_inj`).
  (3) A label is on one line and does not start with a blank, so the text tells the lines (`lines_of_unlines`).
-/

import Mathlib.Data.List.Chain
import Scriptlet.Proofs.Delimiting
import Scriptlet.Proofs.Portability
import Scriptlet.Proofs.RoundTrip
import Scriptlet.Proofs.Shortest

namespace Scriptlet

open List (cons forall_mem_cons mem_map forall_mem_map mem_cons_self append_cancel_left all_eq_true append_assoc
  not_mem_append)

namespace Node

variable {n m : Node} {d : Nat} {s t : List Line} {bs cs : List (List Line)}

/-! ## Blocks -/

def label : Node → Text
  | .ident name => "Ident " ++ name
  | .assign .. => "Assign"
  | .construct type _ => "StructInstance " ++ type
  | .array items => "Array[" ++ Text.ofNat items.length ++ "]"
  | .call _ args => "Call/" ++ Text.ofNat args.length
  | .property _ name => "Property ." ++ name
  | .binary op .. => "BinOp " ++ Text.ofChar op.char
  | .function params _ => "Fun (" ++ commas params ++ ")"
  | .structDef name _ => "StructDef " ++ name
  | .variable type name => "Var " ++ type ++ " " ++ name
  | .ret _ => "Return"
  | .int n => "Int " ++ Text.ofInt n.toInt
  | .float x => "Float " ++ x.render
  | .str s => "Str " ++ Text.quoted s
  | .hole => "<nil>"

/-- What stands below a node: its parts, the fields with their values, or the fields with their types. -/
def blocks (d : Nat) : Node → List (List Line)
  | .construct _ fields => fields.map fun f => ⟨d, f.1 ++ ":"⟩ :: f.2.outline (d + 1)
  | .structDef _ fields => fields.map fun f => [⟨d, f.1 ++ ": " ++ f.2⟩]
  | n => n.children.map (outline d)

theorem outlines_eq (d : Nat) (ns : List Node) : outlines d ns = (ns.map (outline d)).flatten := by
  induction ns with
  | nil => rfl
  | cons n ns ih => rw [outlines, ih, List.map_cons, List.flatten_cons]

theorem fieldOutlines_eq (d : Nat) (fs : List (Text × Node)) :
    fieldOutlines d fs = (fs.map fun f => ⟨d, f.1 ++ ":"⟩ :: f.2.outline (d + 1)).flatten := by
  induction fs with
  | nil => rfl
  | cons f fs ih => rw [fieldOutlines, ih, List.map_cons, List.flatten_cons, List.cons_append]

theorem outline_eq (d : Nat) (n : Node) : n.outline d = ⟨d, n.label⟩ :: (n.blocks (d + 1)).flatten := by
  cases n with
  | construct => rw [outline, fieldOutlines_eq]; rfl
  | structDef =>
    rw [outline, List.map_eq_flatMap, List.flatMap_def]
    rfl
  | array | function | call => rw [outline, outlines_eq]; rfl
  | ret v => cases v <;> simp [outline, label, blocks, children, operands]
  | _ => simp [outline, label, blocks, children, operands]

/-! ## (1) Levels -/

structure Levels (d : Nat) (ls : List Line) : Prop where
  first : ∀ l ∈ ls.head?, l.depth = d
  least : ∀ l ∈ ls, d ≤ l.depth
  steps : ls.IsChain fun a b => b.depth ≤ a.depth + 1

def Block (d : Nat) (ls : List Line) : Prop := ∃ u s, ls = ⟨d, u⟩ :: s ∧ Levels (d + 1) s

theorem Levels.nil : Levels d [] := ⟨by simp, by simp, .nil⟩

theorem Levels.append (hs : Block d s) (ht : Levels d t) : Levels d (s ++ t) := by
  obtain ⟨u, s, rfl, hs⟩ := hs
  have hleast : ∀ l ∈ (⟨d, u⟩ :: s : List Line), d ≤ l.depth :=
    forall_mem_cons.mpr ⟨Nat.le_refl d, fun l hl => Nat.le_of_succ_le (hs.least l hl)⟩
  refine ⟨by simp, List.forall_mem_append.mpr ⟨hleast, ht.least⟩, List.isChain_append.mpr ⟨?_, ht.steps, ?_⟩⟩
  · exact List.isChain_cons.mpr ⟨fun l hl => Nat.le_of_eq (hs.first l hl), hs.steps⟩
  · intro a ha b hb
    rw [ht.first b hb]
    exact Nat.le_succ_of_le (hleast a (List.mem_of_getLast? ha))

theorem levels_flatten (h : ∀ b ∈ bs, Block d b) : Levels d bs.flatten := by
  induction bs with
  | nil => exact .nil
  | cons b bs ih =>
    obtain ⟨hb, hbs⟩ := forall_mem_cons.mp h
    exact .append hb (ih hbs)

theorem Block.levels (h : Block d s) : Levels d s := by
  simpa using levels_flatten (List.forall_mem_singleton.mpr h)

theorem block_of_parts (h : ∀ c ∈ n.children, ∀ d, Block d (c.outline d)) : ∀ b ∈ n.blocks d, Block d b := by
  intro b hb
  cases n with
  | construct =>
    obtain ⟨f, hf, rfl⟩ := mem_map.mp hb
    exact ⟨_, _, rfl, (h _ (List.mem_map_of_mem hf) _).levels⟩
  | structDef =>
    obtain ⟨f, -, rfl⟩ := mem_map.mp hb
    exact ⟨_, _, rfl, .nil⟩
  | _ =>
    obtain ⟨c, hc, rfl⟩ := mem_map.mp hb
    exact h c hc d

theorem outline_block (n : Node) : ∀ d, Block d (n.outline d) := by
  induction n using induction_children with
  | step n ih => exact fun d => ⟨_, _, outline_eq d n, levels_flatten (block_of_parts ih)⟩

theorem block_of_outlines (d : Nat) (ns : List Node) : ∀ b ∈ ns.map (outline d), Block d b :=
  forall_mem_map.mpr fun n _ => outline_block n d

/-! ## (2) Reading an outline -/

/-- Blocks are told by their lines. -/
theorem blocks_inj (hbs : ∀ b ∈ bs, Block d b) (hcs : ∀ c ∈ cs, Block d c) (h : bs.flatten = cs.flatten) : bs = cs := by
  -- the first line, and those that are deeper
  refine Text.flatten_inj (f := fun s => s.take 1 ++ s.tail.takeWhile (d < ·.depth)) (by simp [Block]) ?_ hbs hcs h
  intro b bs hbs
  obtain ⟨⟨u, s, rfl, hs⟩, hrest⟩ := forall_mem_cons.mp hbs
  have hstop : bs.flatten.takeWhile (d < ·.depth) = [] := by
    cases bs with
    | nil => rfl
    | cons c cs =>
      obtain ⟨v, t, rfl, -⟩ := hrest c mem_cons_self
      simp
  have hdeeper : ∀ l ∈ s, decide (d < l.depth) = true := fun l hl => decide_eq_true (hs.least l hl)
  simp [List.takeWhile_append_of_pos hdeeper, hstop]

def isTold (n : Node) : Bool := n.isFormed && n.isParsed isLexed

/-- The words that labels start with, in the order of the constructors. -/
def headings : List Text :=
  ["Ident", "Assign", "StructInstance", "Array", "Call", "Property", "BinOp", "Fun", "StructDef", "Var", "Return", "Int",
    "Float", "Str", []]

theorem heading_label (n : Node) : headings.idxOf (n.label.takeWhile Pattern.isLetter) = n.ctorIdx := by
  cases n <;> rfl

/-- Names are told where a byte follows that is no letter. -/
theorem name_inj {x y s t : Text} {c d : UInt8} (hx : Token.isName x = true) (hy : Token.isName y = true)
    (hc : Pattern.isLetter c = false) (hd : Pattern.isLetter d = false) (h : x ++ c :: s = y ++ d :: t) :
    x = y ∧ c :: s = d :: t :=
  Text.run_inj (Token.isName_iff.mp hx).2.1 (Token.isName_iff.mp hy).2.1 hc hd h

theorem params_inj {xs ys : List Text} (hxs : ∀ x ∈ xs, Token.isName x = true) (hys : ∀ y ∈ ys, Token.isName y = true)
    (h : commas xs ++ ")" = commas ys ++ ")") : xs = ys := by
  have hlist {zs : List Text} : commas zs ++ ")" = Text.join (','.toUInt8 :: [' '.toUInt8]) (zs.map id) ++ [')'.toUInt8] := by
    rw [List.map_id]
    rfl
  rw [hlist, hlist] at h
  refine (Text.join_inj (P := fun x => Token.isName x = true) (by decide) ?_ ?_ hxs hys h).1
  · intro x hx s t e
    obtain ⟨hne, hletters, -⟩ := Token.isName_iff.mp hx
    obtain ⟨b, u, rfl⟩ := List.exists_cons_of_ne_nil hne
    have hb := hletters b mem_cons_self
    cases e
    exact absurd hb (by decide)
  · intro x y hx hy c s d t hc hd e
    refine name_inj hx hy ?_ ?_ e
    · rcases hc with rfl | rfl <;> rfl
    · rcases hd with rfl | rfl <;> rfl

theorem operator_inj {op op' : Operator} (h : ∀ b, op ≠ .other b) (h' : ∀ b, op' ≠ .other b)
    (e : Text.ofChar op.char = Text.ofChar op'.char) : op = op' := by
  have read {op : Operator} (h : ∀ b, op ≠ .other b) : (Text.ofChar op.char).map Operator.ofSymbol = [op] := by
    cases op with
    | other b => exact absurd rfl (h b)
    | _ => rfl
  exact List.singleton_inj.mp (by rw [← read h, e, read h'])

/-- A node is told by its label and by what is below it, if its parts are told by their outlines. -/
theorem eq_of_label (hn : n.isTold = true) (hm : m.isTold = true)
    (ih : ∀ c ∈ n.children, ∀ c' ∈ m.children, ∀ d, c.outline d = c'.outline d → c = c') (hlabel : n.label = m.label)
    (hblocks : n.blocks d = m.blocks d) : n = m := by
  have hkind : n.ctorIdx = m.ctorIdx := by rw [← heading_label, hlabel, heading_label]
  have hparts (h : n.children.map (outline d) = m.children.map (outline d)) : n.children = m.children :=
    Text.map_inj (fun c hc c' hc' => ih c hc c' hc' d) h
  simp only [isTold, Bool.and_eq_true] at hn hm
  cases n <;> cases m <;> cases hkind
  case ident.ident => rw [append_cancel_left hlabel]
  case assign.assign | array.array | call.call =>
    cases hparts hblocks
    rfl
  case ret.ret v w => cases v <;> cases w <;> cases hparts hblocks <;> rfl
  case construct.construct =>
    have hfields := Text.map_inj (fun f hf g hg e => Prod.ext (List.append_cancel_right (Line.mk.inj (cons.inj e).1).2)
      (ih _ (List.mem_map_of_mem hf) _ (List.mem_map_of_mem hg) _ (cons.inj e).2)) hblocks
    rw [append_cancel_left hlabel, hfields]
  case structDef.structDef =>
    have hname {x : Text} {fs : List (Text × Text)} (h : (structDef x fs).isFormed = true) : ∀ f ∈ fs, Token.isName f.1 = true :=
      fun f hf => (Bool.and_eq_true_iff.mp (all_eq_true.mp (Bool.and_eq_true_iff.mp h).2 f hf)).1
    have hfields := Text.map_inj (fun f hf g hg e => by
      have hline := (Line.mk.inj (List.singleton_inj.mp e)).2
      rw [append_assoc, append_assoc] at hline
      obtain ⟨hfirst, hrest⟩ := name_inj (c := ':'.toUInt8) (d := ':'.toUInt8) (hname hn.1 f hf) (hname hm.1 g hg) rfl rfl hline
      exact Prod.ext hfirst (cons.inj (cons.inj hrest).2).2) hblocks
    rw [append_cancel_left hlabel, hfields]
  case property.property =>
    cases hparts hblocks
    rw [append_cancel_left hlabel]
  case binary.binary op l r op' l' r' =>
    cases hparts hblocks
    have hop {op : Operator} (h : (binary op l r).isFormed = true) : ∀ b, op ≠ .other b := by
      rintro b rfl
      cases h
    rw [operator_inj (hop hn.1) (hop hm.1) (append_cancel_left hlabel)]
  case function.function params body params' body' =>
    cases hparts hblocks
    simp only [label, append_assoc] at hlabel
    rw [params_inj (all_eq_true.mp hn.1) (all_eq_true.mp hm.1) (append_cancel_left hlabel)]
  case variable.variable type x type' y =>
    simp only [isFormed, Bool.and_eq_true] at hn hm
    simp only [label, append_assoc] at hlabel
    obtain ⟨rfl, hrest⟩ := name_inj (c := ' '.toUInt8) (d := ' '.toUInt8) hn.1.1 hm.1.1 rfl rfl (append_cancel_left hlabel)
    exact congrArg (Node.variable type) (cons.inj hrest).2
  case int.int => rw [Int64.toInt_inj.mp (Text.ofInt_inj (append_cancel_left hlabel))]
  case float.float x y =>
    simp only [isParsed, leaves, isLexed, List.all_cons, List.all_nil, Bool.and_eq_true, Bool.not_eq_true'] at hn hm
    rw [Binary64.render_inj hn.2.2.1 hm.2.2.1 (append_cancel_left hlabel)]
  case str.str => rw [Text.quoted_inj (append_cancel_left hlabel)]
  case hole.hole => rfl

/-- A node is told by its outline. -/
theorem outline_inj (n : Node) (hn : n.every isTold = true) :
    ∀ m : Node, m.every isTold = true → ∀ d, n.outline d = m.outline d → n = m := by
  induction n using induction_children with
  | step n ih =>
    intro m hm d h
    obtain ⟨hroot, hparts⟩ := every_iff.mp hn
    obtain ⟨hroot', hparts'⟩ := every_iff.mp hm
    rw [outline_eq, outline_eq] at h
    obtain ⟨hline, hbelow⟩ := cons.inj h
    have block {n : Node} : ∀ b ∈ n.blocks (d + 1), Block (d + 1) b := block_of_parts fun c _ => outline_block c
    exact eq_of_label hroot hroot' (fun c hc c' hc' => ih c hc (hparts c hc) c' (hparts' c' hc')) (Line.mk.inj hline).2
      (blocks_inj block block hbelow)

theorem outlines_inj {ns ms : List Node} (hns : everyNode isTold ns = true) (hms : everyNode isTold ms = true)
    (h : outlines 0 ns = outlines 0 ms) : ns = ms := by
  rw [outlines_eq, outlines_eq] at h
  exact Text.map_inj (fun n hn m hm => outline_inj n (everyNode_iff.mp hns n hn) m (everyNode_iff.mp hms m hm) 0)
    (blocks_inj (block_of_outlines 0 ns) (block_of_outlines 0 ms) h)

/-! ## (3) The text of an outline -/

/-- A label that is told from the blanks in front of it and from the lines behind it. -/
def IsLabel (u : Text) : Prop := '\n'.toUInt8 ∉ u ∧ ∃ b v, u = b :: v ∧ b ≠ ' '.toUInt8

def indented (l : Line) : Text := List.replicate (2 * l.depth) ' '.toUInt8 ++ l.label

theorem indented_inj {l l' : Line} (hl : IsLabel l.label) (hl' : IsLabel l'.label) (h : indented l = indented l') : l = l' := by
  obtain ⟨-, b, v, hb, hblank⟩ := hl
  obtain ⟨-, b', v', hb', hblank'⟩ := hl'
  have blanks (k : Nat) : ∀ b ∈ List.replicate k ' '.toUInt8, (b == ' '.toUInt8) = true :=
    fun b hb => beq_iff_eq.mpr (List.eq_of_mem_replicate hb)
  rw [indented, indented, hb, hb'] at h
  obtain ⟨hdepth, hlabel⟩ := Text.run_inj (blanks _) (blanks _) (beq_false_of_ne hblank) (beq_false_of_ne hblank') h
  have hlength := congrArg List.length hdepth
  rw [List.length_replicate, List.length_replicate] at hlength
  rw [← hb, ← hb'] at hlabel
  cases l
  cases l'
  exact (Line.mk.injEq ..).mpr ⟨Nat.eq_of_mul_eq_mul_left (by decide) hlength, hlabel⟩

/-- Lines are told by their text. -/
theorem lines_of_unlines (hs : ∀ l ∈ s, IsLabel l.label) (ht : ∀ l ∈ t, IsLabel l.label)
    (h : Text.unlines (s.map indented) = Text.unlines (t.map indented)) : s = t := by
  have single {s : List Line} (hs : ∀ l ∈ s, IsLabel l.label) :
      ∀ x ∈ (s.map indented).map (· ++ ['\n'.toUInt8]), ∃ u, x = u ++ ['\n'.toUInt8] ∧ '\n'.toUInt8 ∉ u := by
    refine forall_mem_map.mpr (forall_mem_map.mpr fun l hl => ⟨_, rfl, not_mem_append ?_ (hs l hl).1⟩)
    exact fun hb => absurd (List.eq_of_mem_replicate hb) (by decide)
  rw [Text.unlines, Text.unlines, List.flatMap_def, List.flatMap_def] at h
  have hlines := Text.flatten_inj (f := fun s => s.takeWhile (· != '\n'.toUInt8) ++ ['\n'.toUInt8]) (by simp) ?_ (single hs) (single ht) h
  · refine Text.map_inj (fun l hl l' hl' => indented_inj (hs l hl) (ht l' hl')) ?_
    exact List.map_injective_iff.mpr (fun _ _ => List.append_cancel_right) hlines
  · intro x xs hx
    obtain ⟨u, rfl, hu⟩ := hx x mem_cons_self
    have hbytes : ∀ b ∈ u, (b != '\n'.toUInt8) = true := fun b hb => bne_iff_ne.mpr fun e => hu (e ▸ hb)
    simp [List.takeWhile_append_of_pos hbytes]

theorem newline_not_mem_name {x : Text} (h : Token.isName x = true) : '\n'.toUInt8 ∉ x :=
  fun hb => absurd ((Token.isName_iff.mp h).2.1 _ hb) (by decide)

theorem newline_not_mem_commas {xs : List Text} (h : ∀ x ∈ xs, Token.isName x = true) : '\n'.toUInt8 ∉ commas xs := by
  induction xs with
  | nil => exact List.not_mem_nil
  | cons x xs ih =>
    obtain ⟨hx, hxs⟩ := forall_mem_cons.mp h
    cases xs with
    | nil => exact newline_not_mem_name hx
    | cons y ys => exact not_mem_append (not_mem_append (newline_not_mem_name hx) (by decide)) (ih hxs)

theorem newline_not_mem_label (h : n.isTold = true) : '\n'.toUInt8 ∉ n.label := by
  have digits (k : Nat) : '\n'.toUInt8 ∉ Text.ofNat k := fun hb => absurd (Text.isDigit_of_mem_ofNat _ hb) (by decide)
  have numerals (k : Int) : '\n'.toUInt8 ∉ Text.ofInt k := fun hb => absurd (Text.isNumeral_of_mem_ofInt _ hb) (by decide)
  have hformed := (Bool.and_eq_true_iff.mp h).1
  cases n with
  | binary op =>
    cases op with
    | other => cases hformed
    | _ => exact not_mem_append (by decide) (by decide)
  | function =>
    have hparams := newline_not_mem_commas (all_eq_true.mp hformed)
    simp +decide [label, hparams]
  | _ =>
    simp only [isFormed, Bool.and_eq_true] at hformed
    simp +decide [label, digits, numerals, Text.newline_not_mem_quoted, Binary64.newline_not_mem_render, newline_not_mem_name, hformed]

theorem isLabel_label (h : n.isTold = true) : IsLabel n.label := by
  refine ⟨newline_not_mem_label h, ?_⟩
  cases n <;> exact ⟨_, _, rfl, by decide⟩

theorem labels_blocks (hn : n.isFormed = true) (ih : ∀ c ∈ n.children, ∀ d, ∀ l ∈ c.outline d, IsLabel l.label) :
    ∀ b ∈ n.blocks d, ∀ l ∈ b, IsLabel l.label := by
  have named {x v : Text} (hx : Token.isName x = true) (hv : '\n'.toUInt8 ∉ v) : IsLabel (x ++ v) := by
    refine ⟨not_mem_append (newline_not_mem_name hx) hv, ?_⟩
    obtain ⟨hne, hletters, -⟩ := Token.isName_iff.mp hx
    obtain ⟨b, w, rfl⟩ := List.exists_cons_of_ne_nil hne
    refine ⟨b, w ++ v, rfl, ?_⟩
    rintro rfl
    exact absurd (hletters _ mem_cons_self) (by decide)
  cases n with
  | construct =>
    have hnames := all_eq_true.mp (Bool.and_eq_true_iff.mp hn).2
    exact forall_mem_map.mpr fun f hf => forall_mem_cons.mpr
      ⟨named (hnames f hf) (by decide), ih _ (List.mem_map_of_mem hf) _⟩
  | structDef =>
    have hnames := all_eq_true.mp (Bool.and_eq_true_iff.mp hn).2
    refine forall_mem_map.mpr fun f hf => List.forall_mem_singleton.mpr ?_
    obtain ⟨hname, htype⟩ := Bool.and_eq_true_iff.mp (hnames f hf)
    rw [append_assoc]
    exact named hname (not_mem_append (by decide) (newline_not_mem_name htype))
  | _ => exact forall_mem_map.mpr fun c hc => ih c hc d

theorem labels_outline : ∀ n : Node, n.every isTold = true → ∀ d, ∀ l ∈ n.outline d, IsLabel l.label := by
  refine induction_every fun n hn ih d => ?_
  rw [outline_eq]
  refine forall_mem_cons.mpr ⟨isLabel_label hn, List.forall_mem_flatten.mpr ?_⟩
  exact labels_blocks (Bool.and_eq_true_iff.mp hn).1 ih

theorem labels_outlines {ns : List Node} (h : everyNode isTold ns = true) (d : Nat) : ∀ l ∈ outlines d ns, IsLabel l.label := by
  rw [outlines_eq]
  exact List.forall_mem_flatten.mpr (forall_mem_map.mpr fun n hn => labels_outline n (everyNode_iff.mp h n hn) d)

theorem told_of_source {src : Text} {ns : List Node} (h : Parse.source src = .ok ns) : everyNode isTold ns = true :=
  everyNode_of_both (fun _ hformed hparsed => Bool.and_eq_true_iff.mpr ⟨hformed, hparsed⟩) ns
    (everyNode_iff.mpr (Parse.source_formed h)) (Parse.source_parsed (Parse.fine_tokenize src) h)

/-- Programs with the same tree are the same, if they were parsed. In the outline of a program the first line is at the top,
    and none is deeper than the one before it by more than one level. -/
theorem tree_faithful :
    (∀ (src src' : Text) (ns ms : List Node), Parse.source src = .ok ns → Parse.source src' = .ok ms →
      tree ns = tree ms → ns = ms) ∧
    ∀ ns : List Node, (∀ l ∈ (outlines 0 ns).head?, l.depth = 0) ∧
      (outlines 0 ns).IsChain fun a b => b.depth ≤ a.depth + 1 := by
  refine ⟨fun src src' ns ms h h' htree => ?_, fun ns => ?_⟩
  · have hns := told_of_source h
    have hms := told_of_source h'
    exact outlines_inj hns hms (lines_of_unlines (labels_outlines hns 0) (labels_outlines hms 0) htree)
  · have hlevels := levels_flatten (block_of_outlines 0 ns)
    rw [← outlines_eq] at hlevels
    exact ⟨hlevels.first, hlevels.steps⟩

/-- Two spellings of one program. -/
theorem tree_faithful_halves :
    ∃ ns ms, Parse.source "x=[.5,\"a\"]" = .ok ns ∧ Parse.source "x = [ 0.50  \"a\" ]" = .ok ms ∧
      tree ns = "Assign\n  Ident x\n  Array[2]\n    Float 0.5\n    Str \"a\"\n" ∧ ns = ms := by
  have h : Parse.source "x=[.5,\"a\"]" = .ok [.assign (.ident "x") (.array [.float ⟨0x3FE0000000000000⟩, .str "a"])] := rfl
  have h' : Parse.source "x = [ 0.50  \"a\" ]" = .ok [.assign (.ident "x") (.array [.float ⟨0x3FE0000000000000⟩, .str "a"])] := rfl
  exact ⟨_, _, h, h', by decide +kernel, tree_faithful.1 _ _ _ _ h h' rfl⟩

end Node

end Scriptlet

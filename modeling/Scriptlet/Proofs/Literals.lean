/-
  Scriptlet.Proofs.Literals — struct literals in the code of a tree.

  A frame collects the fields of struct instances in groups. Code opens a group for an instance that is
  inside of another one, or that has no fields. For any other instance the first field opens one. A field
  goes to the innermost group, and the instruction that completes an instance takes that group away.

  (1) What a tree has to do with groups is a list of marks, one for each instruction (`Node.sketch`). Its
      literals have places in that list (`Node.literals`).
  (2) Marks as they stand in a sketch bring groups together again: when the literal is completed, the
      innermost group has what was stored for it and nothing else, and below it are the groups that there
      were at its start (`Regroups.filled`). The induction is over the tree. It has to know that there
      is no group at all where no literal is around, since there the group is opened by the first
      field.
  (3) Compiled code is marked as the trees tell (`Program.Compiles.drawn`).
-/

import Scriptlet.Proofs.Reloading

namespace Scriptlet

open Node
open List (replicate map_map map_cons map_append length_append mem_map getElem?_append_right forall_mem_nil
  append_assoc mem_cons rel_append)

/-! ## (1) Sketches -/

inductive Mark where
  | plain
  | opens
  | stores (name : Text)
  | completes (type : Text)
  deriving DecidableEq, Repr

/-- The same places in code that starts so many instructions later. -/
def shifted (n : Nat) (ps : List (Text × Nat)) : List (Text × Nat) := ps.map fun p => (p.1, n + p.2)

/-- A struct literal, with the places of its first instruction, of those that store its fields, and of the one that
    completes it. -/
structure Literal where
  type : Text
  start : Nat
  fields : List (Text × Nat)
  site : Nat
  deriving DecidableEq, Repr

namespace Literal

def later (n : Nat) (l : Literal) : Literal := ⟨l.type, n + l.start, shifted n l.fields, n + l.site⟩

def allLater (n : Nat) (ls : List Literal) : List Literal := ls.map (later n)

/-- The literal as it is written: its type, and the names of its fields. -/
def written (l : Literal) : Text × List Text := (l.type, l.fields.map (·.1))

end Literal

namespace Node

def sketchOpening (depth : Nat) (fs : List (Text × Node)) : List Mark :=
  if depth = 0 && !fs.isEmpty then [] else [.opens]

mutual

/-- The marks of the code of a node, at a depth of struct instances around it. The body of a function is code of
    another block. -/
def sketch (depth : Nat) : Node → List Mark
  | .assign l r => l.sketch depth ++ r.sketch depth ++ [.plain]
  | .construct type fs => sketchOpening depth fs ++ sketchFields (depth + 1) fs ++ [.completes type]
  | .array items => sketchAll depth items ++ [.plain]
  | .call callee args => callee.sketch depth ++ sketchAll depth args ++ [.plain]
  | .property object _ => object.sketch depth ++ [.plain]
  | .binary _ l r => l.sketch depth ++ r.sketch depth ++ [.plain]
  | .function params _ => List.replicate (params.length + 2) .plain
  | .structDef _ fs => List.replicate (fs.length + 1) .plain
  | .variable _ _ => List.replicate 3 .plain
  | .ret none => List.replicate 2 .plain
  | .ret (some v) => v.sketch depth ++ [.plain]
  | .ident _ | .int _ | .float _ | .str _ => [.plain]
  | .hole => []
termination_by structural n => n

def sketchAll (depth : Nat) : List Node → List Mark
  | [] => []
  | n :: ns => n.sketch depth ++ sketchAll depth ns
termination_by structural ns => ns

def sketchFields (depth : Nat) : List (Text × Node) → List Mark
  | [] => []
  | (name, n) :: fs => n.sketch depth ++ [.stores name] ++ sketchFields depth fs
termination_by structural fs => fs

end

/-- Where the fields of a struct instance are stored, from the first instruction of the fields on. -/
def stores (depth : Nat) : List (Text × Node) → List (Text × Nat)
  | [] => []
  | (name, n) :: fs => (name, n.size depth) :: shifted (n.size depth + 1) (stores depth fs)

mutual

def literals (depth : Nat) : Node → List Literal
  | .assign l r => l.literals depth ++ Literal.allLater (l.size depth) (r.literals depth)
  | .construct type fs =>
    ⟨type, 0, shifted (opening depth fs) (stores (depth + 1) fs), opening depth fs + sizeFields (depth + 1) fs⟩ ::
      Literal.allLater (opening depth fs) (literalsFields (depth + 1) fs)
  | .array items => literalsAll depth items
  | .call callee args => callee.literals depth ++ Literal.allLater (callee.size depth) (literalsAll depth args)
  | .property object _ => object.literals depth
  | .binary _ l r => l.literals depth ++ Literal.allLater (l.size depth) (r.literals depth)
  | .ret (some v) => v.literals depth
  | _ => []
termination_by structural n => n

def literalsAll (depth : Nat) : List Node → List Literal
  | [] => []
  | n :: ns => n.literals depth ++ Literal.allLater (n.size depth) (literalsAll depth ns)
termination_by structural ns => ns

def literalsFields (depth : Nat) : List (Text × Node) → List Literal
  | [] => []
  | (_, n) :: fs => n.literals depth ++ Literal.allLater (n.size depth + 1) (literalsFields depth fs)
termination_by structural fs => fs

end

mutual

/-- The struct instances of a node that are not in the body of a function, as they are written. -/
def instances : Node → List (Text × List Text)
  | .assign l r | .binary _ l r => l.instances ++ r.instances
  | .construct type fs => (type, fs.map (·.1)) :: instancesFields fs
  | .array items => instancesAll items
  | .call callee args => callee.instances ++ instancesAll args
  | .property object _ => object.instances
  | .ret (some v) => v.instances
  | _ => []
termination_by structural n => n

def instancesAll : List Node → List (Text × List Text)
  | [] => []
  | n :: ns => n.instances ++ instancesAll ns
termination_by structural ns => ns

def instancesFields : List (Text × Node) → List (Text × List Text)
  | [] => []
  | (_, n) :: fs => n.instances ++ instancesFields fs
termination_by structural fs => fs

end

theorem names_shifted (n : Nat) (ps : List (Text × Nat)) : (shifted n ps).map (·.1) = ps.map (·.1) := by
  rw [shifted, map_map]
  rfl

theorem names_stores (depth : Nat) (fs : List (Text × Node)) : (stores depth fs).map (·.1) = fs.map (·.1) := by
  induction fs with
  | nil => rfl
  | cons f fs ih => rw [stores, map_cons, map_cons, names_shifted, ih]

theorem written_later (n : Nat) (ls : List Literal) :
    (Literal.allLater n ls).map Literal.written = ls.map Literal.written := by
  rw [Literal.allLater, map_map]
  refine List.map_congr_left ?_
  intro l _
  exact Prod.ext rfl (names_shifted n l.fields)

mutual

/-- The literals of a node are its struct instances, whatever is around it. -/
theorem written_literals (depth : Nat) : ∀ n : Node, (n.literals depth).map Literal.written = n.instances
  | .assign l r | .binary _ l r => by
    rw [literals, instances, map_append, written_later, written_literals depth l, written_literals depth r]
  | .construct type fs => by
    rw [literals, instances, map_cons, written_later, written_literalsFields (depth + 1) fs, Literal.written,
      names_shifted, names_stores]
  | .array items => written_literalsAll depth items
  | .call callee args => by
    rw [literals, instances, map_append, written_later, written_literals depth callee, written_literalsAll depth args]
  | .property object _ => written_literals depth object
  | .ret (some v) => written_literals depth v
  | .function _ _ | .structDef _ _ | .variable _ _ | .ret none | .ident _ | .int _ | .float _ | .str _ | .hole => rfl

theorem written_literalsAll (depth : Nat) : ∀ ns : List Node,
    (literalsAll depth ns).map Literal.written = instancesAll ns
  | [] => rfl
  | n :: ns => by
    rw [literalsAll, instancesAll, map_append, written_later, written_literals depth n, written_literalsAll depth ns]

theorem written_literalsFields (depth : Nat) : ∀ fs : List (Text × Node),
    (literalsFields depth fs).map Literal.written = instancesFields fs
  | [] => rfl
  | (_, n) :: fs => by
    rw [literalsFields, instancesFields, map_append, written_later, written_literals depth n,
      written_literalsFields depth fs]

end

theorem length_sketchOpening (depth : Nat) (fs : List (Text × Node)) :
    (sketchOpening depth fs).length = opening depth fs := by
  unfold sketchOpening opening
  split <;> rfl

mutual

theorem length_sketch (depth : Nat) : ∀ n : Node, (n.sketch depth).length = n.size depth
  | .assign l r | .binary _ l r => by
    rw [sketch, size, length_append, length_append, length_sketch depth l, length_sketch depth r]
    rfl
  | .construct _ fs => by
    rw [sketch, size, length_append, length_append, length_sketchOpening, length_sketchFields (depth + 1) fs]
    rfl
  | .array items => by
    rw [sketch, size, length_append, length_sketchAll depth items]
    rfl
  | .call callee args => by
    rw [sketch, size, length_append, length_append, length_sketch depth callee, length_sketchAll depth args]
    rfl
  | .property object _ => by
    rw [sketch, size, length_append, length_sketch depth object]
    rfl
  | .ret (some v) => by
    rw [sketch, size, length_append, length_sketch depth v]
    rfl
  | .function _ _ | .structDef _ _ => List.length_replicate
  | .variable _ _ | .ret none | .ident _ | .int _ | .float _ | .str _ | .hole => rfl

theorem length_sketchAll (depth : Nat) : ∀ ns : List Node, (sketchAll depth ns).length = sizeAll depth ns
  | [] => rfl
  | n :: ns => by rw [sketchAll, sizeAll, length_append, length_sketch depth n, length_sketchAll depth ns]

theorem length_sketchFields (depth : Nat) :
    ∀ fs : List (Text × Node), (sketchFields depth fs).length = sizeFields depth fs
  | [] => rfl
  | (_, n) :: fs => by
    rw [sketchFields, sizeFields, length_append, length_append, length_sketch depth n,
      length_sketchFields depth fs]
    rfl

end

end Node

/-! ## (2) Groups -/

/-- The groups with one more field in the innermost, or in a new one if there is none. -/
def putField (fd : Field) : List (List Field) → List (List Field)
  | [] => [[fd]]
  | g :: gs => (g ++ [fd]) :: gs

variable {ks : List Mark} {ps : List (Text × Nat)} {fs : List (Text × Node)} {p : Program} {bodies : List (List Node)}
  {body : List Node}

namespace Mark

/-- The groups after an instruction. If it stores a field, it is the one that is given. -/
def step (fd : Field) (gs : List (List Field)) : Mark → List (List Field)
  | .plain => gs
  | .opens => [] :: gs
  | .stores _ => putField fd gs
  | .completes _ => gs.tail

/-- The groups after instructions one after the other, with the fields that are stored at their positions. -/
def run (stored : Nat → Field) : List Mark → List (List Field) → List (List Field)
  | [], gs => gs
  | k :: ks, gs => run (fun p => stored (p + 1)) ks (k.step (stored 0) gs)

theorem run_append (stored : Nat → Field) (as bs : List Mark) (gs : List (List Field)) :
    run stored (as ++ bs) gs = run (fun p => stored (as.length + p)) bs (run stored as gs) := by
  induction as generalizing stored gs with
  | nil => simp [run]
  | cons k as ih =>
    rw [List.cons_append, run, run, ih]
    congr 1
    funext p
    rw [List.length_cons]
    congr 1
    omega

theorem run_congr {stored stored' : Nat → Field} {gs : List (List Field)}
    (h : ∀ p, p < ks.length → stored p = stored' p) : run stored ks gs = run stored' ks gs := by
  induction ks generalizing stored stored' gs with
  | nil => rfl
  | cons k ks ih =>
    rw [run, run, h 0 (Nat.zero_lt_succ _)]
    exact ih fun p hp => h (p + 1) (Nat.succ_lt_succ hp)

end Mark

def putAll (stored : Nat → Field) (ps : List (Text × Nat)) (gs : List (List Field)) : List (List Field) :=
  ps.foldl (fun gs p => putField (stored p.2) gs) gs

theorem putAll_cons (stored : Nat → Field) (ps : List (Text × Nat)) (g : List Field) (gs : List (List Field)) :
    putAll stored ps (g :: gs) = (g ++ ps.map fun p => stored p.2) :: gs := by
  induction ps generalizing g with
  | nil => simp [putAll]
  | cons p ps ih =>
    change putAll stored ps ((g ++ [stored p.2]) :: gs) = _
    rw [ih]
    simp

theorem putAll_nil (stored : Nat → Field) (h : ps ≠ []) : putAll stored ps [] = [ps.map fun p => stored p.2] := by
  cases ps with
  | nil => exact absurd rfl h
  | cons p ps =>
    change putAll stored ps [[stored p.2]] = _
    rw [putAll_cons]
    rfl

theorem putAll_append (stored : Nat → Field) (ps qs : List (Text × Nat)) (gs : List (List Field)) :
    putAll stored (ps ++ qs) gs = putAll stored qs (putAll stored ps gs) := List.foldl_append

theorem putAll_shifted (stored : Nat → Field) (n : Nat) (ps : List (Text × Nat)) (gs : List (List Field)) :
    putAll stored (shifted n ps) gs = putAll (fun p => stored (n + p)) ps gs := List.foldl_map

/-- Marks that bring groups together again. There are the literals, and beside them some fields are stored in a group
    that was there before. Where no literal is around there is no group. -/
structure Regroups (depth : Nat) (ks : List Mark) (ls : List Literal) (ps : List (Text × Nat)) : Prop where
  run : ∀ stored gs, (depth = 0 → gs = []) → Mark.run stored ks gs = putAll stored ps gs
  filled : ∀ l ∈ ls, ∀ stored gs, (depth = 0 → gs = []) →
    Mark.run stored (ks.take l.site) gs = (l.fields.map fun p => stored p.2) :: Mark.run stored (ks.take l.start) gs
  site : ∀ l ∈ ls, l.start ≤ l.site ∧ ks[l.site]? = some (.completes l.type)
  stores : ∀ l ∈ ls, ∀ p ∈ l.fields, l.start ≤ p.2 ∧ p.2 < l.site ∧ ks[p.2]? = some (.stores p.1)
  complete : ∀ k type, ks[k]? = some (.completes type) → ∃ l ∈ ls, l.site = k

namespace Regroups

variable {depth : Nat} {as bs : List Mark} {la lb : List Literal} {pa pb : List (Text × Nat)}

theorem site_lt (h : Regroups depth as la pa) {l : Literal} (hl : l ∈ la) : l.site < as.length :=
  (List.getElem?_eq_some_iff.mp (h.site l hl).2).1

/-- A literal has more than one instruction. -/
theorem start_lt (h : Regroups 0 as la pa) {l : Literal} (hl : l ∈ la) : l.start < l.site := by
  refine Nat.lt_of_le_of_ne (h.site l hl).1 ?_
  intro hsame
  have hfilled := h.filled l hl (fun _ => default) [] fun _ => rfl
  rw [hsame] at hfilled
  exact absurd (congrArg List.length hfilled) (Nat.succ_ne_self _).symm

theorem append (ha : Regroups depth as la pa) (hb : Regroups depth bs lb pb) (hnone : depth = 0 → pa = []) :
    Regroups depth (as ++ bs) (la ++ Literal.allLater as.length lb) (pa ++ shifted as.length pb) := by
  -- where no literal is around, there is no group behind the first part either
  have hbetween (stored : Nat → Field) (gs : List (List Field)) (hgs : depth = 0 → gs = []) :
      depth = 0 → Mark.run stored as gs = [] := by
    intro hd
    rw [ha.run stored gs hgs, hnone hd, hgs hd]
    rfl
  refine ⟨?_, ?_, ?_, ?_, ?_⟩
  · intro stored gs hgs
    rw [Mark.run_append, hb.run _ _ (hbetween stored gs hgs), ha.run stored gs hgs, putAll_append, putAll_shifted]
  · intro l hl stored gs hgs
    rcases List.mem_append.mp hl with hleft | hright
    · have hsite := ha.site_lt hleft
      have hstart := (ha.site l hleft).1
      rw [List.take_append_of_le_length (by omega), List.take_append_of_le_length (by omega)]
      exact ha.filled l hleft stored gs hgs
    · obtain ⟨k, hk, rfl⟩ := mem_map.mp hright
      change Mark.run stored ((as ++ bs).take (as.length + k.site)) gs =
        ((shifted as.length k.fields).map fun p => stored p.2) :: Mark.run stored ((as ++ bs).take (as.length + k.start)) gs
      rw [List.take_length_add_append, List.take_length_add_append, Mark.run_append, Mark.run_append,
        hb.filled k hk _ _ (hbetween stored gs hgs), shifted, map_map]
      rfl
  · intro l hl
    rcases List.mem_append.mp hl with hleft | hright
    · rw [List.getElem?_append_left (ha.site_lt hleft)]
      exact ha.site l hleft
    · obtain ⟨k, hk, rfl⟩ := mem_map.mp hright
      obtain ⟨hstart, hsite⟩ := hb.site k hk
      refine ⟨Nat.add_le_add_left hstart _, ?_⟩
      change (as ++ bs)[as.length + k.site]? = some (.completes k.type)
      rw [getElem?_append_right (Nat.le_add_right _ _), Nat.add_sub_cancel_left]
      exact hsite
  · intro l hl p hp
    rcases List.mem_append.mp hl with hleft | hright
    · obtain ⟨hstart, hlt, hstores⟩ := ha.stores l hleft p hp
      rw [List.getElem?_append_left (Nat.lt_trans hlt (ha.site_lt hleft))]
      exact ⟨hstart, hlt, hstores⟩
    · obtain ⟨k, hk, rfl⟩ := mem_map.mp hright
      obtain ⟨q, hq, rfl⟩ := mem_map.mp hp
      obtain ⟨hstart, hlt, hstores⟩ := hb.stores k hk q hq
      refine ⟨Nat.add_le_add_left hstart _, Nat.add_lt_add_left hlt _, ?_⟩
      rw [getElem?_append_right (Nat.le_add_right _ _), Nat.add_sub_cancel_left]
      exact hstores
  · intro k type hk
    by_cases hlt : k < as.length
    · rw [List.getElem?_append_left hlt] at hk
      obtain ⟨l, hl, hsite⟩ := ha.complete k type hk
      exact ⟨l, List.mem_append_left _ hl, hsite⟩
    · rw [getElem?_append_right (by omega)] at hk
      obtain ⟨l, hl, hsite⟩ := hb.complete _ type hk
      refine ⟨l.later as.length, List.mem_append_right _ (List.mem_map_of_mem hl), ?_⟩
      change as.length + l.site = k
      omega

theorem plain (depth n : Nat) : Regroups depth (replicate n .plain) [] [] := by
  have hrun (stored : Nat → Field) (gs : List (List Field)) : Mark.run stored (replicate n .plain) gs = gs := by
    induction n generalizing stored with
    | zero => rfl
    | succ n ih => exact ih _
  refine ⟨fun stored gs _ => hrun stored gs, forall_mem_nil _, forall_mem_nil _, forall_mem_nil _, ?_⟩
  intro k type hk
  have hplain := List.eq_of_mem_replicate (List.mem_of_getElem? hk)
  cases hplain

theorem then_plain (h : Regroups depth as la []) (n : Nat) : Regroups depth (as ++ replicate n .plain) la [] := by
  have happend := h.append (plain depth n) fun _ => rfl
  rwa [Literal.allLater, List.map_nil, List.append_nil] at happend

theorem field (name : Text) : Regroups (depth + 1) [.stores name] [] [(name, 0)] := by
  refine ⟨fun _ _ _ => rfl, forall_mem_nil _, forall_mem_nil _, forall_mem_nil _, ?_⟩
  intro k type hk
  cases List.mem_singleton.mp (List.mem_of_getElem? hk)

section

variable {ls : List Literal}

/-- With the fields of a literal behind its opening, a group of these fields is on top of the groups that there were. -/
theorem run_opened (h : Regroups (depth + 1) ks ls ps) (hps : fs ≠ [] → ps ≠ []) (stored : Nat → Field)
    (gs : List (List Field)) (hgs : depth = 0 → gs = []) :
    Mark.run stored (sketchOpening depth fs ++ ks) gs =
      ((shifted (opening depth fs) ps).map fun p => stored p.2) :: gs := by
  rw [Mark.run_append, h.run _ _ fun hd => absurd hd (Nat.succ_ne_zero _), length_sketchOpening,
    ← putAll_shifted stored]
  have hne : shifted (opening depth fs) ps ≠ [] ↔ ps ≠ [] := not_congr List.map_eq_nil_iff
  unfold sketchOpening
  split
  · rename_i hopen
    rw [Bool.and_eq_true, decide_eq_true_eq, Bool.not_eq_true', List.isEmpty_eq_false_iff] at hopen
    rw [hgs hopen.1]
    exact putAll_nil stored (hne.mpr (hps hopen.2))
  · exact putAll_cons stored _ [] gs

/-- A literal brings groups together if its fields do. -/
theorem construct (h : Regroups (depth + 1) ks ls ps) (hps : fs ≠ [] → ps ≠ [])
    (hstores : ∀ p ∈ ps, p.2 < ks.length ∧ ks[p.2]? = some (.stores p.1)) (type : Text) :
    Regroups depth (sketchOpening depth fs ++ ks ++ [.completes type])
      (⟨type, 0, shifted (opening depth fs) ps, opening depth fs + ks.length⟩ ::
        Literal.allLater (opening depth fs) ls) [] := by
  have hlength := length_sketchOpening depth fs
  have hopened := h.run_opened hps
  generalize opening depth fs = n at hlength hopened ⊢
  have hfree : ∀ mark ∈ sketchOpening depth fs, ∀ type, mark ≠ .completes type := by
    unfold sketchOpening
    split <;> simp
  generalize sketchOpening depth fs = os at hlength hopened hfree ⊢
  subst hlength
  have hall : (os ++ ks ++ [Mark.completes type]).take (os.length + ks.length) = os ++ ks := by
    rw [← length_append, List.take_left]
  -- the same place, in the fields and in the whole
  have hinside {k : Nat} (hk : k < ks.length) : (os ++ ks ++ [Mark.completes type])[os.length + k]? = ks[k]? := by
    rw [append_assoc, getElem?_append_right (Nat.le_add_right _ _), Nat.add_sub_cancel_left,
      List.getElem?_append_left hk]
  have hbefore {k : Nat} (hk : k ≤ ks.length) (stored : Nat → Field) (gs : List (List Field)) :
      Mark.run stored ((os ++ ks ++ [Mark.completes type]).take (os.length + k)) gs =
        Mark.run (fun p => stored (os.length + p)) (ks.take k) (Mark.run stored os gs) := by
    rw [append_assoc, List.take_length_add_append, List.take_append_of_le_length hk, Mark.run_append]
  refine ⟨?_, ?_, ?_, ?_, ?_⟩
  · intro stored gs hgs
    rw [Mark.run_append, hopened stored gs hgs]
    rfl
  · intro l hl stored gs hgs
    rcases mem_cons.mp hl with rfl | hl
    · rw [hall]
      exact hopened stored gs hgs
    · obtain ⟨k, hk, rfl⟩ := mem_map.mp hl
      have hsite := h.site_lt hk
      have hstart := (h.site k hk).1
      change Mark.run stored (List.take (os.length + k.site) _) gs =
        ((shifted os.length k.fields).map fun p => stored p.2) :: Mark.run stored (List.take (os.length + k.start) _) gs
      rw [hbefore (Nat.le_of_lt hsite), hbefore (Nat.le_trans hstart (Nat.le_of_lt hsite)),
        h.filled k hk _ _ fun hd => absurd hd (Nat.succ_ne_zero _), shifted, map_map]
      rfl
  · intro l hl
    rcases mem_cons.mp hl with rfl | hl
    · refine ⟨Nat.zero_le _, ?_⟩
      rw [← length_append, getElem?_append_right (Nat.le_refl _), Nat.sub_self]
      rfl
    · obtain ⟨k, hk, rfl⟩ := mem_map.mp hl
      obtain ⟨hstart, hsite⟩ := h.site k hk
      exact ⟨Nat.add_le_add_left hstart _, (hinside (h.site_lt hk)).trans hsite⟩
  · intro l hl p hp
    rcases mem_cons.mp hl with rfl | hl
    · obtain ⟨q, hq, rfl⟩ := mem_map.mp hp
      obtain ⟨hlt, hstore⟩ := hstores q hq
      exact ⟨Nat.zero_le _, Nat.add_lt_add_left hlt _, (hinside hlt).trans hstore⟩
    · obtain ⟨k, hk, rfl⟩ := mem_map.mp hl
      obtain ⟨q, hq, rfl⟩ := mem_map.mp hp
      obtain ⟨hstart, hlt, hstore⟩ := h.stores k hk q hq
      refine ⟨Nat.add_le_add_left hstart _, Nat.add_lt_add_left hlt _, ?_⟩
      exact (hinside (Nat.lt_trans hlt (h.site_lt hk))).trans hstore
  · intro k t hk
    by_cases hos : k < os.length
    · rw [append_assoc, List.getElem?_append_left hos] at hk
      exact absurd rfl (hfree _ (List.mem_of_getElem? hk) t)
    by_cases hks : k < os.length + ks.length
    · obtain ⟨j, rfl⟩ := Nat.exists_eq_add_of_le (Nat.le_of_not_lt hos)
      rw [hinside (by omega)] at hk
      obtain ⟨l, hl, hsite⟩ := h.complete j t hk
      refine ⟨l.later os.length, List.mem_cons_of_mem _ (List.mem_map_of_mem hl), ?_⟩
      rw [← hsite]
      rfl
    · refine ⟨_, List.mem_cons_self, ?_⟩
      have hlt := (List.getElem?_eq_some_iff.mp hk).1
      simp only [length_append, List.length_singleton] at hlt
      change os.length + ks.length = k
      omega

end

end Regroups

namespace Node

theorem stores_ne_nil (depth : Nat) (h : fs ≠ []) : stores depth fs ≠ [] := by
  cases fs with
  | nil => exact absurd rfl h
  | cons f fs => exact List.cons_ne_nil _ _

/-- The places where the fields of an instance are stored. -/
theorem mem_stores {depth : Nat} {p : Text × Nat} (h : p ∈ stores depth fs) :
    p.2 < (sketchFields depth fs).length ∧ (sketchFields depth fs)[p.2]? = some (.stores p.1) := by
  have hat : (sketchFields depth fs)[p.2]? = some (.stores p.1) := by
    induction fs generalizing p with
    | nil => cases h
    | cons f fs ih =>
      obtain ⟨name, n⟩ := f
      rw [sketchFields, append_assoc]
      rcases mem_cons.mp h with rfl | h
      · rw [getElem?_append_right (Nat.le_of_eq (length_sketch depth n)), length_sketch, Nat.sub_self]
        rfl
      · obtain ⟨q, hq, rfl⟩ := mem_map.mp h
        rw [← append_assoc, getElem?_append_right, length_append, length_sketch]
        · have hsub : n.size depth + 1 + q.2 - (n.size depth + 1) = q.2 := Nat.add_sub_cancel_left ..
          exact (congrArg _ hsub).trans (ih hq)
        · rw [length_append, length_sketch]
          exact Nat.le_add_right _ _
  exact ⟨(List.getElem?_eq_some_iff.mp hat).1, hat⟩

mutual

/-- The literals of a node bring groups together. -/
theorem regroups (depth : Nat) : ∀ n : Node, Regroups depth (n.sketch depth) (n.literals depth) []
  | .assign l r | .binary _ l r => by
    have h := (regroups depth l).append (regroups depth r) fun _ => rfl
    rw [length_sketch] at h
    exact h.then_plain 1
  | .construct type fs => by
    have h := (regroupsFields depth fs).construct (stores_ne_nil _) (fun _ => mem_stores) type
    rwa [length_sketchFields] at h
  | .array items => (regroupsAll depth items).then_plain 1
  | .call callee args => by
    have h := (regroups depth callee).append (regroupsAll depth args) fun _ => rfl
    rw [length_sketch] at h
    exact h.then_plain 1
  | .property object _ => (regroups depth object).then_plain 1
  | .ret (some v) => (regroups depth v).then_plain 1
  | .function params _ => .plain depth (params.length + 2)
  | .structDef _ fs => .plain depth (fs.length + 1)
  | .variable _ _ => .plain depth 3
  | .ret none => .plain depth 2
  | .ident _ | .int _ | .float _ | .str _ => .plain depth 1
  | .hole => .plain depth 0

theorem regroupsAll (depth : Nat) : ∀ ns : List Node, Regroups depth (sketchAll depth ns) (literalsAll depth ns) []
  | [] => .plain depth 0
  | n :: ns => by
    have h := (regroups depth n).append (regroupsAll depth ns) fun _ => rfl
    rwa [length_sketch] at h

theorem regroupsFields (depth : Nat) : ∀ fs : List (Text × Node),
    Regroups (depth + 1) (sketchFields (depth + 1) fs) (literalsFields (depth + 1) fs) (stores (depth + 1) fs)
  | [] => .plain (depth + 1) 0
  | (name, n) :: fs => by
    have hstored := (regroups (depth + 1) n).append (.field name) fun hd => absurd hd (Nat.succ_ne_zero _)
    have h := hstored.append (regroupsFields depth fs) fun hd => absurd hd (Nat.succ_ne_zero _)
    have hlength : (n.sketch (depth + 1) ++ [Mark.stores name]).length = n.size (depth + 1) + 1 := by
      rw [length_append, length_sketch]
      rfl
    rw [hlength, length_sketch, Literal.allLater, List.map_nil, List.append_nil] at h
    exact h

end

end Node

/-! ## (3) Code -/

inductive Mark.Matches (p : Program) : Mark → Instr × Bool → Prop
  | plain {i : Instr} : i.op ≠ .beginStruct → i.op ≠ .storeField → Matches p .plain (i, false)
  | opens (n : Int) : Matches p .opens (⟨.beginStruct, n⟩, false)
  | stores {name : Text} {id : Nat} : p.idents.lookup? name = some id → Matches p (.stores name) (⟨.storeField, id⟩, false)
  | completes {type : Text} {id : Nat} : p.idents.lookup? type = some id →
      Matches p (.completes type) (⟨.loadIdent, id⟩, true)

theorem Mark.Matches.mono {q : Program} (h : p.idents.names <+: q.idents.names) {k : Mark} {i : Instr × Bool}
    (hk : k.Matches p i) : k.Matches q i := by
  cases hk with
  | plain hb hs => exact .plain hb hs
  | opens n => exact .opens n
  | stores hn => exact .stores (Idents.lookup?_mono h hn)
  | completes hn => exact .completes (Idents.lookup?_mono h hn)

abbrev Drawn (p : Program) (ks : List Mark) (c : Marked) : Prop := List.Forall₂ (Mark.Matches p) ks c

section

variable {keep : Nat → Prop}

theorem drawn_op {o : Op} (arg : Nat) (hb : o ≠ .beginStruct := by simp) (hs : o ≠ .storeField := by simp) :
    Drawn p [.plain] (Marked.op o arg) := .cons (.plain hb hs) .nil

theorem drawn_ops {o : Op} {names : List Text} {ids : List Nat} (h : p.Numbers names ids)
    (hb : o ≠ .beginStruct := by simp) (hs : o ≠ .storeField := by simp) : Drawn p (replicate names.length .plain) (Marked.ops o ids) := by
  have hlength : names.length = ids.length := by
    have := congrArg List.length h
    rwa [List.length_map, List.length_map] at this
  rw [hlength]
  clear h hlength
  induction ids with
  | nil => exact .nil
  | cons id ids ih => exact .cons (.plain hb hs) ih

theorem drawn_operator {op : Operator} {o : Op} (h : op.op? = some o) : Drawn p [.plain] (Marked.op o) := by
  refine drawn_op 0 ?_ ?_ <;>
  · rintro rfl
    cases op <;> cases h

theorem drawn_opening (depth : Nat) (fs : List (Text × Node)) :
    Drawn p (sketchOpening depth fs) (Marked.opening depth fs) := by
  unfold sketchOpening Marked.opening
  split
  · exact .nil
  · exact .cons (.opens 0) .nil

mutual

/-- Code that stands for a node is marked as its sketch. -/
theorem lowered_drawn (d : Nat) : ∀ n {c}, Lowered keep p d n c → Drawn p (n.sketch d) c
  | .ident _, _, h => by
    obtain ⟨id, -, rfl⟩ := h
    exact drawn_op id
  | .assign l r, _, h => by
    obtain ⟨a, b, ha, hb, rfl⟩ := h
    exact rel_append (rel_append (lowered_drawn d l ha) (lowered_drawn d r hb)) (drawn_op 0)
  | .construct type fs, _, h => by
    obtain ⟨a, id, ha, hid, rfl⟩ := h
    exact rel_append (rel_append (drawn_opening d fs) (loweredFields_drawn (d + 1) fs ha))
      (.cons (.completes hid) .nil)
  | .array items, _, h => by
    obtain ⟨a, ha, rfl⟩ := h
    exact rel_append (loweredAll_drawn d items ha) (drawn_op items.length)
  | .call callee args, _, h => by
    obtain ⟨a, b, ha, hb, rfl⟩ := h
    exact rel_append (rel_append (lowered_drawn d callee ha) (loweredAll_drawn d args hb)) (drawn_op args.length)
  | .property object _, _, h => by
    obtain ⟨a, id, ha, -, rfl⟩ := h
    exact rel_append (lowered_drawn d object ha) (drawn_op id)
  | .binary _ l r, _, h => by
    obtain ⟨a, b, o, ha, hb, ho, rfl⟩ := h
    exact rel_append (rel_append (lowered_drawn d l ha) (lowered_drawn d r hb)) (drawn_operator ho)
  | .function params _, _, h => by
    obtain ⟨ids, k, b, s, hids, -, -, -, -, -, rfl⟩ := h
    have htwo : Drawn p [.plain, .plain] (Marked.op .loadConst k ++ Marked.op .makeFn params.length) :=
      rel_append (drawn_op k) (drawn_op params.length)
    rw [append_assoc, sketch, List.replicate_add]
    exact rel_append (drawn_ops hids) htwo
  | .structDef _ fs, _, h => by
    obtain ⟨ids, id, hids, -, rfl⟩ := h
    have hfields := drawn_ops (o := .addField) hids
    rw [List.length_map] at hfields
    rw [sketch, List.replicate_add]
    exact rel_append hfields (drawn_op id)
  | .variable _ _, _, h => by
    obtain ⟨id, k, -, -, rfl⟩ := h
    exact rel_append (rel_append (drawn_op id) (drawn_op k)) (drawn_op 0)
  | .ret none, _, h => by
    obtain ⟨k, -, rfl⟩ := h
    exact rel_append (drawn_op k) (drawn_op 0)
  | .ret (some v), _, h => by
    obtain ⟨a, ha, rfl⟩ := h
    exact rel_append (lowered_drawn d v ha) (drawn_op 0)
  | .int _, _, h | .float _, _, h | .str _, _, h => by
    obtain ⟨k, -, rfl⟩ := h
    exact drawn_op k
  | .hole, _, h => h.elim

theorem loweredAll_drawn (d : Nat) : ∀ ns {c}, LoweredAll keep p d ns c → Drawn p (sketchAll d ns) c
  | [], _, h => by
    obtain rfl := h
    exact .nil
  | n :: ns, _, h => by
    obtain ⟨a, b, ha, hb, rfl⟩ := h
    exact rel_append (lowered_drawn d n ha) (loweredAll_drawn d ns hb)

theorem loweredFields_drawn (d : Nat) : ∀ fs {c}, LoweredFields keep p d fs c → Drawn p (sketchFields d fs) c
  | [], _, h => by
    obtain rfl := h
    exact .nil
  | (name, n) :: fs, _, h => by
    obtain ⟨a, b, id, ha, hid, hb, rfl⟩ := h
    exact rel_append (rel_append (lowered_drawn d n ha) (.cons (.stores hid) .nil)) (loweredFields_drawn d fs hb)

end

end

structure Program.Adds (bodies : List (List Node)) (p q : Program) : Prop where
  le : p.Le q
  new : ∀ (b : Nat) (s : Slot), p.slots.length ≤ b → q.slots[b]? = some s →
    ∃ body ∈ bodies, Drawn q (Node.sketchAll 0 body) s.marked

namespace Program.Adds

variable {q r : Program}

theorem of_slots (h : p.Le q) (hs : q.slots = p.slots) : p.Adds bodies q := by
  refine ⟨h, ?_⟩
  intro b s hb hslot
  rw [hs] at hslot
  exact absurd (List.getElem?_eq_some_iff.mp hslot).1 (Nat.not_lt.mpr hb)

theorem trans (h : p.Adds bodies q) (k : q.Adds bodies r) : p.Adds bodies r := by
  refine ⟨h.le.trans k.le, ?_⟩
  intro b s hb hs
  by_cases hlt : b < q.slots.length
  · have hkept := getElem?_mono k.le.slots (List.getElem?_eq_getElem hlt)
    have hsame : q.slots[b]? = some s := (List.getElem?_eq_getElem hlt).trans (hkept.symm.trans hs)
    obtain ⟨body, hbody, hdrawn⟩ := h.new b s hb hsame
    exact ⟨body, hbody, hdrawn.imp fun _ _ => Mark.Matches.mono k.le.names⟩
  · exact k.new b s (Nat.le_of_not_lt hlt) hs

/-- A block is filled with the code of a body. -/
theorem fill (h : p.Adds bodies q) {body : List Node} {f : Fragment} (hf : Drawn q (sketchAll 0 body) f.marked)
    {n b : Nat} {s : Slot} (hb : b = n ∨ p.slots.length ≤ b) (hs : (q.fill n f.toSlot).slots[b]? = some s) :
    ∃ inner, (b = n ∧ inner = body ∨ b ≠ n ∧ inner ∈ bodies) ∧
      Drawn (q.fill n f.toSlot) (sketchAll 0 inner) s.marked := by
  replace hs : (q.slots.set n f.toSlot)[b]? = some s := hs
  have hsame : q.idents.names <+: (q.fill n f.toSlot).idents.names := List.prefix_rfl
  by_cases hn : n = b
  · rw [List.getElem?_set, if_pos hn] at hs
    have hslot : f.toSlot = s := by
      split at hs
      · exact Option.some.inj hs
      · cases hs
    refine ⟨body, .inl ⟨hn.symm, rfl⟩, ?_⟩
    rw [← hslot, Fragment.marked_toSlot]
    exact hf.imp fun _ _ => Mark.Matches.mono hsame
  · rw [List.getElem?_set_ne hn] at hs
    have hbn : b ≠ n := fun e => hn e.symm
    obtain ⟨inner, hinner, hdrawn⟩ := h.new b s (hb.resolve_left hbn) hs
    exact ⟨inner, .inr ⟨hbn, hinner⟩, hdrawn.imp fun _ _ => Mark.Matches.mono hsame⟩

end Program.Adds

namespace Node

theorem mem_bodiesAll {ns : List Node} : body ∈ bodiesAll ns ↔ ∃ n ∈ ns, body ∈ n.bodies := by
  induction ns with
  | nil => simp [bodiesAll]
  | cons n ns ih => simp [bodiesAll, ih]

theorem mem_bodiesFields : body ∈ bodiesFields fs ↔ ∃ n ∈ fs.map (·.2), body ∈ n.bodies := by
  induction fs with
  | nil => simp [bodiesFields]
  | cons f fs ih => simp [bodiesFields, ih]

theorem bodies_child {n c : Node} (hc : c ∈ n.children) (h : body ∈ c.bodies) : body ∈ n.bodies := by
  cases n with
  | assign l r | binary _ l r =>
    simp only [children, operands, mem_cons, List.not_mem_nil, or_false] at hc
    rcases hc with rfl | rfl
    · exact List.mem_append_left _ h
    · exact List.mem_append_right _ h
  | property => exact List.mem_singleton.mp hc ▸ h
  | construct => exact mem_bodiesFields.mpr ⟨c, hc, h⟩
  | array => exact mem_bodiesAll.mpr ⟨c, hc, h⟩
  | call callee args =>
    rcases mem_cons.mp hc with rfl | hc
    · exact List.mem_append_left _ h
    · exact List.mem_append_right _ (mem_bodiesAll.mpr ⟨c, hc, h⟩)
  | function => exact List.mem_cons_of_mem _ (mem_bodiesAll.mpr ⟨c, hc, h⟩)
  | ret v =>
    cases v with
    | none => cases hc
    | some v => exact List.mem_singleton.mp hc ▸ h
  | _ => cases hc

end Node

namespace Lower

variable {α β : Type}

theorem gives_drawn {q : Program} {f : Fragment} (h : Gives (nodes 0 body) p f q) :
    Drawn q (sketchAll 0 body) f.marked := by
  have hlowered : LoweredAll (fun _ => True) q 0 body f.marked :=
    (nodes_lowered body h).code (fun _ _ => trivial) ((Program.Le.refl q).retains _)
  exact loweredAll_drawn 0 body hlowered

/-- Lowering that succeeds fills new blocks only, with the code of the bodies. -/
def Draws (bodies : List (List Node)) (x : Lower α) : Prop :=
  ∀ {p q : Program} {a : α}, Gives x p a q → p.Adds bodies q

theorem draws_pure (a : α) : Draws bodies (pure a) := by
  intro p q b h
  obtain ⟨-, rfl⟩ := gives_pure.mp h
  exact .of_slots (.refl p) rfl

theorem draws_bind {x : Lower α} {k : α → Lower β} (hx : Draws bodies x) (hk : ∀ a, Draws bodies (k a)) :
    Draws bodies (x >>= k) := by
  intro p r b h
  obtain ⟨a, q, hxa, hka⟩ := gives_bind.mp h
  exact (hx hxa).trans (hk a hka)

theorem draws_intern (name : Text) : Draws bodies (intern name) := by
  intro p q id h
  have hle := h.le (grows_intern name)
  cases h
  exact .of_slots hle rfl

theorem draws_constant (v : Value) : Draws bodies (constant v) := by
  intro p q f h
  have hle := h.le (grows_constant v)
  obtain ⟨-, rfl⟩ := gives_constant.mp h
  exact .of_slots hle rfl

theorem draws_operator (op : Operator) : Draws bodies (operator op) := by
  cases op with
  | other b =>
    intro p q f h
    cases h
  | _ => exact draws_pure _

/-- A block is reserved, and filled with the code of a body when that is there. -/
theorem adds_body (hbody : body ∈ bodies) (hdraws : Draws bodies (nodes 0 body))
    {p₁ q : Program} {f : Fragment} (hp : p.reserve.2.Adds bodies p₁) (hf : Gives (nodes 0 body) p₁ f q) :
    p.Adds bodies (q.fill p.slots.length f.toSlot) := by
  have hadds := hp.trans (hdraws hf)
  have hreserve : p.Le p.reserve.2 := ⟨List.prefix_rfl, List.prefix_rfl, List.prefix_append _ _⟩
  have hgrows : Keeps p.Le (modify (·.fill p.slots.length f.toSlot)) := grows_fill f.toSlot (Nat.le_refl _)
  refine ⟨hgrows q (hreserve.trans hadds.le), ?_⟩
  intro b s hb hs
  have hlength : p.reserve.2.slots.length = p.slots.length + 1 := length_append
  have hlater : b = p.slots.length ∨ p.reserve.2.slots.length ≤ b := by omega
  obtain ⟨inner, hinner, hdrawn⟩ := hadds.fill (gives_drawn hf) hlater hs
  rcases hinner with ⟨-, rfl⟩ | ⟨-, hmem⟩
  · exact ⟨inner, hbody, hdrawn⟩
  · exact ⟨inner, hmem, hdrawn⟩

theorem draws_hereditary (bodies : List (List Node)) :
    Hereditary (fun {_} x => Draws bodies x) fun n => ∀ body ∈ n.bodies, body ∈ bodies where
  part h hc body hbody := h body (bodies_child hc hbody)
  pure := draws_pure
  bind := draws_bind
  intern := draws_intern
  literal v _ := draws_constant v
  operator _ := draws_operator _
  function _ hbodies hloads hbody := by
    intro p q f h
    obtain ⟨a, p₁, ha, h⟩ := gives_bind.mp h
    obtain ⟨id, p₂, hr, h⟩ := gives_bind.mp h
    obtain ⟨rfl, rfl⟩ := gives_reserve hr
    obtain ⟨k, p₃, hk, h⟩ := gives_bind.mp h
    obtain ⟨c, p₄, hc, h⟩ := gives_bind.mp h
    obtain ⟨u, p₅, hu, h⟩ := gives_bind.mp h
    obtain rfl := gives_fill hu
    obtain ⟨-, rfl⟩ := gives_pure.mp h
    exact (hloads ha).trans (adds_body (hbodies _ List.mem_cons_self) hbody (draws_constant _ hk) hc)
  hole _ := by
    intro p q f h
    cases h

end Lower

namespace Program

/-- The trees are compiled into the block, in a new one or in place of what was there. -/
def Compiles (p : Program) (ns : List Node) (n : Nat) (q : Program) : Prop :=
  p.compile ns = (.ok n, q) ∨ p.recompile n ns = (.ok (), q)

/-- The trees of the code in a block, where all of them are compiled into block `n`: the other blocks have the
    bodies of the functions. -/
def Written (ns : List Node) (n b : Nat) (body : List Node) : Prop :=
  b = n ∧ body = ns ∨ b ≠ n ∧ body ∈ Node.bodiesAll ns

def Sketched (p : Program) (b : Nat) (ks : List Mark) : Prop := ∃ s, p.slot? b = some s ∧ Drawn p ks s.marked

variable {q : Program} {ns : List Node} {n b : Nat}

theorem Sketched.mono (h : p.Sketched b ks) (hs : ∀ s, p.slot? b = some s → q.slot? b = some s)
    (hn : p.idents.names <+: q.idents.names) : q.Sketched b ks := by
  obtain ⟨s, hslot, hdrawn⟩ := h
  exact ⟨s, hs s hslot, hdrawn.imp fun _ _ => Mark.Matches.mono hn⟩

/-- The instructions of the block match their marks. -/
theorem Sketched.mark (h : p.Sketched b ks) {code : Block} (hc : p.block? b = some code) :
    code.length = ks.length ∧ ∀ (k : Nat) (i : Instr), code[k]? = some i →
      ∃ mark : Mark, ks[k]? = some mark ∧ mark.Matches p (i, p.isConstructor b k) := by
  obtain ⟨s, hslot, hdrawn⟩ := h
  rw [block?_of_slot hslot] at hc
  cases hc
  have hlength : ks.length = (s.code.getD []).length := by
    rw [hdrawn.length_eq, Slot.marked, List.length_mapIdx]
  refine ⟨hlength.symm, ?_⟩
  intro k i hi
  have hlt : k < ks.length := hlength ▸ (List.getElem?_eq_some_iff.mp hi).1
  have hmarked := s.marked_getElem? k
  rw [hi, Option.map_some, ← isConstructor_of_slot hslot] at hmarked
  obtain ⟨hlt', hat⟩ := List.getElem?_eq_some_iff.mp hmarked
  have hmatch := (List.forall₂_iff_get.mp hdrawn).2 k hlt hlt'
  refine ⟨ks[k], List.getElem?_eq_getElem hlt, ?_⟩
  rw [← hat]
  exact hmatch

/-- The constructor sites of the block are the places where a literal is completed. -/
theorem Sketched.site (h : p.Sketched b ks) {code : Block} (hc : p.block? b = some code) {k : Nat} (hk : k < code.length) :
    p.isConstructor b k = true ↔ ∃ type, ks[k]? = some (.completes type) := by
  obtain ⟨mark, hmark, hmatch⟩ := (h.mark hc).2 k code[k] (List.getElem?_eq_getElem hk)
  rw [hmark]
  generalize p.isConstructor b k = site, code[k] = i at hmatch ⊢
  cases hmatch <;> simp

/-- Compiled code is marked as its trees tell. -/
theorem Compiles.drawn (h : p.Compiles ns n q) {s : Slot} (hb : b = n ∨ p.slots.length ≤ b)
    (hs : q.slots[b]? = some s) : ∃ body, Written ns n b body ∧ Drawn q (sketchAll 0 body) s.marked := by
  have hdraws : Lower.Draws (bodiesAll ns) (Lower.nodes 0 ns) := 
    (Lower.draws_hereditary _).nodes (fun _ hn _ hbody => mem_bodiesAll.mpr ⟨_, hn, hbody⟩) 0
  rcases h with h | h
  · rw [Lower.compile_eq] at h
    rcases hr : Lower.result (Lower.into p.slots.length ns) p.reserve.2 with ⟨e | u, r⟩
    · rw [hr] at h
      cases h
    · rw [hr] at h
      cases h
      have hinto : Lower.Gives (Lower.into p.slots.length ns) p.reserve.2 u q := hr
      obtain ⟨f, p₁, hf, hr⟩ := Lower.gives_bind.mp hinto
      obtain rfl := Lower.gives_fill hr
      have hlength : p.reserve.2.slots.length = p.slots.length + 1 := length_append
      exact (hdraws hf).fill (Lower.gives_drawn hf) (by omega) hs
  · rcases recompile_cases h with ⟨e, he, -⟩ | ⟨k, f, p₁, hk, -, -, hf, -, rfl⟩
    · cases he
    · obtain rfl : n = k := Int.ofNat.inj hk
      exact (hdraws hf).fill (Lower.gives_drawn hf) hb hs

end Program

end Scriptlet

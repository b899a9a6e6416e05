/-
  Scriptlet.Proofs.Balance — how many operands and field groups code leaves behind.

  A frame has a level: the number of its operands and the number of its open field groups. `Marked.balance`
  runs code on levels alone. It fails where an instruction needs more operands than there are, or returns
  while a group is open.

  (1) Expressions leave one operand more and the groups as they were (`lowered_balance`). Statements stand
      outside of groups and leave none open (`items_balance`). Fields may open a group of their own, since an
      instance that is not inside of another one starts with its first field.
  (2) Instructions that succeed change the level of their frame as the balance says, once the result of a
      call has come (`Does.owes`).
-/

import Scriptlet.Proofs.Shapes

namespace Scriptlet

open Instr

/-- The level after an instruction. The result of a call is counted as if it were there at once. -/
def Instr.after (i : Instr × Bool) (l : Nat × Nat) : Nat × Nat :=
  if i.1.op = .ret then (l.1 - 1, l.2) else (l.1 - i.1.takes + i.1.gives, i.1.op.groups i.2 l.2)

/-- Are there operands enough? Returns have to be allowed by `r`, and to stand outside of groups. -/
def Instr.isBalanced (r : Bool) (i : Instr) (l : Nat × Nat) : Bool :=
  if i.op = .ret then r && decide (1 ≤ l.1) && l.2 == 0 else decide (i.takes ≤ l.1)

def Instr.balance (r : Bool) (i : Instr × Bool) (l : Nat × Nat) : Option (Nat × Nat) :=
  if i.1.isBalanced r l then some (after i l) else none

def Marked.balance (r : Bool) : Marked → Nat × Nat → Option (Nat × Nat)
  | [], l => some l
  | i :: c, l => (Instr.balance r i l).bind (balance r c)

namespace Marked

variable {r : Bool} {c k : Marked} {l l' : Nat × Nat}

theorem balance_append (hc : c.balance r l = some l') : (c ++ k).balance r l = k.balance r l' := by
  induction c generalizing l with
  | nil =>
    cases hc
    rfl
  | cons i c ih =>
    rw [balance] at hc
    rw [List.cons_append, balance]
    cases hi : Instr.balance r i l with
    | none => simp [hi] at hc
    | some l₁ =>
      rw [hi] at hc
      exact ih hc

theorem balance_op {o : Op} {n : Nat} (ho : o ≠ .ret) (hn : (Instr.mk o n).takes ≤ l.1) :
    (op o n).balance r l = some (l.1 - (Instr.mk o n).takes + (Instr.mk o n).gives, o.groups false l.2) := by
  simp [op, balance, Instr.balance, isBalanced, after, ho, hn]

end Marked

open Marked (balance_append balance_op)

/-! ## (1) The code of trees -/

section

variable {keep : Nat → Prop} {p : Program} {r : Bool}

/-- Code that loads identifiers leaves an operand for each. -/
theorem loads_balance (ids : List Nat) (h g : Nat) :
    (Marked.ops .loadIdent ids).balance r (h, g) = some (h + ids.length, g) := by
  induction ids generalizing h with
  | nil => rfl
  | cons id ids ih =>
    have hop : (Marked.op .loadIdent id).balance r (h, g) = some (h + 1, g) := balance_op (by decide) (Nat.zero_le _)
    change (Marked.op .loadIdent id ++ Marked.ops .loadIdent ids).balance r (h, g) = _
    rw [balance_append hop, ih, List.length_cons, Nat.add_assoc, Nat.add_comm 1]

theorem addFields_balance (ids : List Nat) (l : Nat × Nat) : (Marked.ops .addField ids).balance r l = some l := by
  induction ids with
  | nil => rfl
  | cons id ids ih =>
    have hop : (Marked.op .addField id).balance r l = some l := balance_op (by decide) (Nat.zero_le _)
    change (Marked.op .addField id ++ Marked.ops .addField ids).balance r l = _
    rw [balance_append hop, ih]

theorem const_balance (n h g : Nat) : (Marked.op .loadConst n).balance r (h, g) = some (h + 1, g) :=
  balance_op (by decide) (Nat.zero_le _)

theorem operator_balance {op : Operator} {o : Op} (ho : op.op? = some o) (h g : Nat) :
    (Marked.op o).balance r (h + 2, g) = some (h + 1, g) := by
  cases op with
  | other b => cases ho
  | add | sub | mul | div =>
    cases ho
    exact balance_op (by decide) (by simp [takes])

/-- The groups behind the fields of an instance that stand at a depth. -/
def fieldGroups (g : Nat) (fs : List (Text × Node)) : Nat := if fs.isEmpty then g else max g 1

section

variable (keep p r)

/-- The code of the expression leaves one operand more, and the groups as they were. -/
def ExprBalances (n : Node) : Prop :=
  ∀ {d h g c}, (d = 0 → g = 0) → Lowered keep p d n c → c.balance r (h, g) = some (h + 1, g)

end

variable {d h g : Nat} {c : Marked}

theorem args_balance {ns : List Node} (hns : ∀ n ∈ ns, ExprBalances keep p r n) (hd : d = 0 → g = 0)
    (hl : LoweredAll keep p d ns c) : c.balance r (h, g) = some (h + ns.length, g) := by
  induction ns generalizing h c with
  | nil =>
    obtain rfl := hl
    rfl
  | cons n ns ih =>
    rw [List.forall_mem_cons] at hns
    obtain ⟨a, b, ha, hb, rfl⟩ := hl
    rw [balance_append (hns.1 hd ha), ih hns.2 hb, List.length_cons, Nat.add_assoc, Nat.add_comm 1]

/-- The code of fields leaves the operands as they were. -/
theorem fields_balance {fs : List (Text × Node)} (hfs : ∀ n ∈ fs.map (·.2), ExprBalances keep p r n)
    (hl : LoweredFields keep p (d + 1) fs c) : c.balance r (h, g) = some (h, fieldGroups g fs) := by
  induction fs generalizing g c with
  | nil =>
    obtain rfl := hl
    rfl
  | cons f fs ih =>
    rw [List.map_cons, List.forall_mem_cons] at hfs
    obtain ⟨a, b, id, ha, -, hb, rfl⟩ := hl
    have hstore : (Marked.op .storeField id).balance r (h + 1, g) = some (h, max g 1) :=
      balance_op (by decide) (by simp [takes])
    rw [List.append_assoc, balance_append (hfs.1 (by simp) ha), balance_append hstore, ih hfs.2 hb]
    simp only [fieldGroups]
    split <;> simp

theorem lowered_balance : ∀ n : Node, n.isValued Node.isPlaced = true → ExprBalances keep p r n := by
  refine Node.induction_operands (fun _ hn => hn) fun n hn ih d h g c hd hl => ?_
  cases n with
  | ident name =>
    obtain ⟨id, -, rfl⟩ := hl
    exact balance_op (by decide) (Nat.zero_le _)
  | construct type fs =>
    obtain ⟨a, id, ha, -, rfl⟩ := hl
    have hfields (g : Nat) : a.balance r (h, g) = some (h, fieldGroups g fs) := fields_balance ih ha
    have hsite (g : Nat) : (Marked.site id).balance r (h, g) = some (h + 1, g - 1) := rfl
    unfold Marked.opening
    by_cases hopen : (d = 0 && !fs.isEmpty) = true
    · rw [if_pos hopen, List.nil_append, balance_append (hfields g), hsite]
      simp only [Bool.and_eq_true, decide_eq_true_eq, Bool.not_eq_true'] at hopen
      simp [fieldGroups, hd hopen.1, hopen.2]
    · have hbegin : (Marked.op .beginStruct).balance r (h, g) = some (h, g + 1) := rfl
      rw [if_neg hopen, List.append_assoc, balance_append hbegin, balance_append (hfields _), hsite]
      simp only [fieldGroups]
      split <;> simp
  | array items =>
    obtain ⟨a, ha, rfl⟩ := hl
    rw [balance_append (args_balance ih hd ha), Node.operands, balance_op (by decide) (by simp [takes])]
    simp [takes, gives, Op.groups]
  | call callee args =>
    obtain ⟨a, b, ha, hb, rfl⟩ := hl
    have htakes : (Instr.mk .call args.length).takes = args.length + 1 := rfl
    have hgives : (Instr.mk .call args.length).gives = 1 := rfl
    rw [List.append_assoc, balance_append (ih callee (.head _) hd ha),
      balance_append (args_balance (fun n hn => ih n (.tail _ hn)) hd hb),
      balance_op (by decide) (by rw [htakes]; omega), htakes, hgives,
      show h + 1 + args.length - (args.length + 1) + 1 = h + 1 by omega]
    rfl
  | property object name =>
    obtain ⟨a, id, ha, -, rfl⟩ := hl
    rw [balance_append (ih object (.head _) hd ha)]
    exact balance_op (by decide) (by simp [takes])
  | binary op l r =>
    obtain ⟨a, b, o, ha, hb, ho, rfl⟩ := hl
    rw [List.append_assoc, balance_append (ih l (.head _) hd ha), balance_append (ih r (.tail _ (.head _)) hd hb)]
    exact operator_balance ho h g
  | function params body =>
    obtain ⟨ids, k, b, s, hids, -, -, -, -, -, rfl⟩ := hl
    have hlen : params.length = ids.length := by simpa using congrArg List.length hids
    rw [List.append_assoc, balance_append (loads_balance ids h g), balance_append (const_balance _ _ _),
      balance_op (by decide) (by simp [takes, hlen])]
    simp [takes, gives, Op.groups, hlen]
  | int | float | str =>
    obtain ⟨k, -, rfl⟩ := hl
    exact const_balance k h g
  | hole => cases hl
  | _ => simp [Node.isValued, Node.isStatement] at hn

/-- The code of an item leaves no group open. -/
theorem item_balance {n : Node} (hp : n.every Node.isPlaced = true) (hr : r = false → ∀ v, n ≠ .ret v)
    (hl : Lowered keep p 0 n c) : ∃ h', c.balance r (h, 0) = some (h', 0) := by
  have hret {h : Nat} (hr : r = true) : (Marked.op .ret).balance r (h + 1, 0) = some (h, 0) := by
    simp [Marked.op, Marked.balance, Instr.balance, isBalanced, after, hr]
  have operand {x : Node} {h : Nat} {c : Marked} (hx : x ∈ n.operands) (hl : Lowered keep p 0 x c) :
      c.balance r (h, 0) = some (h + 1, 0) :=
    lowered_balance x (Node.isValued_operands (fun _ hn => hn) hp x hx) (fun _ => rfl) hl
  cases hs : n.isStatement with
  | false => exact ⟨h + 1, lowered_balance n (by simp [Node.isValued, hp, hs]) (fun _ => rfl) hl⟩
  | true =>
    refine ⟨h, ?_⟩
    cases n with
    | assign l r =>
      obtain ⟨a, b, ha, hb, rfl⟩ := hl
      rw [List.append_assoc, balance_append (operand (.head _) ha), balance_append (operand (.tail _ (.head _)) hb)]
      exact balance_op (by decide) (by simp [takes])
    | structDef name fs =>
      obtain ⟨ids, id, -, -, rfl⟩ := hl
      rw [balance_append (addFields_balance ids _)]
      exact balance_op (by decide) (Nat.zero_le _)
    | «variable» type name =>
      obtain ⟨id, k, -, -, rfl⟩ := hl
      have hload : (Marked.op .loadIdent id).balance r (h, 0) = some (h + 1, 0) :=
        balance_op (by decide) (Nat.zero_le _)
      rw [List.append_assoc, balance_append hload, balance_append (const_balance k _ 0)]
      exact balance_op (by decide) (by simp [takes])
    | ret v =>
      have hallowed : r = true := by
        by_contra hfalse
        exact hr (by simpa using hfalse) v rfl
      cases v with
      | none =>
        obtain ⟨k, -, rfl⟩ := hl
        rw [balance_append (const_balance k h 0)]
        exact hret hallowed
      | some v =>
        obtain ⟨a, ha, rfl⟩ := hl
        rw [balance_append (operand (.head _) ha)]
        exact hret hallowed
    | _ => cases hs

theorem items_balance {ns : List Node} {h : Nat} {c : Marked} (hp : Node.everyNode Node.isPlaced ns = true)
    (hr : r = false → ∀ v, Node.ret v ∉ ns) (hl : LoweredAll keep p 0 ns c) : ∃ h', c.balance r (h, 0) = some (h', 0) := by
  induction ns generalizing h c with
  | nil =>
    obtain rfl := hl
    exact ⟨h, rfl⟩
  | cons n ns ih =>
    simp only [Node.everyNode, Bool.and_eq_true] at hp
    obtain ⟨a, b, ha, hb, rfl⟩ := hl
    obtain ⟨h₁, h₁'⟩ := item_balance (r := r) (h := h) hp.1 (fun e v hn => hr e v (by simp [hn])) ha
    rw [balance_append h₁']
    exact ih hp.2 (fun e v hn => hr e v (List.mem_cons_of_mem _ hn)) hb

end

/-! ## (2) Instructions -/

/-- The frame keeps what it is for, and changes its level as the balance says. A return goes to the end of the code. -/
structure Frame.Takes (i : Instr) (site : Bool) (stop owed : Nat) (f g : Frame) : Prop where
  block : g.block = f.block
  returns : g.returns = f.returns
  scope : g.scope = f.scope
  pc : g.pc = if i.op = .ret then stop else f.pc
  result : i.op ≠ .ret → g.result = f.result
  level : (g.operands.length + owed, g.groups.length) = Instr.after (i, site) (f.operands.length, f.groups.length)

namespace Machine

inductive Owes (rest : List Frame) (f : Frame) (m : Machine) : Nat → Prop
  | stays : m.frames = f :: rest → m.awaiting = false → Owes rest f m 0
  | asks : m.frames = f :: rest → m.awaiting = true → Owes rest f m 1
  | calls {callee : Frame} : m.frames = callee :: f :: rest → m.awaiting = false → callee.returns = true → Owes rest f m 1

section

variable {m m' : Machine} {f : Frame} {rest : List Frame} {stop pc : Nat} {i : Instr}

theorem Serves.takes {site : Bool} {g : Frame} {given os : List Operand} {owed : Nat} (h : Serves i site f g given os)
    (hr : i.op ≠ .ret) (hg : given.length + owed = i.gives) : f.Takes i site stop owed g := by
  obtain ⟨as, ho, hlen⟩ := h.taken
  refine ⟨h.run.block, h.run.returns, by rw [h.frame], by rw [if_neg hr, h.run.pc], fun _ => by rw [h.frame], ?_⟩
  simp only [after, hr, if_false, h.groups, h.operands, ho, List.length_append, Prod.mk.injEq, and_true]
  omega

theorem Does.owes (h : Does m f rest stop pc i m') (hw : m.awaiting = false) :
    ∃ g owed, Owes rest g m' owed ∧ f.Takes i (m.program.isConstructor f.block pc) stop owed g := by
  by_cases hr : i.op = .ret
  · cases h with
    | retNone n ho | ret n ho =>
      refine ⟨_, 0, .stays rfl hw, rfl, rfl, rfl, rfl, fun hn => absurd rfl hn, ?_⟩
      simp [after, ho]
    | arith a n hop => subst hop; cases a <;> cases hr
    | _ => cases hr
  · cases h.leads hr with
    | stay given hf hw' hg hs => exact ⟨_, 0, .stays hf (hw'.trans hw), hs.takes hr hg⟩
    | ask hf hw' hg hs => exact ⟨_, 1, .asks hf hw', hs.takes hr hg.symm⟩
    | enter c hf hw' hg hs _ _ _ _ _ hret => exact ⟨_, 1, .calls hf (hw'.trans hw) hret, hs.takes hr hg.symm⟩

end

end Machine

end Scriptlet

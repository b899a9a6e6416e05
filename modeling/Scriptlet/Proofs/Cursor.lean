/-
  Scriptlet.Proofs.Cursor — the parser goes forward through its tokens and comes to an end.

  The cursor of the parser is the list of the tokens that are left. The functions are total because of a
  budget that falls with every call, so that they end says little by itself. What matters is that the
  budget is not what ends them.

  (1) With more budget a function gives the same as before, unless it was the budget that it lacked, and it does not look
      at the places of tokens (`steady_of_le`). With ten for each token left, and ten more, it does not lack it
      (`reader`). So from there on the budget makes no difference, and the functions are what they would be without one.
  (2) Each function that succeeds has taken tokens off the front, at least one. A list is read up to and
      with the token that closes it (`Call.moves`).
  (3) In terms of positions: the cursor moves strictly forward and not beyond the end
      (`calls_go_forward`), whatever tokens the list is made of.
-/

import Scriptlet.Proofs.Lookahead

namespace Scriptlet

namespace Parse

open Lookahead (Shut)

/-! ## (1) Budgets and places -/

variable {α : Type} {ts : List Token} {n : Nat}

section

variable {β : Type}

/-- With a larger budget the same is read, unless the smaller one is used up. -/
def Settles (x y : Reading α) : Prop := x = y ∨ ∃ rest, x = fail .tooDeep rest

theorem Settles.map {x y : Reading α} (h : Settles x y) (f : α → β) : Settles (f <$> x) (f <$> y) := by
  rcases h with rfl | ⟨rest, rfl⟩
  · exact .inl rfl
  · exact .inr ⟨rest, rfl⟩

/-- Readings with larger budgets settle those with smaller ones. -/
def Steadily (x : Nat → Reading α) : Prop := ∀ {n m : Nat}, n ≤ m → Settles (x n) (x m)

end

structure Unseen (R : Token → Token → Prop) : Prop where
  kind {t u : Token} : R t u → t.kind = u.kind
  lexeme {t u : Token} : R t u → t.lexeme = u.lexeme
  meaning {t u : Token} : R t u → t.meaning = u.meaning

theorem unseen_eq : Unseen Eq := ⟨congrArg _, congrArg _, congrArg _⟩

abbrev Same (R : Token → Token → Prop) : List Token → List Token → Prop := List.Forall₂ R

inductive SameFault (R : Token → Token → Prop) : SyntaxFault → SyntaxFault → Prop
  | refl (f : SyntaxFault) : SameFault R f f
  | unexpected {t u : Token} : R t u → SameFault R (.unexpected t) (.unexpected u)
  | expected (k : Kind) {t u : Token} : R t u → SameFault R (.expected k t) (.expected k u)

section

variable {β : Type} {R : Token → Token → Prop} {S : α → α → Prop} {T : β → β → Prop} {us : List Token} {t u : Token}
  {m : Nat}

theorem Unseen.literal? (hR : Unseen R) (h : R t u) : literal? t = literal? u := by
  rw [Parse.literal?, Parse.literal?, hR.kind h, hR.lexeme h, hR.meaning h]

theorem Unseen.kindAt (hR : Unseen R) (h : Same R ts us) : Parse.kindAt ts = Parse.kindAt us := by
  cases h with
  | nil => rfl
  | cons ht _ => exact hR.kind ht

theorem Same.drop (h : Same R ts us) : Same R (ts.drop 1) (us.drop 1) := by
  cases h with
  | nil => exact .nil
  | cons _ h => exact h

theorem Unseen.dropWhile (hR : Unseen R) (h : Same R ts us) (p : Kind → Bool) :
    Same R (ts.dropWhile fun t => p t.kind) (us.dropWhile fun t => p t.kind) := by
  induction h with
  | nil => exact .nil
  | @cons t u ts us ht h ih =>
    rw [List.dropWhile_cons, List.dropWhile_cons, hR.kind ht]
    split
    · exact ih
    · exact .cons ht h

theorem Unseen.skipCommas (hR : Unseen R) (h : Same R ts us) : Same R (Parse.skipCommas ts) (Parse.skipCommas us) :=
  hR.dropWhile h (· = .comma)

theorem Unseen.endsItem (hR : Unseen R) (h : Same R ts us) : Parse.endsItem ts = Parse.endsItem us := by
  rw [Parse.endsItem, Parse.endsItem, hR.kindAt h]

theorem Unseen.behindClosing (hR : Unseen R) (h : Same R ts us) (d : Nat) :
    Option.Rel (Same R) (Parse.behindClosing d ts) (Parse.behindClosing d us) := by
  induction h generalizing d with
  | nil => exact .none
  | @cons t u ts us ht h ih =>
    rw [Parse.behindClosing, Parse.behindClosing, hR.kind ht]
    split
    · exact ih _
    · split
      · exact .some h
      · exact ih _
    · exact ih _

/-- The first reading uses up its budget, or both come to the same. -/
def Tallies (R : Token → Token → Prop) (S : α → α → Prop) : Reading α → Reading α → Prop
  | .ok a, y => ∃ b, y = .ok b ∧ S a b
  | .error f, y => f.fault = .tooDeep ∨ ∃ g, y = .error g ∧ SameFault R f.fault g.fault ∧ Same R f.rest g.rest

theorem Tallies.bind {x y : Reading α} {k l : α → Reading β} (h : Tallies R S x y)
    (hk : ∀ a b, S a b → Tallies R T (k a) (l b)) : Tallies R T (x >>= k) (y >>= l) := by
  cases x with
  | ok a =>
    obtain ⟨b, rfl, hb⟩ := h
    exact hk a b hb
  | error f =>
    rcases h with h | ⟨g, rfl, h⟩
    · exact .inl h
    · exact .inr ⟨g, rfl, h⟩

theorem Tallies.settles {x y : Reading α} (h : Tallies Eq S x y) (hS : ∀ a b, S a b → a = b) : Settles x y := by
  cases x with
  | ok a =>
    obtain ⟨b, rfl, hab⟩ := h
    rw [hS a b hab]
    exact .inl rfl
  | error f =>
    obtain ⟨fault, rest⟩ := f
    rcases h with rfl | ⟨⟨fault', rest'⟩, rfl, hfault, hrest⟩
    · exact .inr ⟨rest, rfl⟩
    · obtain rfl : rest = rest' := List.forall₂_eq_eq_eq ▸ hrest
      refine .inl ?_
      cases hfault with
      | refl => rfl
      | unexpected ht => rw [ht]
      | expected _ ht => rw [ht]

abbrev Alike (R : Token → Token → Prop) (S : α → α → Prop) : Reading (α × List Token) → Reading (α × List Token) → Prop :=
  Tallies R fun p q => S p.1 q.1 ∧ Same R p.2 q.2

theorem Alike.settles {x y : Reading (α × List Token)} (h : Alike Eq Eq x y) : Settles x y :=
  Tallies.settles h fun _ _ hpq => Prod.ext hpq.1 (List.forall₂_eq_eq_eq ▸ hpq.2)

theorem alike_fail {f g : SyntaxFault} (h : SameFault R f g) (hs : Same R ts us) : Alike R S (fail f ts) (fail g us) :=
  .inr ⟨_, rfl, h, hs⟩

theorem alike_ok {a : α} (hs : Same R ts us) : Alike R Eq (.ok (a, ts)) (.ok (a, us)) := ⟨_, rfl, rfl, hs⟩

/-- On lists of the same tokens, the functions come to the same. -/
abbrev Likewise (R : Token → Token → Prop) (x y : List Token → Reading (α × List Token)) : Prop :=
  ∀ {ts us}, Same R ts us → Alike R Eq (x ts) (y us)

theorem likewise_tooDeep {y : List Token → Reading (α × List Token)} : Likewise R (fail .tooDeep) y := fun _ => .inl rfl

theorem Alike.bind {x y : Reading (α × List Token)} {k l : α × List Token → Reading (β × List Token)} (h : Alike R S x y)
    (hk : ∀ a b r s, S a b → Same R r s → Alike R T (k (a, r)) (l (b, s))) : Alike R T (x >>= k) (y >>= l) :=
  Tallies.bind h fun p q hpq => hk p.1 q.1 p.2 q.2 hpq.1 hpq.2

/-- What is read goes into a node, and nothing more is read. -/
theorem Alike.wrap {x y : Reading (α × List Token)} (h : Alike R Eq x y) (f : α → β) :
    Alike R Eq (x >>= fun p => .ok (f p.1, p.2)) (y >>= fun p => .ok (f p.1, p.2)) := by
  refine h.bind fun a b r s hab hs => ?_
  subst hab
  exact alike_ok hs

theorem Unseen.expect (hR : Unseen R) (k : Kind) (h : Same R ts us) :
    Alike R R (Parse.expect k ts) (Parse.expect k us) := by
  cases h with
  | nil => exact alike_fail (.refl _) .nil
  | @cons t u ts us ht h =>
    rw [Parse.expect, Parse.expect, hR.kind ht]
    split
    · exact ⟨_, rfl, ht, h⟩
    · split
      · exact alike_fail (.refl _) (.cons ht h)
      · exact alike_fail (.expected k ht) (.cons ht h)

theorem Unseen.params (hR : Unseen R) : Likewise R Parse.params Parse.params := by
  intro ts us h
  induction h with
  | nil => exact alike_fail (.refl _) .nil
  | @cons t u ts us ht h ih =>
    rw [Parse.params, Parse.params, hR.kind ht]
    split
    · exact ih
    · exact alike_ok h
    · refine (hR.expect .ident (.cons ht h)).bind fun p q _ _ hpq _ => ?_
      refine ih.bind fun ps qs r s hps hs => ?_
      simp only [hR.lexeme hpq, hps]
      exact alike_ok hs

theorem Unseen.fieldDecls (hR : Unseen R) : Likewise R Parse.fieldDecls Parse.fieldDecls := by
  intro ts us h
  induction hlen : ts.length using Nat.strongRecOn generalizing ts us with
  | _ len ih =>
    cases h with
    | nil => exact alike_fail (.refl _) .nil
    | @cons t u ts us ht h =>
      rw [List.length_cons] at hlen
      unfold Parse.fieldDecls
      dsimp only
      rw [hR.kind ht]
      split
      · exact ih _ (by omega) h rfl
      · exact alike_ok h
      · refine (hR.expect .ident (.cons ht h)).bind fun name name' _ _ hname _ => ?_
        cases h with
        | nil => exact alike_fail (.refl _) .nil
        | @cons c c' ts us hc h =>
          refine (hR.expect .colon (.cons hc h)).bind fun _ _ _ _ _ _ => ?_
          cases h with
          | nil => exact alike_fail (.refl _) .nil
          | @cons v v' ts us hv h =>
            refine (hR.expect .ident (.cons hv h)).bind fun type type' _ _ htype _ => ?_
            simp only [List.length_cons] at hlen
            refine (ih _ (by omega) h rfl).bind fun fs gs r s hfs hs => ?_
            simp only [hR.lexeme hname, hR.lexeme htype, hfs]
            exact alike_ok hs

theorem Unseen.structDef (hR : Unseen R) : Likewise R Parse.structDef Parse.structDef := by
  intro ts us h
  unfold Parse.structDef
  refine (hR.expect .ident h).bind fun name name' r s hname hs => ?_
  refine (hR.expect .lbrace hs).bind fun _ _ r s _ hs => ?_
  simp only [hR.lexeme hname]
  exact (hR.fieldDecls hs).wrap fun fs => Node.structDef name'.lexeme fs

theorem Unseen.functionHead (hR : Unseen R) : Likewise R Parse.functionHead Parse.functionHead := by
  intro ts us h
  have behind (ps : List Text) {r s : List Token} (hs : Same R r s) :
      Alike R Eq (Parse.expect .arrow r >>= fun q => .ok (ps, q.2)) (Parse.expect .arrow s >>= fun q => .ok (ps, q.2)) :=
    (hR.expect .arrow hs).bind fun _ _ _ _ _ hs => alike_ok hs
  cases h with
  | nil => exact alike_fail (.refl _) .nil
  | @cons t u ts us ht h =>
    unfold Parse.functionHead
    by_cases hu : u.kind = .ident
    · simp only [hR.kind ht, hu, if_true, hR.lexeme ht]
      exact behind [u.lexeme] h
    · simp only [hR.kind ht, hu, if_false]
      refine (hR.expect .lparen (.cons ht h)).bind fun _ _ r s _ hs => ?_
      refine (hR.params hs).bind fun ps qs r s hps hs => ?_
      subst hps
      exact behind ps hs

structure Steady (R : Token → Token → Prop) (n m : Nat) : Prop where
  item : Likewise R (item n) (item m)
  function : Likewise R (function n) (function m)
  block : Likewise R (block n) (block m)
  items (close : Kind) : Likewise R (items n close) (items m close)
  fields : Likewise R (fields n) (fields m)
  expr : Likewise R (expr n) (expr m)
  term : Likewise R (term n) (term m)
  factor : Likewise R (factor n) (factor m)
  suffixes (v : Node) : Likewise R (suffixes n v) (suffixes m v)
  primary : Likewise R (primary n) (primary m)

theorem steady_zero (R : Token → Token → Prop) (m : Nat) : Steady R 0 m where
  item := likewise_tooDeep
  function := likewise_tooDeep
  block := likewise_tooDeep
  items _ := likewise_tooDeep
  fields := likewise_tooDeep
  expr := likewise_tooDeep
  term := likewise_tooDeep
  factor := likewise_tooDeep
  suffixes _ := likewise_tooDeep
  primary := likewise_tooDeep

theorem Unseen.level (hR : Unseen R) {x y : List Token → Reading (Node × List Token)} (hx : Likewise R x y)
    (ops : List Operator) (l : Node) (h : Same R ts us) : Alike R Eq (level ops x (l, ts)) (level ops y (l, us)) := by
  unfold Parse.level
  dsimp only
  rw [hR.kindAt h]
  cases ops.find? (Parse.kindAt us = ·.kind) with
  | some op => exact (hx h.drop).wrap fun v => Node.binary op l v
  | none => exact alike_ok h

theorem Steady.factor_succ (ih : Steady R n m) : Likewise R (Parse.factor (n + 1)) (Parse.factor (m + 1)) := by
  intro ts us h
  rw [Parse.factor, Parse.factor]
  refine (ih.primary h).bind fun v v' r s hv hs => ?_
  subst hv
  exact ih.suffixes v hs

section

variable (hR : Unseen R) (ih : Steady R n m)

include hR ih

theorem Steady.expr_succ : Likewise R (Parse.expr (n + 1)) (Parse.expr (m + 1)) := by
  intro ts us h
  rw [expr_level, expr_level]
  refine (ih.term h).bind fun l l' r s hl hs => ?_
  subst hl
  exact hR.level ih.expr _ l hs

theorem Steady.term_succ : Likewise R (Parse.term (n + 1)) (Parse.term (m + 1)) := by
  intro ts us h
  rw [term_level, term_level]
  refine (ih.factor h).bind fun l l' r s hl hs => ?_
  subst hl
  exact hR.level ih.term _ l hs

theorem Steady.suffixes_succ (v : Node) : Likewise R (Parse.suffixes (n + 1) v) (Parse.suffixes (m + 1) v) := by
  intro ts us h
  rw [Parse.suffixes, Parse.suffixes, hR.kindAt h]
  split
  · refine (ih.items .rparen h.drop).bind fun args args' r s hargs hs => ?_
    subst hargs
    exact ih.suffixes _ hs
  · refine (hR.expect .ident h.drop).bind fun name name' r s hname hs => ?_
    simp only [hR.lexeme hname]
    exact ih.suffixes _ hs
  · exact alike_ok h

theorem Steady.primary_succ : Likewise R (Parse.primary (n + 1)) (Parse.primary (m + 1)) := by
  intro ts us h
  cases h with
  | nil => exact alike_fail (.refl _) .nil
  | @cons t u ts us ht h =>
    rw [Parse.primary, Parse.primary, hR.kind ht, hR.literal? ht]
    split
    · refine (ih.expr h).bind fun v v' r s hv hs => ?_
      subst hv
      exact (hR.expect .rparen hs).bind fun _ _ _ _ _ hs => alike_ok hs
    · split
      · exact alike_ok h
      · split
        · exact alike_fail (.refl _) (.cons ht h)
        · exact alike_fail (.unexpected ht) (.cons ht h)

theorem Steady.items_succ (close : Kind) : Likewise R (Parse.items (n + 1) close) (Parse.items (m + 1) close) := by
  intro ts us h
  have hskip := hR.skipCommas h
  rw [Parse.items, Parse.items]
  generalize skipCommas ts = ts at hskip
  generalize skipCommas us = us at hskip
  cases hskip with
  | nil => exact alike_fail (.refl _) .nil
  | @cons t u ts us ht h =>
    dsimp only
    rw [hR.kind ht]
    split
    · exact alike_ok h
    · refine (ih.item (.cons ht h)).bind fun v v' r s hv hs => ?_
      subst hv
      exact (ih.items close hs).wrap fun vs => v :: vs

theorem Steady.fields_succ : Likewise R (Parse.fields (n + 1)) (Parse.fields (m + 1)) := by
  intro ts us h
  have hskip := hR.skipCommas h
  rw [Parse.fields, Parse.fields]
  generalize skipCommas ts = ts at hskip
  generalize skipCommas us = us at hskip
  cases hskip with
  | nil => exact alike_fail (.refl _) .nil
  | @cons t u ts us ht h =>
    dsimp only
    rw [hR.kind ht]
    split
    · exact alike_ok h
    · refine (hR.expect .ident (.cons ht h)).bind fun name name' r s hname hs => ?_
      refine (hR.expect .colon hs).bind fun _ _ r s _ hs => ?_
      refine (ih.item hs).bind fun v v' r s hv hs => ?_
      subst hv
      simp only [hR.lexeme hname]
      exact (ih.fields hs).wrap fun fs => (name'.lexeme, v) :: fs

theorem Steady.block_succ : Likewise R (Parse.block (n + 1)) (Parse.block (m + 1)) := by
  intro ts us h
  rw [Parse.block, Parse.block, hR.kindAt h]
  split
  · exact alike_ok h.drop
  · refine (ih.item h).bind fun v v' r s hv hs => ?_
    subst hv
    exact (ih.block hs).wrap fun vs => v :: vs

theorem Steady.function_succ : Likewise R (Parse.function (n + 1)) (Parse.function (m + 1)) := by
  intro ts us h
  rw [Parse.function, Parse.function]
  refine (hR.functionHead h).bind fun ps ps' r s hps hs => ?_
  subst hps
  cases hs with
  | nil => exact (ih.item .nil).wrap fun v => Node.function ps [v]
  | @cons t u ts us ht h =>
    dsimp only
    rw [hR.kind ht]
    split
    · exact (ih.block h).wrap fun vs => Node.function ps vs
    · exact (ih.item (.cons ht h)).wrap fun v => Node.function ps [v]

theorem Steady.item_succ : Likewise R (Parse.item (n + 1)) (Parse.item (m + 1)) := by
  intro ts us h
  cases h with
  | nil => exact alike_fail (.refl _) .nil
  | @cons t u ts us ht h =>
    have hsame : Same R (t :: ts) (u :: us) := .cons ht h
    unfold Parse.item
    dsimp only
    rw [hR.kind ht, hR.lexeme ht]
    cases u.kind with
    | ident =>
      cases h with
      | nil => exact ih.expr hsame
      | @cons c d ts us hc h =>
        dsimp only
        rw [hR.kind hc, hR.lexeme hc]
        cases d.kind with
        | assign => exact (ih.item h).wrap fun v => Node.assign (.ident u.lexeme) v
        | ident => exact alike_ok h
        | lbrace => exact (ih.fields h).wrap fun fs => Node.construct u.lexeme fs
        | arrow => exact ih.function hsame
        | _ => exact ih.expr hsame
    | lbracket => exact (ih.items .rbracket h).wrap fun vs => Node.array vs
    | lparen =>
      have hbehind := hR.behindClosing hsame 0
      dsimp only
      generalize behindClosing 0 (t :: ts) = x at hbehind
      generalize behindClosing 0 (u :: us) = y at hbehind
      cases hbehind with
      | none => exact alike_fail (.refl _) hsame
      | some hb =>
        dsimp only
        rw [hR.kindAt hb]
        split
        · exact ih.function hsame
        · exact ih.expr hsame
    | «return» =>
      dsimp only
      rw [hR.endsItem h]
      split
      · exact alike_ok h
      · exact (ih.item h).wrap fun v => Node.ret (some v)
    | type => exact hR.structDef h
    | struct => exact hR.structDef h
    | eof => exact alike_fail (.refl _) hsame
    | _ => exact ih.expr hsame

end

theorem steady_of_le (hR : Unseen R) (h : n ≤ m) : Steady R n m := by
  induction n generalizing m with
  | zero => exact steady_zero R m
  | succ n ih =>
    obtain ⟨m, rfl⟩ : ∃ k, m = k + 1 := ⟨m - 1, by omega⟩
    have ih : Steady R n m := ih (Nat.le_of_succ_le_succ h)
    exact ⟨ih.item_succ hR, ih.function_succ hR, ih.block_succ hR, ih.items_succ hR,
      ih.fields_succ hR, ih.expr_succ hR, ih.term_succ hR, ih.factor_succ, ih.suffixes_succ hR,
      ih.primary_succ hR⟩

theorem steady (h : n ≤ m) : Steady Eq n m := steady_of_le unseen_eq h

theorem program_tallies (hR : Unseen R) (hn : n ≤ m) (h : Same R ts us) : Tallies R Eq (program n ts) (program m us) := by
  induction n generalizing m ts us with
  | zero =>
    cases h with
    | nil => cases m <;> exact ⟨_, rfl, rfl⟩
    | cons => exact .inl rfl
  | succ n ih =>
    obtain ⟨m, rfl⟩ : ∃ k, m = k + 1 := ⟨m - 1, by omega⟩
    cases h with
    | nil => exact ⟨_, rfl, rfl⟩
    | @cons t u ts us ht h =>
      have hbudget : depthBudget (u :: us) = depthBudget (t :: ts) := by
        rw [depthBudget, depthBudget, List.length_cons, List.length_cons, h.length_eq]
      unfold program
      rw [hbudget]
      refine Tallies.bind ((steady_of_le hR (Nat.le_refl _)).item (.cons ht h)) fun p q hpq => ?_
      refine (ih (Nat.le_of_succ_le_succ hn) hpq.2).bind fun ns ms hns => ?_
      exact ⟨_, rfl, congrArg₂ List.cons hpq.1 hns⟩

end

/-! ## (2) The functions of the parser -/

/-- The functions of the parser. Behind the tokens that open them, a struct instance is read by `fields`, an array by
    `items` up to a bracket, and the arguments of a call by `items` up to a parenthesis. -/
inductive Call where
  | item | function | structDef | expr | term | factor | primary
  | params | block | fieldDecls | fields
  | items (close : Kind)
  deriving DecidableEq, Repr

namespace Call

/-- The cursor that a function leaves behind, or why it failed. -/
def run (n : Nat) (ts : List Token) : Call → Reading (List Token)
  | .item => Prod.snd <$> Parse.item n ts
  | .function => Prod.snd <$> Parse.function n ts
  | .structDef => Prod.snd <$> Parse.structDef ts
  | .expr => Prod.snd <$> Parse.expr n ts
  | .term => Prod.snd <$> Parse.term n ts
  | .factor => Prod.snd <$> Parse.factor n ts
  | .primary => Prod.snd <$> Parse.primary n ts
  | .params => Prod.snd <$> Parse.params ts
  | .block => Prod.snd <$> Parse.block n ts
  | .fieldDecls => Prod.snd <$> Parse.fieldDecls ts
  | .fields => Prod.snd <$> Parse.fields n ts
  | .items close => Prod.snd <$> Parse.items n close ts

def closing : Call → Option Kind
  | .params => some .rparen
  | .block | .fieldDecls | .fields | .structDef => some .rbrace
  | .items close => some close
  | _ => none

end Call

def Closed (k : Kind) (ts : List Token) : Prop := ∃ pre c, ts = pre ++ [c] ∧ c.kind = k

theorem closed_of_shut {k : Kind} (h : Shut k ts) : Closed k ts := by
  obtain ⟨pre, c, e, hc, -⟩ := h
  exact ⟨pre, c, e, hc⟩

theorem items_closed {close : Kind} {vs : List Node} {gs : List Lookahead.Separator}
    (h : Lookahead.Items close vs ts gs) : Closed close ts := by
  induction vs generalizing ts gs with
  | nil =>
    cases h with
    | close _ hc => exact ⟨_, _, rfl, hc⟩
  | cons v vs ih =>
    cases h with
    | @item cs ts us _ _ _ _ _ _ _ _ _ hvs =>
      obtain ⟨pre, c, rfl, hc⟩ := ih hvs
      exact ⟨cs ++ (ts ++ pre), c, by simp, hc⟩

namespace Call

variable {call : Call} {enough : Prop}

/-- Tokens were taken off the front, up to the one that closes what was read. -/
def Takes (call : Call) (ts rest : List Token) : Prop :=
  ∃ mid, mid ≠ [] ∧ ts = mid ++ rest ∧ ∀ k, call.closing = some k → Closed k mid

/-- The cursor moves as it should, or there is a fault. If there is enough budget, the fault is not the lack of it. -/
def Moves (call : Call) (enough : Prop) (ts : List Token) : Reading (List Token) → Prop
  | .ok rest => call.Takes ts rest
  | .error f => enough → f.fault ≠ .tooDeep

theorem moves_of_reads {P : α → List Token → Kind → Prop} {enough' : Prop}
    {x : Reading (α × List Token)} (hx : Reads enough' P ts x) (he : enough → enough')
    (hP : ∀ a us k k', P a us k' → call.closing = some k → Closed k us) : call.Moves enough ts (Prod.snd <$> x) := by
  cases x with
  | error f => exact fun h => hx.deep (he h)
  | ok p =>
    obtain ⟨us, hne, hts, hus⟩ := hx
    exact ⟨us, hne, hts, fun k hk => hP p.1 us k _ hus hk⟩

/-- A function that is not about a list. -/
theorem moves_freely {P : α → List Token → Kind → Prop} {enough' : Prop}
    {x : Reading (α × List Token)} (hx : Reads enough' P ts x) (he : enough → enough') (hcall : call.closing = none) :
    call.Moves enough ts (Prod.snd <$> x) := by
  refine moves_of_reads hx he fun _ _ k _ _ hk => ?_
  rw [hcall] at hk
  cases hk

theorem reads_structDef_closed (ts : List Token) :
    Reads enough (fun (_ : Node) us _ => Closed .rbrace us) ts (Parse.structDef ts) := by
  refine (ends_expect .ident ts).bind List.suffix_rfl id fun name r hn => ?_
  obtain ⟨-, rfl⟩ := hn
  refine (ends_expect .lbrace r).bind (List.suffix_cons name r) id fun brace r' hb => ?_
  obtain ⟨-, rfl⟩ := hb
  refine (reads_fieldDecls r').bind ⟨[name, brace], rfl⟩ id fun fs r hfs => ?_
  obtain ⟨us, -, rfl, gs, h⟩ := hfs
  obtain ⟨pre, c, rfl, hc⟩ := closed_of_shut (Lookahead.fieldDecls_fit h).shut
  exact ⟨name :: brace :: (pre ++ [c]), List.cons_ne_nil _ _, rfl, name :: brace :: pre, c, rfl, hc⟩

theorem moves (call : Call) (n : Nat) (ts : List Token) : call.Moves (depthBudget ts ≤ n) ts (call.run n ts) := by
  have hbudget : ∀ k ≤ 10, depthBudget ts ≤ n → 10 * ts.length + k ≤ n := by
    intro k hk h
    unfold depthBudget at h
    omega
  have h := reader n
  cases call with
  | item => exact moves_freely (h.item ts) (hbudget 6 (by decide)) rfl
  | function => exact moves_freely (h.function ts) (hbudget 5 (by decide)) rfl
  | expr => exact moves_freely (h.expr ts) (hbudget 4 (by decide)) rfl
  | term => exact moves_freely (h.term ts) (hbudget 3 (by decide)) rfl
  | factor => exact moves_freely (h.factor ts) (hbudget 2 (by decide)) rfl
  | primary => exact moves_freely (h.primary ts) (hbudget 1 (by decide)) rfl
  | structDef =>
    refine moves_of_reads (reads_structDef_closed ts) id fun _ us k _ hus hk => ?_
    cases hk
    exact hus
  | params =>
    refine moves_of_reads (reads_params ts) id fun _ us k _ hus hk => ?_
    cases hk
    exact closed_of_shut (Lookahead.params_fit hus.choose_spec).shut
  | fieldDecls =>
    refine moves_of_reads (reads_fieldDecls ts) id fun _ us k _ hus hk => ?_
    cases hk
    exact closed_of_shut (Lookahead.fieldDecls_fit hus.choose_spec).shut
  | block =>
    refine moves_of_reads (h.block ts) (hbudget 7 (by decide)) fun _ us k _ hus hk => ?_
    cases hk
    exact closed_of_shut (Lookahead.block_fits hus.choose_spec).shut
  | fields =>
    refine moves_of_reads (h.fields ts) (hbudget 7 (by decide)) fun _ us k _ hus hk => ?_
    cases hk
    exact closed_of_shut (Lookahead.fields_fit hus.choose_spec).shut
  | items close =>
    refine moves_of_reads (h.items close ts) (hbudget 7 (by decide)) fun _ us k _ hus hk => ?_
    cases hk
    exact items_closed hus.choose_spec

theorem settles (call : Call) {m : Nat} (hle : n ≤ m) (ts : List Token) : Settles (call.run n ts) (call.run m ts) := by
  have h := steady hle
  have hts : Same Eq ts ts := List.forall₂_refl ts
  cases call with
  | item => exact (h.item hts).settles.map _
  | function => exact (h.function hts).settles.map _
  | expr => exact (h.expr hts).settles.map _
  | term => exact (h.term hts).settles.map _
  | factor => exact (h.factor hts).settles.map _
  | primary => exact (h.primary hts).settles.map _
  | block => exact (h.block hts).settles.map _
  | fields => exact (h.fields hts).settles.map _
  | items close => exact (h.items close hts).settles.map _
  | structDef => exact .inl rfl
  | params => exact .inl rfl
  | fieldDecls => exact .inl rfl

/-- A budget that is large enough makes no difference. -/
theorem run_eq (call : Call) (h : depthBudget ts ≤ n) : call.run n ts = call.run (depthBudget ts) ts := by
  rcases call.settles h ts with e | ⟨rest, e⟩
  · exact e.symm
  · have hmoves := call.moves (depthBudget ts) ts
    rw [e] at hmoves
    exact absurd rfl (hmoves (Nat.le_refl _))

/-! ## (3) Positions -/

theorem Takes.forward {all rest : List Token} {p : Nat} (h : call.Takes (all.drop p) rest) :
    ∃ q, p < q ∧ q ≤ all.length ∧ rest = all.drop q ∧
      ∀ k, call.closing = some k → (all[q - 1]?).map (·.kind) = some k := by
  obtain ⟨mid, hne, hsplit, hclosed⟩ := h
  have hpos := List.length_pos_iff.mpr hne
  have hlength : all.length - p = mid.length + rest.length := by
    rw [← List.length_drop, hsplit, List.length_append]
  refine ⟨p + mid.length, by omega, by omega, ?_, ?_⟩
  · rw [← List.drop_drop, hsplit, List.drop_left]
  · intro k hk
    obtain ⟨pre, c, rfl, hc⟩ := hclosed k hk
    have hlast : all[p + (pre ++ [c]).length - 1]? = (all.drop p)[pre.length]? := by
      rw [List.getElem?_drop, List.length_append, List.length_singleton]
      rfl
    rw [hlast, hsplit, List.append_assoc, List.getElem?_append_right (Nat.le_refl _), Nat.sub_self]
    exact congrArg some hc

end Call

theorem program_ne_tooDeep (h : ts.length ≤ n) {f : Failure} (hf : program n ts = .error f) : f.fault ≠ .tooDeep := by
  have hwholly := program_wholly h
  rw [hf] at hwholly
  exact hwholly.deep trivial

-- A list is read up to its bracket; an end of input that stands in the middle of it is a fault like any other.
example : ((Call.items .rbracket).run 100 (Token.tokenize "1, f(2), ] x")).toOption.map List.length = some 1 ∧
    (Call.items .rbracket).run 100 (Token.endOfInput 0 :: Token.tokenize "]") =
      fail .unexpectedEnd (Token.endOfInput 0 :: Token.tokenize "]") := by
  decide +kernel

end Parse

end Scriptlet

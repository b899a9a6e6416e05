/-
  Scriptlet.Proofs.Parsing — what the functions of the parser read, and where they fail.

  The functions call each other with a budget that falls by one, so this is one induction over all of them (`reader`):

  (1) What they read off the front of a list is a derivation of the tree that they return, which stops at what is left.
  (2) A fault says what stands at its place, and its place is in the list that was read (`Blames`).
  (3) A budget of ten for each token left, and a few more, is never used up. So no parse fails for the lack of it.

  A program covers the list: its items are derived from parts of the list that make up the whole (`tokens_derive`). Only
  identifiers are assigned to in it, no part is missing, all operators are those of the language, and every name and
  literal comes from a token (`source_parsed`). The parser does not check any of this; it follows from the derivations.
-/

import Mathlib.Data.List.Forall2
import Mathlib.Data.List.TakeWhile
import Scriptlet.Proofs.Grammar
import Scriptlet.Proofs.Trees

namespace Scriptlet

open List (suffix_rfl length length_append cons_ne_nil suffix_cons suffix_append append_assoc length_cons
  forall_mem_cons forall_mem_nil)

/-! ## Looking ahead -/

variable {t : Token} {ts : List Token} {ps : List Text} {fs : List (Text × Text)} {ns : List Node} {src : Text}
  {fine : Node → Bool}

theorem Parse.behindClosing_other (ho : t.kind ≠ .lparen) (hc : t.kind ≠ .rparen) (d : Nat) (rest : List Token) :
    behindClosing d (t :: rest) = behindClosing d rest := by
  rw [behindClosing]
  split
  · contradiction
  · contradiction
  · rfl

namespace Lookahead

open Grammar (Commas)
open Parse (kindAt behindClosing)

variable {us r : List Token}

theorem kindAt_append (h : ts ≠ []) (us : List Token) : kindAt (ts ++ us) = kindAt ts := by
  obtain ⟨t, ts, rfl⟩ := List.exists_cons_of_ne_nil h
  rfl

theorem behindClosing_append {d : Nat} {b : List Token} (h : behindClosing d ts = some b) (us : List Token) :
    behindClosing d (ts ++ us) = some (b ++ us) := by
  induction ts generalizing d with
  | nil => cases h
  | cons t ts ih =>
    rw [List.cons_append]
    by_cases ho : t.kind = .lparen
    · simp only [behindClosing, ho] at h ⊢
      exact ih h
    · by_cases hc : t.kind = .rparen
      · simp only [behindClosing, hc] at h ⊢
        split at h
        · cases h
          rename_i hd
          simp [hd]
        · rename_i hd
          simp only [hd, if_false]
          exact ih h
      · rw [Parse.behindClosing_other ho hc] at h ⊢
        exact ih h

theorem goesOn_ofExpr (ts : List Token) (k : Kind) :
    (Finish.ofExpr ts).goesOn k = decide (k ∈ exprMore ++ (Finish.ofExpr ts).others) := by
  unfold Finish.ofExpr
  split
  · rfl
  · split
    · rfl
    · rfl

/-! ## Derivations in front of a token -/

def ParamsAt (ps : List Text) (ts : List Token) (_ : Kind) : Prop := ∃ gs, Params ps ts gs

def FieldDeclsAt (fs : List (Text × Text)) (ts : List Token) (_ : Kind) : Prop := ∃ gs, FieldDecls fs ts gs

def HeadAt (ps : List Text) (ts : List Token) (_ : Kind) : Prop :=
  ∃ hs arrow gs, ts = hs ++ [arrow] ∧ Head ps hs gs ∧ arrow.kind = .arrow

def ItemAt (v : Node) (ts : List Token) (k : Kind) : Prop := ∃ e gs, Item v ts e gs ∧ e.goesOn k = false

def BlockAt (vs : List Node) (ts : List Token) (_ : Kind) : Prop := ∃ gs, Block vs ts gs

def ItemsAt (close : Kind) (vs : List Node) (ts : List Token) (_ : Kind) : Prop := ∃ gs, Items close vs ts gs

def FieldsAt (fs : List (Text × Node)) (ts : List Token) (_ : Kind) : Prop := ∃ gs, Fields fs ts gs

def ExprAt (v : Node) (ts : List Token) (k : Kind) : Prop := (∃ gs, Expr v ts gs) ∧ k ∉ exprMore

def TermAt (v : Node) (ts : List Token) (k : Kind) : Prop := (∃ gs, Term v ts gs) ∧ k ∉ termMore

def FactorAt (v : Node) (ts : List Token) (k : Kind) : Prop := (∃ gs, Factor v ts gs) ∧ k ∉ factorMore

def PrimaryAt (v : Node) (ts : List Token) (_ : Kind) : Prop := ∃ gs, Primary v ts gs

theorem params_comma (ht : t.kind = .comma) (h : ∃ gs, Params ps ts gs) : ∃ gs, Params ps (t :: ts) gs := by
  obtain ⟨gs, h⟩ := h
  cases h with
  | close hcs hc => exact ⟨_, .close (hcs.cons ht) hc⟩
  | param hcs hp hps => exact ⟨_, .param (hcs.cons ht) hp hps⟩

theorem fieldDecls_comma (ht : t.kind = .comma) (h : ∃ gs, FieldDecls fs ts gs) :
    ∃ gs, FieldDecls fs (t :: ts) gs := by
  obtain ⟨gs, h⟩ := h
  cases h with
  | close hcs hc => exact ⟨_, .close (hcs.cons ht) hc⟩
  | field hcs hname hcolon htype hfs => exact ⟨_, .field (hcs.cons ht) hname hcolon htype hfs⟩

/-- An expression that was read as an item stops at what is left, if nothing made another item of it. -/
theorem itemAt_of_expr {v : Node} (h : ExprAt v us (kindAt r)) (hne : us ≠ [])
    (hname : ∀ t rest, us ++ r = t :: rest → t.kind = .ident → kindAt rest ∉ Finish.name.others)
    (hgroup : ∀ b, kindAt (us ++ r) = .lparen → behindClosing 0 (us ++ r) = some b → kindAt b ≠ .arrow) :
    ItemAt v us (kindAt r) := by
  obtain ⟨⟨gs, h⟩, hstop⟩ := h
  refine ⟨_, gs, .expr h, ?_⟩
  rw [goesOn_ofExpr, decide_eq_false_iff_not, List.mem_append, not_or]
  refine ⟨hstop, ?_⟩
  unfold Finish.ofExpr
  split
  · rename_i hkinds
    obtain ⟨t, rfl, ht⟩ := List.map_eq_singleton_iff.mp hkinds
    exact hname t r rfl ht
  · split
    · rename_i hparen
      have hkind : kindAt (us ++ r) = .lparen := by rw [kindAt_append hne]; exact hparen.1
      simpa [Finish.others] using hgroup r hkind (behindClosing_append hparen.2 r)
    · exact List.not_mem_nil

end Lookahead

namespace Parse

open Grammar (Commas commas_nil)
open Lookahead (Separator Script Factor ParamsAt FieldDeclsAt HeadAt ItemAt BlockAt ItemsAt FieldsAt ExprAt TermAt FactorAt
  PrimaryAt kindAt_append)

/-! ## Outcomes of a reader -/

/-- The fault is what is wrong with a list, at its first token. -/
def Blames (ts : List Token) : SyntaxFault → Prop
  | .unrecognized lexeme => ∃ t ∈ ts.head?, t.kind = .error ∧ t.lexeme = lexeme
  | .unexpected t => t ∈ ts.head? ∧ t.kind ≠ .lparen ∧ t.kind ≠ .eof ∧ literal? t = none
  | .expected kind t => t ∈ ts.head? ∧ t.kind ≠ kind ∧ t.kind ≠ .eof
  | .unexpectedEnd => kindAt ts = .eof
  | .endExpecting _ => kindAt ts = .eof
  | .endInList => ts = []
  | .unbalancedParenthesis => kindAt ts = .lparen ∧ behindClosing 0 ts = none
  | .tooDeep => True

variable {gs : List Separator}

section

variable {α β : Type} {enough enough' : Prop} {us : List Token} {Q Q' : α → List Token → Prop}
  {R : β → List Token → Prop} {n : Nat} {rest : List Token}

structure Faulty (enough : Prop) (ts : List Token) (f : Failure) : Prop where
  place : f.rest <:+ ts
  blames : Blames f.rest f.fault
  deep : enough → f.fault ≠ .tooDeep

/-- Something is read, with a property of it and of the tokens behind it, or there is a fault in the list. -/
def Ends (enough : Prop) (ts : List Token) (Q : α → List Token → Prop) : Reading (α × List Token) → Prop
  | .ok p => Q p.1 p.2
  | .error f => Faulty enough ts f

theorem ends_fail {fault : SyntaxFault} (hb : Blames rest fault) (hs : rest <:+ ts := by exact suffix_rfl)
    (h : fault ≠ .tooDeep := by exact SyntaxFault.noConfusion) : Ends enough ts Q (fail fault rest) := ⟨hs, hb, fun _ => h⟩

theorem ends_tooDeep (h : ¬ enough := by exact Nat.not_succ_le_zero _) : Ends enough ts Q (fail .tooDeep ts) :=
  ⟨suffix_rfl, trivial, fun he => absurd he h⟩

theorem Faulty.mono {f : Failure} (h : Faulty enough' us f) (hs : us <:+ ts) (he : enough → enough') : Faulty enough ts f :=
  ⟨h.place.trans hs, h.blames, fun e => h.deep (he e)⟩

theorem Ends.bind {x : Reading (α × List Token)} {k : α × List Token → Reading (β × List Token)} (hx : Ends enough' us Q x)
    (hs : us <:+ ts) (he : enough → enough') (hk : ∀ a rest, Q a rest → Ends enough ts R (k (a, rest))) :
    Ends enough ts R (x >>= k) := by
  cases x with
  | error f => exact Faulty.mono hx hs he
  | ok p => exact hk p.1 p.2 hx

theorem Ends.mono {x : Reading (α × List Token)} (hx : Ends enough' us Q x) (hs : us <:+ ts) (he : enough → enough')
    (hq : ∀ a rest, Q a rest → Q' a rest) : Ends enough ts Q' x := by
  cases x with
  | error f => exact Faulty.mono hx hs he
  | ok p => exact hq p.1 p.2 hx

/-- What is read is derived from the tokens taken off the front, with a look at the next one. -/
def Took (P : α → List Token → Kind → Prop) (ts : List Token) (a : α) (rest : List Token) : Prop :=
  ∃ us, us ≠ [] ∧ ts = us ++ rest ∧ P a us (kindAt rest)

abbrev Reads (enough : Prop) (P : α → List Token → Kind → Prop) (ts : List Token) (x : Reading (α × List Token)) : Prop :=
  Ends enough ts (Took P ts) x

theorem Took.length_lt {P : α → List Token → Kind → Prop} {a : α} (h : Took P ts a rest) :
    rest.length < ts.length := by
  obtain ⟨us, hne, rfl, -⟩ := h
  have := List.length_pos_iff.mpr hne
  rw [length_append]
  omega

theorem Took.cons {P : α → List Token → Kind → Prop} {E : β → List Token → Kind → Prop}
    {a : α} {b : β} (h : Took P ts a rest) (hE : ∀ us k, P a us k → E b (t :: us) k) : Took E (t :: ts) b rest := by
  obtain ⟨us, -, rfl, hP⟩ := h
  exact ⟨t :: us, cons_ne_nil _ _, rfl, hE us _ hP⟩

theorem ends_expect (kind : Kind) (ts : List Token) :
    Ends enough ts (fun t rest => t.kind = kind ∧ ts = t :: rest) (expect kind ts) := by
  cases ts with
  | nil => exact ends_fail rfl
  | cons t rest =>
    by_cases ht : t.kind = kind
    · simp only [expect, ht, if_true]
      exact ⟨ht, rfl⟩
    · simp only [expect, ht, if_false]
      split
      · exact ends_fail ‹_›
      · exact ends_fail ⟨rfl, ht, ‹_›⟩

/-! ## Lists that are read without a budget -/

theorem reads_params (ts : List Token) : Reads enough ParamsAt ts (params ts) := by
  induction ts with
  | nil => exact ends_fail rfl
  | cons t rest ih =>
    have hrest := suffix_cons t rest
    unfold params
    split
    · rename_i ht
      exact ih.mono hrest id fun ps r h => h.cons fun us k => Lookahead.params_comma ht
    · rename_i ht
      exact ⟨[t], cons_ne_nil _ _, rfl, _, .close commas_nil ht⟩
    · refine (ends_expect .ident (t :: rest)).bind suffix_rfl id fun p r hp => ?_
      obtain ⟨hk, e⟩ := hp
      cases e
      refine ih.bind hrest id fun ps r hps => hps.cons fun us k h => ?_
      obtain ⟨gs, h⟩ := h
      exact ⟨_, .param commas_nil hk h⟩

theorem reads_fieldDecls (ts : List Token) : Reads enough FieldDeclsAt ts (fieldDecls ts) := by
  fun_induction fieldDecls ts with
  | case1 => exact ends_fail rfl
  | case2 t rest ht ih => exact ih.mono (suffix_cons t rest) id fun fs r h => h.cons fun us k => Lookahead.fieldDecls_comma ht
  | case3 t rest ht => exact ⟨[t], cons_ne_nil _ _, rfl, _, .close commas_nil ht⟩
  | case4 t rest hc hb ih =>
    refine (ends_expect .ident (t :: rest)).bind suffix_rfl id fun name r hn => ?_
    obtain ⟨hname, e⟩ := hn
    cases e
    cases rest with
    | nil => exact ends_fail rfl (suffix_cons t [])
    | cons c rest =>
      refine (ends_expect .colon (c :: rest)).bind (suffix_cons t _) id fun colon r hc => ?_
      obtain ⟨hcolon, e⟩ := hc
      cases e
      cases rest with
      | nil => exact ends_fail rfl (List.nil_suffix ..)
      | cons u rest =>
        refine (ends_expect .ident (u :: rest)).bind ⟨[t, c], rfl⟩ id fun type r ht => ?_
        obtain ⟨htype, e⟩ := ht
        cases e
        refine ih.bind ⟨[t, c, u], rfl⟩ id fun fs r hfs => ?_
        obtain ⟨us, -, rfl, gs, h⟩ := hfs
        exact ⟨t :: c :: u :: us, cons_ne_nil _ _, rfl, _, .field commas_nil hname hcolon htype h⟩

theorem reads_structDef {word : Token} (hword : word.kind = .type ∨ word.kind = .struct) (ts : List Token) :
    Reads enough ItemAt (word :: ts) (structDef ts) := by
  refine (ends_expect .ident ts).bind (suffix_cons word ts) id fun name r hn => ?_
  obtain ⟨hname, rfl⟩ := hn
  refine (ends_expect .lbrace r).bind ⟨[word, name], rfl⟩ id fun brace r' hb => ?_
  obtain ⟨hbrace, rfl⟩ := hb
  refine (reads_fieldDecls r').bind ⟨[word, name, brace], rfl⟩ id fun fs r hfs => ?_
  obtain ⟨us, -, rfl, gs, h⟩ := hfs
  exact ⟨[word, name, brace] ++ us, cons_ne_nil _ _, rfl, .closed, _, .structDef hword hname hbrace h, rfl⟩

theorem reads_functionHead (ts : List Token) : Reads enough HeadAt ts (functionHead ts) := by
  have behind {ps : List Text} {hs r : List Token} {gs : List Separator} (hhead : Lookahead.Head ps hs gs) :
      Reads enough HeadAt (hs ++ r) (expect .arrow r >>= fun x => .ok (ps, x.2)) := by
    refine (ends_expect .arrow r).bind (suffix_append hs r) id fun arrow r ha => ?_
    obtain ⟨harrow, rfl⟩ := ha
    exact ⟨hs ++ [arrow], by simp, by simp, hs, arrow, gs, rfl, hhead, harrow⟩
  cases ts with
  | nil => exact ends_fail rfl
  | cons t rest =>
    unfold functionHead
    by_cases ht : t.kind = .ident
    · simp only [ht, if_true]
      exact behind (.name ht)
    · simp only [ht, if_false]
      refine (ends_expect .lparen (t :: rest)).bind suffix_rfl id fun paren r hp => ?_
      obtain ⟨hparen, e⟩ := hp
      cases e
      refine (reads_params rest).bind (suffix_cons t rest) id fun ps r hps => ?_
      obtain ⟨us, -, rfl, gs, h⟩ := hps
      exact behind (.list hparen h)

/-! ## The readers of the grammar -/

structure Reader (n : Nat) : Prop where
  item (ts : List Token) : Reads (10 * ts.length + 6 ≤ n) ItemAt ts (item n ts)
  function (ts : List Token) : Reads (10 * ts.length + 5 ≤ n) ItemAt ts (function n ts)
  block (ts : List Token) : Reads (10 * ts.length + 7 ≤ n) BlockAt ts (block n ts)
  items (close : Kind) (ts : List Token) : Reads (10 * ts.length + 7 ≤ n) (ItemsAt close) ts (items n close ts)
  fields (ts : List Token) : Reads (10 * ts.length + 7 ≤ n) FieldsAt ts (fields n ts)
  expr (ts : List Token) : Reads (10 * ts.length + 4 ≤ n) ExprAt ts (expr n ts)
  term (ts : List Token) : Reads (10 * ts.length + 3 ≤ n) TermAt ts (term n ts)
  factor (ts : List Token) : Reads (10 * ts.length + 2 ≤ n) FactorAt ts (factor n ts)
  /-- The suffixes extend a factor, possibly by nothing. -/
  suffixes {v : Node} {pre : List Token} {gs : List Separator} (hv : Factor v pre gs) (ts : List Token) :
    Ends (10 * ts.length + 1 ≤ n) ts (fun w rest => ∃ us, ts = us ++ rest ∧ FactorAt w (pre ++ us) (kindAt rest))
      (suffixes n v ts)
  primary (ts : List Token) : Reads (10 * ts.length + 1 ≤ n) PrimaryAt ts (primary n ts)

theorem reader_zero : Reader 0 where
  item _ := ends_tooDeep
  function _ := ends_tooDeep
  block _ := ends_tooDeep
  items _ _ := ends_tooDeep
  fields _ := ends_tooDeep
  expr _ := ends_tooDeep
  term _ := ends_tooDeep
  factor _ := ends_tooDeep
  suffixes _ _ := ends_tooDeep
  primary _ := ends_tooDeep

/-- Commas at the front, and what is behind them. -/
theorem exists_commas (ts : List Token) : ∃ cs, Commas cs ∧ ts = cs ++ skipCommas ts := by
  refine ⟨ts.takeWhile (·.kind = .comma), fun c hc => ?_, (List.takeWhile_append_dropWhile ..).symm⟩
  have hcomma := List.mem_takeWhile_imp hc
  exact of_decide_eq_true hcomma

theorem exists_cons_of_kindAt {k : Kind} (hk : k ≠ .eof) (h : kindAt ts = k) : ∃ t, t.kind = k ∧ ts = t :: ts.drop 1 := by
  cases ts with
  | nil => exact absurd h.symm hk
  | cons t ts => exact ⟨t, h, rfl⟩

/-- What is read on a level of operators, from an operand and the tokens behind it. -/
def level (ops : List Operator) (right : List Token → Reading (Node × List Token)) (q : Node × List Token) :
    Reading (Node × List Token) :=
  match ops.find? (kindAt q.2 = ·.kind) with
  | some op => right (q.2.drop 1) >>= fun p => .ok (.binary op q.1 p.1, p.2)
  | none => .ok q

theorem expr_level (n : Nat) (ts : List Token) : expr (n + 1) ts = term n ts >>= level [.add, .sub] (expr n) := by
  rw [expr]
  refine congrArg _ (funext fun q => ?_)
  unfold level
  cases h : kindAt q.2 <;> simp [Operator.kind, h]

theorem term_level (n : Nat) (ts : List Token) : term (n + 1) ts = factor n ts >>= level [.mul, .div] (term n) := by
  rw [term]
  refine congrArg _ (funext fun q => ?_)
  unfold level
  cases h : kindAt q.2 <;> simp [Operator.kind, h]

/-- An operand is all there is, or an operator stands behind it. -/
theorem reads_level {P P' : Node → List Token → Kind → Prop} {ops : List Operator} {l : Node} {r : List Token}
    {right : List Token → Reading (Node × List Token)} (hl : Took P ts l r)
    (hright : Reads enough' P' (r.drop 1) (right (r.drop 1))) (he : enough → enough')
    (alone : ∀ us k, P l us k → (∀ op ∈ ops, k ≠ op.kind) → P' l us k)
    (operator : ∀ op ∈ ops, ∀ pre sign v us k k', P l pre k → sign.kind = op.kind → P' v us k' →
      P' (.binary op l v) (pre ++ ([sign] ++ us)) k') : Reads enough P' ts (level ops right (l, r)) := by
  obtain ⟨pre, hne, rfl, hl⟩ := hl
  unfold level
  cases hfind : ops.find? fun op => kindAt r = op.kind with
  | none =>
    refine ⟨pre, hne, rfl, alone pre _ hl fun op hop => ?_⟩
    simpa using List.find?_eq_none.mp hfind op hop
  | some op =>
    have hkind : kindAt r = op.kind := by simpa using List.find?_some hfind
    obtain ⟨sign, hsign, e⟩ := exists_cons_of_kindAt (by cases op <;> exact Kind.noConfusion) hkind
    refine hright.bind ((List.drop_suffix 1 r).trans (suffix_append pre r)) he fun v rest hv => ?_
    obtain ⟨us, -, e', hv⟩ := hv
    refine ⟨pre ++ ([sign] ++ us), by simp, ?_, operator op (List.mem_of_find?_eq_some hfind) pre sign v us _ _ hl hsign hv⟩
    rw [e, e', append_assoc, append_assoc, List.singleton_append]

section

variable (ih : Reader n) (ts)

include ih

theorem Reader.expr_succ : Reads (10 * ts.length + 4 ≤ n + 1) ExprAt ts (Parse.expr (n + 1) ts) := by
  rw [expr_level]
  refine (ih.term ts).bind suffix_rfl (by omega) fun l r hl => ?_
  have hlt := hl.length_lt
  refine reads_level hl (ih.expr _) (by rw [List.length_drop]; omega) ?_ ?_
  · rintro us k ⟨⟨gs, hl⟩, hstop⟩ hk
    exact ⟨⟨gs, .term hl⟩, List.not_mem_append hstop (by simpa [Operator.kind] using hk)⟩
  · rintro op hop pre sign v us k k' ⟨⟨gs, hl⟩, -⟩ hsign ⟨⟨gs', hv⟩, hk⟩
    exact ⟨⟨_, .sum hl (by simpa using hop) hsign hv⟩, hk⟩

theorem Reader.term_succ : Reads (10 * ts.length + 3 ≤ n + 1) TermAt ts (Parse.term (n + 1) ts) := by
  rw [term_level]
  refine (ih.factor ts).bind suffix_rfl (by omega) fun l r hl => ?_
  have hlt := hl.length_lt
  refine reads_level hl (ih.term _) (by rw [List.length_drop]; omega) ?_ ?_
  · rintro us k ⟨⟨gs, hl⟩, hstop⟩ hk
    exact ⟨⟨gs, .factor hl⟩, List.not_mem_append hstop (by simpa [Operator.kind] using hk)⟩
  · rintro op hop pre sign v us k k' ⟨⟨gs, hl⟩, -⟩ hsign ⟨⟨gs', hv⟩, hk⟩
    exact ⟨⟨_, .product hl (by simpa using hop) hsign hv⟩, hk⟩

theorem Reader.factor_succ : Reads (10 * ts.length + 2 ≤ n + 1) FactorAt ts (Parse.factor (n + 1) ts) := by
  unfold Parse.factor
  refine (ih.primary ts).bind suffix_rfl (by omega) fun v r hv => ?_
  have hlt := hv.length_lt
  obtain ⟨pre, hne, rfl, gs, hv⟩ := hv
  refine (ih.suffixes (.primary hv) r).mono (suffix_append pre r) (by omega) fun w rest hw => ?_
  obtain ⟨us, rfl, hw⟩ := hw
  exact ⟨pre ++ us, by simp [hne], (append_assoc ..).symm, hw⟩

theorem Reader.suffixes_succ {v : Node} {pre : List Token} (hv : Factor v pre gs)
    (ts : List Token) : Ends (10 * ts.length + 1 ≤ n + 1) ts
      (fun w rest => ∃ us, ts = us ++ rest ∧ FactorAt w (pre ++ us) (kindAt rest)) (Parse.suffixes (n + 1) v ts) := by
  have hdrop := List.drop_suffix 1 ts
  unfold Parse.suffixes
  split
  · rename_i hk
    obtain ⟨paren, hparen, e⟩ := exists_cons_of_kindAt Kind.noConfusion hk
    have hlen := congrArg length e
    rw [length_cons] at hlen
    refine (ih.items .rparen (ts.drop 1)).bind hdrop (by omega) fun vs r hvs => ?_
    have hlt := hvs.length_lt
    obtain ⟨us, -, hus, gs', hvs⟩ := hvs
    have hr : r <:+ ts := (hus ▸ suffix_append us r).trans hdrop
    refine (ih.suffixes (.call hv hparen hvs) r).mono hr (by omega) fun w rest hw => ?_
    obtain ⟨us', rfl, hw⟩ := hw
    refine ⟨paren :: (us ++ us'), ?_, by simpa using hw⟩
    rw [e, hus, List.cons_append, append_assoc]
  · rename_i hk
    obtain ⟨dot, hdot, e⟩ := exists_cons_of_kindAt Kind.noConfusion hk
    have hlen := congrArg length e
    rw [length_cons] at hlen
    refine (ends_expect .ident (ts.drop 1)).bind hdrop id fun name r hn => ?_
    obtain ⟨hname, e'⟩ := hn
    have hlen' := congrArg length e'
    rw [length_cons] at hlen'
    have hr : r <:+ ts := (e' ▸ suffix_cons name r).trans hdrop
    refine (ih.suffixes (.property hv hdot hname) r).mono hr (by omega) fun w rest hw => ?_
    obtain ⟨us', rfl, hw⟩ := hw
    refine ⟨dot :: name :: us', ?_, by simpa using hw⟩
    rw [e, e']
    rfl
  · rename_i ho hd
    refine ⟨[], rfl, ⟨gs, by rwa [List.append_nil]⟩, ?_⟩
    simpa [Lookahead.factorMore] using ⟨ho, hd⟩

theorem Reader.primary_succ : Reads (10 * ts.length + 1 ≤ n + 1) PrimaryAt ts (Parse.primary (n + 1) ts) := by
  cases ts with
  | nil => exact ends_fail rfl
  | cons t rest =>
    unfold Parse.primary
    dsimp only
    by_cases ht : t.kind = .lparen
    · rw [if_pos ht]
      refine (ih.expr rest).bind (suffix_cons t rest) (by rw [length_cons]; omega) fun v r hv => ?_
      obtain ⟨us, -, rfl, ⟨gs, hv⟩, -⟩ := hv
      refine (ends_expect .rparen r).bind ⟨t :: us, rfl⟩ id fun close r' hc => ?_
      obtain ⟨hclose, rfl⟩ := hc
      exact ⟨[t] ++ (us ++ [close]), cons_ne_nil _ _, by simp, _, .parens ht hv hclose⟩
    · rw [if_neg ht]
      cases hv : literal? t with
      | some v => exact ⟨[t], cons_ne_nil _ _, rfl, _, .literal ht hv⟩
      | none =>
        dsimp only
        split
        · exact ends_fail ‹_›
        · exact ends_fail ⟨rfl, ht, ‹_›, hv⟩

theorem Reader.items_succ (close : Kind) (ts : List Token) :
    Reads (10 * ts.length + 7 ≤ n + 1) (ItemsAt close) ts (Parse.items (n + 1) close ts) := by
  obtain ⟨cs, hcs, e⟩ := exists_commas ts
  unfold Parse.items
  split
  · exact ends_fail rfl (List.nil_suffix ..)
  · rename_i t rest hskip
    rw [hskip] at e
    subst e
    split
    · rename_i ht
      exact ⟨cs ++ [t], by simp, by simp, _, .close hcs ht⟩
    · refine (ih.item (t :: rest)).bind (suffix_append cs _) (by rw [length_append]; omega) fun v r hv => ?_
      have hlt := hv.length_lt
      obtain ⟨us, hne, hus, e, gs, hv, hstop⟩ := hv
      have hr : r <:+ cs ++ t :: rest := ⟨cs ++ us, by simp [hus]⟩
      refine (ih.items close r).bind hr (by rw [length_append]; omega) fun vs r' hvs => ?_
      obtain ⟨us', hne', rfl, gs', hvs⟩ := hvs
      rw [kindAt_append hne'] at hstop
      exact ⟨cs ++ (us ++ us'), by simp [hne], by rw [hus]; simp, _, .item hcs hv hstop hvs⟩

theorem Reader.fields_succ : Reads (10 * ts.length + 7 ≤ n + 1) FieldsAt ts (Parse.fields (n + 1) ts) := by
  obtain ⟨cs, hcs, e⟩ := exists_commas ts
  unfold Parse.fields
  split
  · exact ends_fail rfl (List.nil_suffix ..)
  · rename_i t rest hskip
    rw [hskip] at e
    subst e
    split
    · rename_i ht
      exact ⟨cs ++ [t], by simp, by simp, _, .close hcs ht⟩
    · refine (ends_expect .ident (t :: rest)).bind (suffix_append cs _) id fun name r hn => ?_
      obtain ⟨hname, e⟩ := hn
      cases e
      refine (ends_expect .colon rest).bind ⟨cs ++ [t], by simp⟩ id fun colon r hc => ?_
      obtain ⟨hcolon, rfl⟩ := hc
      refine (ih.item r).bind ⟨cs ++ [t, colon], by simp⟩ ?_ fun v r' hv => ?_
      · simp only [length_append, length_cons]
        omega
      have hlt := hv.length_lt
      obtain ⟨us, hne, rfl, e, gs, hv, hstop⟩ := hv
      refine (ih.fields r').bind ⟨cs ++ [t, colon] ++ us, by simp⟩ ?_ fun fs r hfs => ?_
      · simp only [length_append, length_cons] at hlt ⊢
        omega
      obtain ⟨us', hne', rfl, gs', hfs⟩ := hfs
      rw [kindAt_append hne'] at hstop
      exact ⟨cs ++ ([t, colon] ++ (us ++ us')), by simp, by simp, _, .field hcs hname hcolon hv hstop hfs⟩

theorem Reader.block_succ : Reads (10 * ts.length + 7 ≤ n + 1) BlockAt ts (Parse.block (n + 1) ts) := by
  unfold Parse.block
  split
  · rename_i hk
    obtain ⟨c, hc, e⟩ := exists_cons_of_kindAt Kind.noConfusion hk
    exact ⟨[c], cons_ne_nil _ _, e, _, .close hc⟩
  · refine (ih.item ts).bind suffix_rfl (by omega) fun v r hv => ?_
    have hlt := hv.length_lt
    obtain ⟨us, hne, rfl, e, gs, hv, hstop⟩ := hv
    refine (ih.block r).bind (suffix_append us r) (by omega) fun vs r' hvs => ?_
    obtain ⟨us', hne', rfl, gs', hvs⟩ := hvs
    rw [kindAt_append hne'] at hstop
    exact ⟨us ++ us', by simp [hne], by simp, _, .item hv hstop hvs⟩

theorem Reader.function_succ : Reads (10 * ts.length + 5 ≤ n + 1) ItemAt ts (Parse.function (n + 1) ts) := by
  unfold Parse.function
  refine (reads_functionHead ts).bind suffix_rfl id fun ps r hhead => ?_
  have hlt := hhead.length_lt
  obtain ⟨_, -, rfl, hs, arrow, hg, rfl, hhead, harrow⟩ := hhead
  have single : Reads (10 * (hs ++ [arrow] ++ r).length + 5 ≤ n + 1) ItemAt (hs ++ [arrow] ++ r)
      (Parse.item n r >>= fun p => .ok (.function ps [p.1], p.2)) := by
    refine (ih.item r).bind (suffix_append _ r) (by omega) fun v r' hv => ?_
    obtain ⟨us, -, rfl, e, gs, hv, hstop⟩ := hv
    exact ⟨hs ++ ([arrow] ++ us), by simp, by simp, e, _, .function hhead harrow hv, hstop⟩
  cases r with
  | nil => exact single
  | cons t rest =>
    dsimp only
    split
    · rename_i ht
      refine (ih.block rest).bind ⟨hs ++ [arrow] ++ [t], by simp⟩ (by rw [length_cons] at hlt; omega)
        fun vs r' hvs => ?_
      obtain ⟨us, -, rfl, gs, hvs⟩ := hvs
      exact ⟨hs ++ ([arrow, t] ++ us), by simp, by simp, .closed, _, .block hhead harrow ht hvs, rfl⟩
    · exact single

theorem Reader.item_succ : Reads (10 * ts.length + 6 ≤ n + 1) ItemAt ts (Parse.item (n + 1) ts) := by
  have asExpr (hname : ∀ t rest, ts = t :: rest → t.kind = .ident → kindAt rest ∉ Lookahead.Finish.name.others)
      (hgroup : ∀ b, kindAt ts = .lparen → behindClosing 0 ts = some b → kindAt b ≠ .arrow) :
      Reads (10 * ts.length + 6 ≤ n + 1) ItemAt ts (Parse.expr n ts) := by
    refine (ih.expr ts).mono suffix_rfl (by omega) fun v r hv => ?_
    obtain ⟨us, hne, rfl, hv⟩ := hv
    exact ⟨us, hne, rfl, Lookahead.itemAt_of_expr hv hne hname hgroup⟩
  have asFunction : Reads (10 * ts.length + 6 ≤ n + 1) ItemAt ts (Parse.function n ts) :=
    (ih.function ts).mono suffix_rfl (by omega) fun _ _ => id
  cases ts with
  | nil => exact ends_fail rfl
  | cons t rest =>
    have hrest := suffix_cons t rest
    have hlen : 10 * (t :: rest).length + 6 ≤ n + 1 → 10 * rest.length + 7 ≤ n := by
      rw [length_cons]
      omega
    unfold Parse.item
    dsimp only
    split
    · rename_i ht
      have hgroup (b : List Token) (hk : kindAt (t :: rest) = .lparen) : behindClosing 0 (t :: rest) = some b → kindAt b ≠ .arrow :=
        absurd (ht.symm.trans hk) (by decide)
      split
      · refine asExpr (fun u r e _ => ?_) hgroup
        cases e
        decide
      · rename_i u rest'
        have hlen' : 10 * (t :: u :: rest').length + 6 ≤ n + 1 → 10 * rest'.length + 7 ≤ n := by
          simp only [length_cons]
          omega
        have hrest' : rest' <:+ t :: u :: rest' := ⟨[t, u], rfl⟩
        split
        · rename_i hu
          refine (ih.item rest').bind hrest' (by omega) fun v r hv => ?_
          obtain ⟨us, -, rfl, e, gs, hv, hstop⟩ := hv
          exact ⟨[t, u] ++ us, cons_ne_nil _ _, by simp, e, _, .assign ht hu hv, hstop⟩
        · rename_i hu
          exact ⟨[t, u], cons_ne_nil _ _, rfl, .closed, _, .variable ht hu, rfl⟩
        · rename_i hu
          refine (ih.fields rest').bind hrest' hlen' fun fs r hfs => ?_
          obtain ⟨us, -, rfl, gs, hfs⟩ := hfs
          exact ⟨[t, u] ++ us, cons_ne_nil _ _, by simp, .closed, _, .construct ht hu hfs, rfl⟩
        · exact asFunction
        · rename_i h₁ h₂ h₃ h₄
          refine asExpr (fun w r e _ => ?_) hgroup
          cases e
          simpa [Lookahead.Finish.others, kindAt] using ⟨h₁, h₂, h₃, h₄⟩
    · rename_i ht
      refine (ih.items .rbracket rest).bind hrest hlen fun vs r hvs => ?_
      obtain ⟨us, -, rfl, gs, hvs⟩ := hvs
      exact ⟨[t] ++ us, cons_ne_nil _ _, by simp, .closed, _, .array ht hvs, rfl⟩
    · rename_i ht
      split
      · exact ends_fail ⟨ht, ‹_›⟩
      · rename_i behind hbehind
        split
        · exact asFunction
        · rename_i harrow
          refine asExpr (fun u r e hu => ?_) fun b _ hb => ?_
          · cases e
            exact absurd (ht.symm.trans hu) (by decide)
          · cases hbehind.symm.trans hb
            exact harrow
    · rename_i ht
      split
      · rename_i hend
        refine ⟨[t], cons_ne_nil _ _, rfl, .bare, _, .ret ht, ?_⟩
        unfold Parse.endsItem at hend
        split at hend <;> simp_all [Lookahead.Finish.goesOn]
      · refine (ih.item rest).bind hrest (by omega) fun v r hv => ?_
        obtain ⟨us, -, rfl, e, gs, hv, hstop⟩ := hv
        exact ⟨[t] ++ us, cons_ne_nil _ _, by simp, e, _, .retItem ht hv, hstop⟩
    · exact reads_structDef (.inl ‹_›) rest
    · exact reads_structDef (.inr ‹_›) rest
    · exact ends_fail ‹_›
    · rename_i h₁ h₂ h₃ h₄ h₅ h₆ h₇
      refine asExpr (fun u r e hu => ?_) fun b hk _ => ?_
      · cases e
        exact absurd hu h₁
      · exact absurd hk h₃

end

theorem reader (n : Nat) : Reader n := by
  induction n with
  | zero => exact reader_zero
  | succ n ih =>
    exact ⟨ih.item_succ, ih.function_succ, ih.block_succ, ih.items_succ, ih.fields_succ, ih.expr_succ, ih.term_succ,
      ih.factor_succ, ih.suffixes_succ, ih.primary_succ⟩

end

/-! ## Programs -/

/-- The nodes are derived from parts of the list, one for each, that make up the list. -/
def Derived (ns : List Node) (ts : List Token) : Prop := ∃ parts, ts = parts.flatten ∧ List.Forall₂ Grammar.Item ns parts

theorem derived_of_script (h : Script ns ts gs) : Derived ns ts := by
  induction h with
  | nil => exact ⟨[], rfl, .nil⟩
  | @item ts us v vs e gs gs' hv _ _ ih =>
    obtain ⟨parts, rfl, hall⟩ := ih
    exact ⟨ts :: parts, rfl, .cons hv.plain hall⟩

/-- The whole list is read, or there is a fault in it, which is not the lack of budget. -/
def Wholly (ts : List Token) : Reading (List Node) → Prop
  | .ok ns => ∃ gs, Script ns ts gs
  | .error f => Faulty True ts f

theorem program_wholly {n : Nat} (h : ts.length ≤ n) : Wholly ts (program n ts) := by
  induction n generalizing ts with
  | zero =>
    rw [List.eq_nil_of_length_eq_zero (Nat.le_zero.mp h)]
    exact ⟨[], .nil⟩
  | succ n ih =>
    cases ts with
    | nil => exact ⟨[], .nil⟩
    | cons t ts =>
      have hitem := (reader (depthBudget (t :: ts))).item (t :: ts)
      unfold program
      cases hread : item (depthBudget (t :: ts)) (t :: ts) with
      | error f =>
        rw [hread] at hitem
        exact Faulty.mono hitem suffix_rfl fun _ => by unfold depthBudget; omega
      | ok p =>
        rw [hread] at hitem
        have hlt := hitem.length_lt
        obtain ⟨us, -, hus, e, gs, hv, hstop⟩ := hitem
        have hrest := @ih p.2 (by omega)
        change Wholly (t :: ts) (program n p.2 >>= fun vs => .ok (p.1 :: vs))
        rw [hus]
        cases hp : program n p.2 with
        | error f =>
          rw [hp] at hrest
          exact Faulty.mono hrest (suffix_append us p.2) id
        | ok vs =>
          rw [hp] at hrest
          obtain ⟨gs', hvs⟩ := hrest
          exact ⟨_, .item hv hstop hvs⟩

theorem wholeList_wholly (ts : List Token) : Wholly ts (wholeList ts) := by
  unfold wholeList
  split
  · exact program_wholly (Nat.le_refl _)
  · rename_i t rest e
    have hmem : t.kind = .error := by
      have hhead := List.head?_dropWhile_not (fun t : Token => decide (t.kind ≠ .error)) ts
      rw [e] at hhead
      simpa using hhead
    exact ⟨e ▸ List.dropWhile_suffix _, ⟨t, rfl, hmem, rfl⟩, fun _ => SyntaxFault.noConfusion⟩

/-- A list that is no program has a fault at one of its tokens or at its end. -/
theorem wholeList_faulty {f : Failure} (h : wholeList ts = .error f) : Faulty True ts f := by
  have hwholly := wholeList_wholly ts
  rwa [h] at hwholly

theorem exists_script (h : wholeList ts = .ok ns) : ∃ gs, Script ns ts gs := by
  have hwholly := wholeList_wholly ts
  rwa [h] at hwholly

/-- Either the nodes of a program are derived from the whole of its tokens, or there is a syntax error, which is never
    that the parser's budget was used up. -/
theorem tokens_derive (source : Text) (ts : List Token) :
    (∃ ns, tokens source ts = .ok ns ∧ Derived ns ts) ∨
      ∃ e, tokens source ts = .error e ∧ e.fault ≠ .tooDeep := by
  unfold tokens
  cases hw : wholeList ts with
  | ok ns =>
    obtain ⟨gs, h⟩ := exists_script hw
    exact .inl ⟨ns, rfl, derived_of_script h⟩
  | error f => exact .inr ⟨_, rfl, (wholeList_faulty hw).deep trivial⟩

-- Commas may stand before elements and before what closes them, but not between items.
example : (source "f = (a, b) => { return [a.x(b,), , 1 + 2 * c,] } f(1 2)").toOption.map length = some 2 ∧
    (source "f(1), g").toOption = none := by
  decide +kernel

theorem wholeList_of_source (h : source src = .ok ns) : wholeList (Token.tokenize src) = .ok ns := by
  unfold source tokens at h
  cases hw : wholeList (Token.tokenize src) with
  | error f =>
    rw [hw] at h
    cases h
  | ok vs =>
    rw [hw] at h
    cases h
    rfl

end Parse

/-! ## Nodes that are derived -/

namespace Node

/-- The identifiers and literals that the node itself consists of. -/
def leaves : Node → List Node
  | .int n => [.int n]
  | .float x => [.float x]
  | .str s => [.str s]
  | n => n.names.map .ident

/-- What the parser guarantees of single nodes, if all identifiers and literals are fine. -/
def isParsed (fine : Node → Bool) (n : Node) : Bool := n.assignsName && n.isWhole && n.leaves.all fine

def types : Node → List Text
  | .structDef _ fs => fs.map (·.2)
  | .variable type _ => [type]
  | _ => []

/-- What is called, has a property or is calculated with is an expression. -/
def hasOperands : Node → Bool
  | .call callee _ => callee.isExpr
  | .property object _ => object.isExpr
  | .binary _ l r => l.isExpr && r.isExpr
  | _ => true

def isDerived (fine : Node → Bool) (n : Node) : Bool :=
  n.isParsed fine && n.hasOperands && (n.types.map Node.ident).all fine

end Node

namespace Parse

def Fine (fine : Node → Bool) (ts : List Token) : Prop := ∀ t ∈ ts, ∀ v, literal? t = some v → fine v = true

theorem Fine.name (h : Fine fine ts) (ht : t ∈ ts) (hk : t.kind = .ident) :
    fine (.ident t.lexeme) = true := h t ht _ (by simp [literal?, hk])

theorem Fine.part {us : List Token} (h : Fine fine ts) (hs : ∀ t ∈ us, t ∈ ts := by simp +contextual) : Fine fine us :=
  fun t ht => h t (hs t ht)

end Parse

namespace Grammar

open Parse (Fine)

def FineNames (fine : Node → Bool) (names : List Text) : Prop := (names.map Node.ident).all fine = true

theorem fineNames_nil : FineNames fine [] := rfl

theorem fineNames_cons {name : Text} {names : List Text} (hn : fine (.ident name) = true) (h : FineNames fine names) :
    FineNames fine (name :: names) := by
  rw [FineNames, List.map_cons, List.all_cons, hn, Bool.true_and]
  exact h

theorem params_fine (h : Params ps ts) (hf : Fine fine ts) : FineNames fine ps := by
  induction h with
  | close => rfl
  | param _ hp _ ih => exact fineNames_cons (hf.name (by simp) hp) (ih hf.part)

theorem fieldDecls_fine (h : FieldDecls fs ts) (hf : Fine fine ts) :
    FineNames fine (fs.map (·.1)) ∧ FineNames fine (fs.map (·.2)) := by
  induction h with
  | close => exact ⟨rfl, rfl⟩
  | field _ hname _ htype _ ih =>
    obtain ⟨hnames, htypes⟩ := ih hf.part
    exact ⟨fineNames_cons (hf.name (by simp) hname) hnames, fineNames_cons (hf.name (by simp) htype) htypes⟩

theorem head_fine (h : Head ps ts) (hf : Fine fine ts) : FineNames fine ps := by
  cases h with
  | name ht => exact fineNames_cons (hf.name List.mem_cons_self ht) fineNames_nil
  | list _ hps => exact params_fine hps hf.part

def Good (fine : Node → Bool) (n : Node) : Prop := n.every (Node.isDerived fine) = true

theorem good_of {n : Node} (hassigns : n.assignsName = true) (hwhole : n.isWhole = true) (hoperands : n.hasOperands = true)
    (hleaves : n.leaves.all fine = true) (htypes : FineNames fine n.types) (hparts : ∀ c ∈ n.children, Good fine c) :
    Good fine n := by
  refine Node.every_iff.mpr ⟨?_, hparts⟩
  rw [Node.isDerived, Node.isParsed, hassigns, hwhole, hoperands, hleaves, htypes]
  rfl

def GoodExpr (fine : Node → Bool) (n : Node) : Prop := Good fine n ∧ n.isExpr = true

theorem GoodExpr.binary {op : Operator} {l r : Node} (hop : (Node.binary op l r).isWhole = true) (hl : GoodExpr fine l)
    (hr : GoodExpr fine r) : GoodExpr fine (.binary op l r) := by
  have hoperands : (Node.binary op l r).hasOperands = true := by rw [Node.hasOperands, hl.2, hr.2]; rfl
  exact ⟨good_of rfl hop hoperands rfl rfl (forall_mem_cons.mpr ⟨hl.1, List.forall_mem_singleton.mpr hr.1⟩), rfl⟩

theorem literal_good {n : Node} (hn : Parse.literal? t = some n) (hf : Fine fine [t]) : GoodExpr fine n := by
  have hfine := hf t List.mem_cons_self n hn
  unfold Parse.literal? at hn
  split at hn
  case h_5 => cases hn
  all_goals
    cases hn
    exact ⟨good_of rfl rfl rfl (by simpa [Node.leaves, Node.names] using hfine) rfl (forall_mem_nil _), rfl⟩

mutual

theorem item_good {n ts} : Item n ts → Fine fine ts → Good fine n
  | .assign hname _ hv, hf => by
    have hleft := fineNames_cons (hf.name List.mem_cons_self hname) fineNames_nil
    have hvalue := item_good hv hf.part
    refine good_of rfl rfl rfl rfl rfl (forall_mem_cons.mpr ⟨?_, List.forall_mem_singleton.mpr hvalue⟩)
    exact good_of rfl rfl rfl hleft rfl (forall_mem_nil _)
  | .variable htype hname, hf =>
    good_of rfl rfl rfl (fineNames_cons (hf.name (by simp) hname) fineNames_nil)
      (fineNames_cons (hf.name (by simp) htype) fineNames_nil) (forall_mem_nil _)
  | .construct (.mk hname _ hfs), hf => by
    obtain ⟨hnames, hvalues⟩ := fields_good hfs hf.part
    exact good_of rfl rfl rfl (fineNames_cons (hf.name (by simp) hname) hnames) rfl hvalues
  | .function (.block hhead _ _ hbody), hf =>
    good_of rfl rfl rfl (head_fine hhead hf.part) rfl
      (block_good hbody hf.part)
  | .function (.item hhead _ hv), hf =>
    good_of rfl rfl rfl (head_fine hhead hf.part) rfl
      (List.forall_mem_singleton.mpr (item_good hv hf.part))
  | .array (.mk _ hvs), hf => good_of rfl rfl rfl rfl rfl (items_good hvs hf.part)
  | .ret _, _ => good_of rfl rfl rfl rfl rfl (forall_mem_nil _)
  | .retItem _ hv, hf =>
    good_of rfl rfl rfl rfl rfl (List.forall_mem_singleton.mpr (item_good hv hf.part))
  | .structDef (.mk _ hname _ hfs), hf => by
    obtain ⟨hnames, htypes⟩ := fieldDecls_fine hfs hf.part
    exact good_of rfl rfl rfl (fineNames_cons (hf.name (by simp) hname) hnames) htypes (forall_mem_nil _)
  | .expr h, hf => (expr_good h hf).1

theorem block_good {ns ts} : Grammar.Block ns ts → Fine fine ts → ∀ n ∈ ns, Good fine n
  | .close _, _ => forall_mem_nil _
  | .item hv hvs, hf =>
    forall_mem_cons.mpr ⟨item_good hv hf.part,
      block_good hvs hf.part⟩

theorem fields_good {fs ts} : Fields fs ts → Fine fine ts →
    FineNames fine (fs.map (·.1)) ∧ ∀ n ∈ fs.map (·.2), Good fine n
  | .close _ _, _ => ⟨rfl, forall_mem_nil _⟩
  | .field _ hname _ hv hfs, hf => by
    obtain ⟨hnames, hvalues⟩ := fields_good hfs hf.part
    exact ⟨fineNames_cons (hf.name (by simp) hname) hnames,
      forall_mem_cons.mpr ⟨item_good hv hf.part, hvalues⟩⟩

theorem items_good {close ns ts} : Items close ns ts → Fine fine ts → ∀ n ∈ ns, Good fine n
  | .close _ _, _ => forall_mem_nil _
  | .item _ hv hvs, hf =>
    forall_mem_cons.mpr ⟨item_good hv hf.part,
      items_good hvs hf.part⟩

theorem expr_good {n ts} : Expr n ts → Fine fine ts → GoodExpr fine n
  | .term h, hf => term_good h hf
  | .add hl _ hr, hf | .sub hl _ hr, hf =>
    .binary rfl (term_good hl hf.part) (expr_good hr hf.part)

theorem term_good {n ts} : Term n ts → Fine fine ts → GoodExpr fine n
  | .factor h, hf => factor_good h hf
  | .mul hl _ hr, hf | .div hl _ hr, hf =>
    .binary rfl (factor_good hl hf.part) (term_good hr hf.part)

theorem factor_good {n ts} : Factor n ts → Fine fine ts → GoodExpr fine n
  | .primary h, hf => primary_good h hf
  | .call hv _ hvs, hf => by
    have hcallee := factor_good hv hf.part
    have hargs := items_good hvs hf.part
    exact ⟨good_of rfl rfl hcallee.2 rfl rfl (forall_mem_cons.mpr ⟨hcallee.1, hargs⟩), rfl⟩
  | .property hv _ hname, hf => by
    have hobject := factor_good hv hf.part
    have hnames := fineNames_cons (hf.name (by simp) hname) fineNames_nil
    exact ⟨good_of rfl rfl hobject.2 hnames rfl (List.forall_mem_singleton.mpr hobject.1), rfl⟩

theorem primary_good {n ts} : Primary n ts → Fine fine ts → GoodExpr fine n
  | .ident ht, hf => literal_good (by simp [Parse.literal?, ht]) hf
  | .string ht hs, hf => literal_good (by simp [Parse.literal?, ht, hs]) hf
  | .int ht hn, hf => literal_good (by simp [Parse.literal?, ht, hn]) hf
  | .decimal ht hx, hf => literal_good (by simp [Parse.literal?, ht, hx]) hf
  | .parens _ h _, hf => expr_good h hf.part

end

end Grammar

namespace Parse

/-- All nodes of a program are as they are derived, if the identifiers and literals of its tokens are fine. -/
theorem source_good (h : Fine fine (Token.tokenize src)) (e : source src = .ok ns) :
    ∀ n ∈ ns, Grammar.Good fine n := by
  obtain ⟨gs, hscript⟩ := exists_script (wholeList_of_source e)
  clear e
  generalize Token.tokenize src = ts at h hscript
  induction hscript with
  | nil => exact forall_mem_nil _
  | item hv _ _ ih =>
    exact forall_mem_cons.mpr ⟨Grammar.item_good hv.plain h.part,
      ih h.part⟩

/-- In a program that was parsed only identifiers are assigned to, nothing is missing, all operators
    are those of the language, and all names and literals are fine if those of the tokens are. -/
theorem source_parsed (h : Fine fine (Token.tokenize src)) (e : source src = .ok ns) :
    Node.everyNode (Node.isParsed fine) ns = true := by
  have hgood : Node.everyNode (Node.isDerived fine) ns = true := Node.everyNode_iff.mpr (source_good h e)
  refine Node.everyNode_mono (fun n hn => ?_) hgood
  simp only [Node.isDerived, Bool.and_eq_true] at hn
  exact hn.1.1

end Parse

end Scriptlet

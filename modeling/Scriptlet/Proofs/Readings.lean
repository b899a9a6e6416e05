/-
  Scriptlet.Proofs.Readings — the parser reads exactly what is derived with a look at the next token.

  (1) What is read with every budget that is large enough (`Finally`) can be put together call by call, without
      counting budgets, and taken apart again (`Made`, `Listed`, `IsLevel`).
  (2) A derivation is read as its node, whatever follows where it stops (`item_read`).
  (3) What is read has a derivation, which stops at what is left (`Parse.reader`). So the programs are the scripts that
      are derived (`wholeList_iff`).
-/

import Scriptlet.Proofs.Cursor

namespace Scriptlet

open List (cons_append mem_cons append_assoc singleton_append nil_append not_mem_nil)

namespace Lookahead

open Grammar (Commas)
open Parse

/-! ## (1) Budgets -/

variable {n : Nat} {ts : List Token} {gs : List Separator}

section

variable {α β : Type}

/-- This is read with every budget that is large enough. -/
def Finally (x : Nat → Reading α) (y : Reading α) : Prop := ∃ N, ∀ n, N ≤ n → x n = y

/-- One more call in depth. -/
theorem finally_succ {x : Nat → Reading α} {y : Reading α} (N : Nat) (h : ∀ n, N ≤ n → x (n + 1) = y) : Finally x y := by
  refine ⟨N + 1, fun n hn => ?_⟩
  obtain ⟨m, rfl⟩ : ∃ m, n = m + 1 := ⟨n - 1, by omega⟩
  exact h m (by omega)

theorem Finally.and {x : Nat → Reading α} {z : Nat → Reading β} {y : Reading α} {w : Reading β} (h : Finally x y)
    (h' : Finally z w) : ∃ N, ∀ n, N ≤ n → x n = y ∧ z n = w := by
  obtain ⟨N, hN⟩ := h
  obtain ⟨M, hM⟩ := h'
  exact ⟨max N M, fun n hn => ⟨hN n (by omega), hM n (by omega)⟩⟩

theorem Finally.unique {x : Nat → Reading α} {y z : Reading α} (hy : Finally x y) (hz : Finally x z) : y = z := by
  obtain ⟨N, hN⟩ := hy.and hz
  rw [← (hN N (Nat.le_refl N)).1, (hN N (Nat.le_refl N)).2]

/-- What is read with some budget is read with every larger one. -/
theorem finally_of_ok {x : Nat → Reading α} (hx : Steadily x) {a : α} (h : x n = .ok a) : Finally x (.ok a) := by
  refine ⟨n, fun m hm => ?_⟩
  rcases hx hm with e | ⟨rest, e⟩
  · exact e.symm.trans h
  · rw [h] at e
    cases e

/-- What is read with a budget that is not used up is what is read finally. -/
theorem Finally.eq {x : Nat → Reading α} {y : Reading α} (h : Finally x y) (hx : Steadily x)
    (hn : ∀ f, x n = .error f → f.fault ≠ .tooDeep) : x n = y := by
  obtain ⟨N, hN⟩ := h
  rcases hx (Nat.le_max_left n N) with e | ⟨rest, e⟩
  · rw [e, hN _ (Nat.le_max_right n N)]
  · exact absurd rfl (hn _ e)

variable {part : Nat → Reading (α × List Token)} {f : α → β} {whole whole' : Nat → Reading (β × List Token)}

theorem bind_ok {x : Reading α} {k : α → Reading β} {b : β} (h : x >>= k = .ok b) : ∃ a, x = .ok a ∧ k a = .ok b := by
  cases x with
  | error f => cases h
  | ok a => exact ⟨a, rfl, h⟩

structure Made (part : Nat → Reading (α × List Token)) (f : α → β) (whole : Nat → Reading (β × List Token)) : Prop where
  read {a : α} {r : List Token} : Finally part (.ok (a, r)) → Finally whole (.ok (f a, r))
  back {n : Nat} {p : β × List Token} : whole n = .ok p → ∃ m q, part m = .ok q ∧ p.1 = f q.1

/-- The whole takes one more call in depth than the part. -/
theorem made_of_bind (hzero : ∀ p, whole 0 ≠ .ok p)
    (hsucc : ∀ n, whole (n + 1) = part n >>= fun q => .ok (f q.1, q.2)) : Made part f whole := by
  constructor
  · rintro a r ⟨N, hN⟩
    refine finally_succ N fun n hn => ?_
    rw [hsucc, hN n hn]
    rfl
  · intro n p h
    cases n with
    | zero => exact absurd h (hzero p)
    | succ n =>
      rw [hsucc] at h
      obtain ⟨q, hq, hp⟩ := bind_ok h
      cases hp
      exact ⟨n, q, hq, rfl⟩

theorem Made.succ (h : Made part f whole) (hzero : ∀ p, whole' 0 ≠ .ok p) (hsucc : ∀ n, whole' (n + 1) = whole n) :
    Made part f whole' := by
  constructor
  · intro a r ha
    obtain ⟨N, hN⟩ := h.read ha
    exact finally_succ N fun n hn => (hsucc n).trans (hN n hn)
  · intro n p hp
    cases n with
    | zero => exact absurd hp (hzero p)
    | succ n => exact h.back ((hsucc n).symm.trans hp)

structure Listed (rest : Nat → List Token → Reading (β × List Token)) (f : Node → β → β) (ts : List Token)
    (whole : Nat → Reading (β × List Token)) : Prop where
  read {v : Node} {w : β} {us r : List Token} : Finally (fun n => item n ts) (.ok (v, us)) →
    Finally (fun n => rest n us) (.ok (w, r)) → Finally whole (.ok (f v w, r))
  back {n : Nat} {q : β × List Token} : whole n = .ok q →
    ∃ m p q', item m ts = .ok p ∧ rest m p.2 = .ok q' ∧ q.1 = f p.1 q'.1

theorem listed_of_bind {rest : Nat → List Token → Reading (β × List Token)} {f : Node → β → β}
    (hzero : ∀ p, whole 0 ≠ .ok p)
    (hsucc : ∀ n, whole (n + 1) = item n ts >>= fun p => rest n p.2 >>= fun q => .ok (f p.1 q.1, q.2)) :
    Listed rest f ts whole := by
  constructor
  · intro v w us r hv hw
    obtain ⟨N, hN⟩ := hv.and hw
    refine finally_succ N fun n hn => ?_
    rw [hsucc, (hN n hn).1]
    exact congrArg (· >>= fun q => .ok (f v q.1, q.2)) (hN n hn).2
  · intro n q h
    cases n with
    | zero => exact absurd h (hzero q)
    | succ n =>
      rw [hsucc] at h
      obtain ⟨p, hp, h⟩ := bind_ok h
      obtain ⟨q', hq', h⟩ := bind_ok h
      cases h
      exact ⟨n, p, q', hp, hq', rfl⟩

end

/-! ## (2) Reading derivations -/

section

variable {us r cs : List Token} {v : Node}

variable {t arrow sign brace name : Token} {ps : List Text} {op : Operator} {fs : List (Text × Text)}

theorem skipCommas_comma (ht : t.kind = .comma) (ts : List Token) : skipCommas (t :: ts) = skipCommas ts := by
  simp [skipCommas, ht]

theorem skipCommas_other (ht : t.kind ≠ .comma) (ts : List Token) : skipCommas (t :: ts) = t :: ts := by
  simp [skipCommas, ht]

theorem skipCommas_commas (hcs : Commas cs) (ts : List Token) : skipCommas (cs ++ ts) = skipCommas ts := by
  induction cs with
  | nil => rfl
  | cons c cs ih =>
    rw [cons_append, skipCommas_comma (hcs c List.mem_cons_self)]
    exact ih fun c hc => hcs c (List.mem_cons_of_mem _ hc)

theorem skipCommas_of_ne (h : kindAt ts ≠ .comma) : skipCommas ts = ts := by
  cases ts with
  | nil => rfl
  | cons t ts => exact skipCommas_other h ts

theorem expect_kind {k : Kind} (h : t.kind = k) (r : List Token) : expect k (t :: r) = .ok (t, r) :=
  if_pos h

theorem params_commas (hcs : Commas cs) (ts : List Token) : params (cs ++ ts) = params ts := by
  induction cs with
  | nil => rfl
  | cons c cs ih =>
    rw [cons_append, params, hcs c List.mem_cons_self]
    exact ih fun c hc => hcs c (List.mem_cons_of_mem _ hc)

theorem fieldDecls_commas (hcs : Commas cs) (ts : List Token) : fieldDecls (cs ++ ts) = fieldDecls ts := by
  induction cs with
  | nil => rfl
  | cons c cs ih =>
    rw [cons_append]
    conv => lhs; unfold fieldDecls
    rw [hcs c List.mem_cons_self]
    exact ih fun c hc => hcs c (List.mem_cons_of_mem _ hc)

theorem params_read (h : Params ps ts gs) (r : List Token) : params (ts ++ r) = .ok (ps, r) := by
  induction h with
  | close hcs hc =>
    rw [append_assoc, params_commas hcs, singleton_append, params, hc]
  | param hcs hp _ ih =>
    rw [append_assoc, params_commas hcs, append_assoc, singleton_append, params, hp]
    simp only [expect_kind hp, ih, bind, Except.bind]

theorem fieldDecls_read (h : FieldDecls fs ts gs) (r : List Token) : fieldDecls (ts ++ r) = .ok (fs, r) := by
  induction h with
  | close hcs hc =>
    rw [append_assoc, fieldDecls_commas hcs, singleton_append]
    unfold fieldDecls
    rw [hc]
  | field hcs hn hc ht _ ih =>
    rw [append_assoc, fieldDecls_commas hcs, append_assoc]
    simp only [cons_append, nil_append]
    unfold fieldDecls
    rw [hn]
    simp only [expect_kind hn, expect_kind hc, expect_kind ht, ih, bind, Except.bind]

theorem head_read (h : Head ps ts gs) (ha : arrow.kind = .arrow) (r : List Token) :
    functionHead (ts ++ arrow :: r) = .ok (ps, r) := by
  cases h with
  | name ht =>
    simp only [singleton_append, functionHead, ht, if_true, expect_kind ha, bind, Except.bind]
  | list ht hps =>
    have hne : ¬ Kind.lparen = .ident := by decide
    simp only [cons_append, nil_append, functionHead, ht, if_false, hne, expect_kind ht, expect_kind ha,
      params_read hps, bind, Except.bind]

/-- An item that starts with parameters and an arrow is a function. -/
theorem item_eq_function (h : Head ps ts gs) (ha : arrow.kind = .arrow) (r : List Token)
    (n : Nat) : item (n + 1) (ts ++ arrow :: r) = function n (ts ++ arrow :: r) := by
  cases h with
  | name ht =>
    unfold item
    simp only [singleton_append, ht, ha]
  | @list t us _ _ ht hps =>
    have hbehind := (params_fit hps).shut.behindClosing ht (arrow :: r)
    simp only [cons_append, nil_append] at hbehind ⊢
    unfold item
    simp only [ht, hbehind, kindAt, ha, if_true]

theorem structDef_read (hname : name.kind = .ident)
    (hbrace : brace.kind = .lbrace) (hfs : FieldDecls fs ts gs) (r : List Token) :
    structDef (name :: brace :: (ts ++ r)) = .ok (.structDef name.lexeme fs, r) := by
  simp only [structDef, expect_kind hname, expect_kind hbrace, fieldDecls_read hfs, bind, Except.bind]

theorem not_comma_of_start (h : kindAt ts ∈ itemStarts) : kindAt ts ≠ .comma := by
  intro e
  rw [e] at h
  exact absurd h (by decide)

theorem not_closing_of_start {close : Kind} (hclose : Closing close) (h : kindAt ts ∈ itemStarts) : kindAt ts ≠ close := by
  intro e
  rw [e] at h
  simp only [Closing, mem_cons, not_mem_nil, or_false] at hclose
  rcases hclose with rfl | rfl | rfl <;> exact absurd h (by decide)

theorem goesOn_append {e : Finish} (h : e.goesOn (kindAt us) = false) (hus : us ≠ []) (r : List Token) :
    e.goesOn (kindAt (us ++ r)) = false := by
  rw [kindAt_append hus]
  exact h

theorem close_stops {c : Token} (hc : c.kind = .rparen) (r : List Token) : kindAt (c :: r) ∉ exprMore := by
  rw [kindAt, hc]
  decide

theorem suffixes_read (hr : kindAt r ∉ factorMore) (v : Node) : Finally (fun n => suffixes n v r) (.ok (v, r)) := by
  simp only [factorMore, mem_cons, not_mem_nil, or_false, not_or] at hr
  refine finally_succ 0 fun n _ => ?_
  unfold suffixes
  split
  · exact absurd ‹_› hr.1
  · exact absurd ‹_› hr.2
  · rfl

theorem skip_element (hcs : Commas cs) (h : kindAt ts ∈ itemStarts) (hne : ts ≠ []) (us : List Token) :
    skipCommas (cs ++ (ts ++ us)) = ts ++ us := by
  rw [skipCommas_commas hcs]
  apply skipCommas_of_ne
  rw [kindAt_append hne]
  exact not_comma_of_start h

theorem skip_close {c : Token} (hcs : Commas cs) (hc : c.kind ≠ .comma) (r : List Token) :
    skipCommas (cs ++ [c] ++ r) = c :: r := by
  rw [append_assoc, skipCommas_commas hcs]
  exact skipCommas_other hc r

structure IsLevel (ops : List Operator) (more : List Kind) (operand whole : Nat → List Token → Reading (Node × List Token)) :
    Prop where
  zero : ∀ ts, whole 0 ts = fail .tooDeep ts
  succ : ∀ n ts, whole (n + 1) ts = operand n ts >>= level ops (whole n)
  apart : ∀ op ∈ ops, op.kind ∉ more
  distinct : ∀ op ∈ ops, ∀ op' ∈ ops, op.kind = op'.kind → op = op'

theorem isLevel_expr : IsLevel [.add, .sub] termMore term expr :=
  ⟨fun _ => rfl, expr_level, by decide, by decide⟩

theorem isLevel_term : IsLevel [.mul, .div] factorMore factor term :=
  ⟨fun _ => rfl, term_level, by decide, by decide⟩

namespace IsLevel

variable {ops : List Operator} {more : List Kind} {operand whole : Nat → List Token → Reading (Node × List Token)}
  {l : Node} {right : List Token → Reading (Node × List Token)}

theorem alone (hr : kindAt r ∉ more ++ ops.map Operator.kind) : level ops right (v, r) = .ok (v, r) := by
  have hnone : ops.find? (fun op => kindAt r = op.kind) = none := by
    simp only [List.find?_eq_none, decide_eq_true_eq]
    exact fun op hop e => hr (List.mem_append_right _ (List.mem_map.mpr ⟨op, hop, e.symm⟩))
  rw [level, hnone]

variable (L : IsLevel ops more operand whole)

include L

theorem read_alone (h : Finally (operand · ts) (.ok (v, r))) (hr : kindAt r ∉ more ++ ops.map Operator.kind) :
    Finally (whole · ts) (.ok (v, r)) := by
  obtain ⟨N, hN⟩ := h
  refine finally_succ N fun n hn => ?_
  rw [L.succ, show operand n ts = _ from hN n hn]
  exact alone hr

variable (hop : op ∈ ops) (hsign : sign.kind = op.kind)

include hop hsign

theorem stops (us : List Token) : kindAt (sign :: us) ∉ more := by
  rw [kindAt, hsign]
  exact L.apart op hop

theorem behind_sign : level ops right (l, sign :: us) = right us >>= fun p => .ok (.binary op l p.1, p.2) := by
  have hkind : kindAt (sign :: us) = op.kind := hsign
  cases hfind : ops.find? fun op => kindAt (sign :: us) = op.kind with
  | none => exact absurd (decide_eq_true hkind) (List.find?_eq_none.mp hfind op hop)
  | some op' =>
    have hkind' : kindAt (sign :: us) = op'.kind := by simpa using List.find?_some hfind
    obtain rfl := L.distinct op hop op' (List.mem_of_find?_eq_some hfind) (hkind.symm.trans hkind')
    rw [level, hfind]
    rfl

theorem read_sign (hl : ∀ r, kindAt r ∉ more → Finally (fun n => operand n (ts ++ r)) (.ok (l, r)))
    (hv : Finally (whole · us) (.ok (v, r))) : Finally (whole · (ts ++ sign :: us)) (.ok (.binary op l v, r)) := by
  obtain ⟨N, hN⟩ := (hl _ (L.stops hop hsign us)).and hv
  refine finally_succ N fun n hn => ?_
  rw [L.succ, (hN n hn).1]
  refine (L.behind_sign hop hsign).trans ?_
  rw [show whole n us = _ from (hN n hn).2]
  rfl

end IsLevel

theorem item_zero (p : Node × List Token) : item 0 ts ≠ .ok p := by
  intro h
  cases h

theorem function_zero (p : Node × List Token) : function 0 ts ≠ .ok p := by
  intro h
  cases h

theorem items_listed {close : Kind} (hcs : Commas cs) (hclose : Closing close) (hstart : kindAt ts ∈ itemStarts) :
    Listed (fun n => items n close) List.cons ts fun n => items n close (cs ++ ts) := by
  refine listed_of_bind (fun _ h => by cases h) fun n => ?_
  rw [items, skipCommas_commas hcs, skipCommas_of_ne (not_comma_of_start hstart)]
  cases ts with
  | nil => exact absurd hstart (by decide)
  | cons t ts =>
    have ht : ¬ t.kind = close := not_closing_of_start hclose hstart
    simp only [ht, if_false]

theorem fields_listed {colon : Token} (hcs : Commas cs) (hn : name.kind = .ident) (hc : colon.kind = .colon)
    (ts : List Token) :
    Listed fields (fun v fs => (name.lexeme, v) :: fs) ts fun n => fields n (cs ++ name :: colon :: ts) := by
  refine listed_of_bind (fun _ h => by cases h) fun n => ?_
  have hcomma : name.kind ≠ .comma := by simp [hn]
  have hclose : ¬ Kind.ident = .rbrace := by decide
  rw [fields, skipCommas_commas hcs, skipCommas_other hcomma]
  simp only [hn, hclose, if_false, expect_kind hn, expect_kind hc, bind, Except.bind]

theorem block_listed (hstart : kindAt ts ∈ itemStarts) : Listed block List.cons ts fun n => block n ts := by
  refine listed_of_bind (fun _ h => by cases h) fun n => ?_
  have hclose : ¬ kindAt ts = .rbrace := not_closing_of_start (by decide) hstart
  rw [block]
  simp only [hclose, if_false]

theorem made_assign {eq : Token} (hname : name.kind = .ident) (heq : eq.kind = .assign) (ts : List Token) :
    Made (fun n => item n ts) (.assign (.ident name.lexeme)) fun n => item n (name :: eq :: ts) := by
  refine made_of_bind item_zero fun n => ?_
  simp only [item, hname, heq]

theorem made_construct (hname : name.kind = .ident) (hbrace : brace.kind = .lbrace) (ts : List Token) :
    Made (fun n => fields n ts) (.construct name.lexeme) fun n => item n (name :: brace :: ts) := by
  refine made_of_bind item_zero fun n => ?_
  simp only [item, hname, hbrace]

theorem made_array {bracket : Token} (hbracket : bracket.kind = .lbracket) (ts : List Token) :
    Made (fun n => items n .rbracket ts) .array fun n => item n (bracket :: ts) := by
  refine made_of_bind item_zero fun n => ?_
  simp only [item, hbracket]

theorem made_return (ht : t.kind = .return) (hts : endsItem ts = false) :
    Made (fun n => item n ts) (fun v => .ret (some v)) fun n => item n (t :: ts) := by
  refine made_of_bind item_zero fun n => ?_
  simp only [item, ht, hts, Bool.false_eq_true, if_false]

section

variable {hs : List Token} (hhead : Head ps hs gs) (harrow : arrow.kind = .arrow)

include hhead harrow

theorem made_block (hbrace : brace.kind = .lbrace) (ts : List Token) :
    Made (fun n => block n ts) (.function ps) fun n => item n (hs ++ arrow :: brace :: ts) := by
  refine Made.succ (made_of_bind function_zero fun n => ?_) item_zero (item_eq_function hhead harrow _)
  rw [function, head_read hhead harrow]
  simp only [bind, Except.bind, hbrace, if_true]

/-- A function with one item. -/
theorem made_function (hstart : kindAt ts ∈ itemStarts) :
    Made (fun n => item n ts) (fun v => .function ps [v]) fun n => item n (hs ++ arrow :: ts) := by
  refine Made.succ (made_of_bind function_zero fun n => ?_) item_zero (item_eq_function hhead harrow _)
  rw [function, head_read hhead harrow]
  cases ts with
  | nil => exact absurd hstart (by decide)
  | cons t ts =>
    have ht : ¬ t.kind = .lbrace := by
      intro e
      rw [kindAt, e] at hstart
      exact absurd hstart (by decide)
    simp only [bind, Except.bind, ht, if_false]

end

theorem suffixes_call {paren : Token} (hparen : paren.kind = .lparen) (v : Node) (ts : List Token) (n : Nat) :
    suffixes (n + 1) v (paren :: ts) = items n .rparen ts >>= fun q => suffixes n (.call v q.1) q.2 := by
  conv => lhs; unfold suffixes
  simp only [kindAt, hparen, List.drop_succ_cons, List.drop_zero]

theorem suffixes_property {dot : Token} (hdot : dot.kind = .dot) (hname : name.kind = .ident) (v : Node)
    (ts : List Token) (n : Nat) : suffixes (n + 1) v (dot :: name :: ts) = suffixes n (.property v name.lexeme) ts := by
  conv => lhs; unfold suffixes
  simp only [kindAt, hdot, List.drop_succ_cons, List.drop_zero, expect_kind hname, bind, Except.bind]

theorem endsItem_of_bare (h : Finish.bare.goesOn (kindAt r) = false) : endsItem r = true := by
  simp only [Finish.goesOn, mem_cons, not_mem_nil, or_false, not_not, decide_eq_false_iff_not] at h
  unfold endsItem
  rcases h with h | h | h | h | h <;> simp only [h]

theorem not_endsItem_of_start (h : kindAt ts ∈ itemStarts) : endsItem ts = false := by
  simp only [itemStarts, mem_cons, not_mem_nil, or_false] at h
  unfold endsItem
  rcases h with h | h | h | h | h | h | h | h | h <;> simp only [h]

theorem start_append (h : kindAt ts ∈ itemStarts) (us : List Token) : kindAt (ts ++ us) ∈ itemStarts := by
  cases ts with
  | nil => exact absurd h (by decide)
  | cons t ts => exact h

mutual

theorem item_read {v ts e gs} : Item v ts e gs → ∀ r,
    e.goesOn (kindAt r) = false → Finally (fun n => item n (ts ++ r)) (.ok (v, r))
  | .assign hname heq hv, r, hr => (made_assign hname heq _).read (item_read hv r hr)
  | .variable htype hname, r, _ => by
    refine finally_succ 0 fun n _ => ?_
    simp only [cons_append, nil_append, item, htype, hname]
  | .construct hname hbrace hfs, r, _ => (made_construct hname hbrace _).read (fields_read hfs r)
  | .block hhead harrow hbrace hvs, r, _ => by
    simp only [append_assoc, cons_append, nil_append]
    exact (made_block hhead harrow hbrace _).read (block_read hvs r)
  | .function hhead harrow hv, r, hr => by
    simp only [append_assoc, cons_append, nil_append]
    exact (made_function hhead harrow (start_append (item_start hv) r)).read (item_read hv r hr)
  | .array hbracket hvs, r, _ => (made_array hbracket _).read (items_read hvs (by decide) r)
  | .ret ht, r, hr => by
    refine finally_succ 0 fun n _ => ?_
    simp only [cons_append, nil_append, item, ht, endsItem_of_bare hr, if_true]
  | .retItem ht hv, r, hr =>
    (made_return ht (not_endsItem_of_start (start_append (item_start hv) r))).read (item_read hv r hr)
  | .structDef hword hname hbrace hfs, r, _ => by
    refine finally_succ 0 fun n _ => ?_
    have hdef := structDef_read hname hbrace hfs r
    rcases hword with hword | hword <;> simp only [cons_append, nil_append, item, hword, hdef]
  | .expr h, r, hr => by
    rw [goesOn_ofExpr, decide_eq_false_iff_not, List.mem_append, not_or] at hr
    obtain ⟨N, hN⟩ := expr_read h r hr.1
    exact finally_succ N fun n hn => (item_eq_expr (expr_fronted h) hr.2 n).trans (hN n hn)

theorem block_read {vs ts gs} : Block vs ts gs → ∀ r, Finally (fun n => block n (ts ++ r)) (.ok (vs, r))
  | .close hc, r => by
    refine finally_succ 0 fun n _ => ?_
    simp only [singleton_append, block, kindAt, hc, if_true, List.drop_succ_cons, List.drop_zero]
  | .item hv hgo hvs, r => by
    rw [append_assoc]
    exact (block_listed (start_append (item_start hv) _)).read
      (item_read hv _ (goesOn_append hgo (block_fits hvs).shut.ne_nil r)) (block_read hvs r)

theorem fields_read {fs ts gs} : Fields fs ts gs → ∀ r, Finally (fun n => fields n (ts ++ r)) (.ok (fs, r))
  | .close hcs hc, r => by
    refine finally_succ 0 fun n _ => ?_
    rw [fields, skip_close hcs (by simp [hc])]
    simp only [hc, if_true]
  | .field hcs hname hcolon hv hgo hfs, r => by
    simp only [append_assoc, cons_append, nil_append]
    exact (fields_listed hcs hname hcolon _).read (item_read hv _ (goesOn_append hgo (fields_fit hfs).shut.ne_nil r))
      (fields_read hfs r)

theorem items_read {close vs ts gs} : Items close vs ts gs →
    Closing close → ∀ r, Finally (fun n => items n close (ts ++ r)) (.ok (vs, r))
  | .close hcs hc, hclose, r => by
    refine finally_succ 0 fun n _ => ?_
    rw [items, skip_close hcs (by rw [hc]; exact Closing.ne_comma hclose)]
    simp only [hc, if_true]
  | .item hcs hv hgo hvs, hclose, r => by
    rw [append_assoc, append_assoc]
    exact (items_listed hcs hclose (start_append (item_start hv) _)).read
      (item_read hv _ (goesOn_append hgo (items_fit hvs hclose).shut.ne_nil r)) (items_read hvs hclose r)

theorem expr_read {v ts gs} : Expr v ts gs → ∀ r, kindAt r ∉ exprMore →
    Finally (fun n => expr n (ts ++ r)) (.ok (v, r))
  | .term h, r, hr => isLevel_expr.read_alone (term_read h r fun hk => hr (List.mem_append_left _ hk)) hr
  | .sum hl hop hsign h, r, hr => by
    simp only [append_assoc, cons_append, nil_append]
    exact isLevel_expr.read_sign (by simpa using hop) hsign (term_read hl) (expr_read h r hr)

theorem term_read {v ts gs} : Term v ts gs → ∀ r,
    kindAt r ∉ termMore → Finally (fun n => term n (ts ++ r)) (.ok (v, r))
  | .factor h, r, hr =>
    isLevel_term.read_alone (factor_read h r _ (suffixes_read (fun hk => hr (List.mem_append_left _ hk)) _)) hr
  | .product hl hop hsign h, r, hr => by
    simp only [append_assoc, cons_append, nil_append]
    exact isLevel_term.read_sign (by simpa using hop) hsign (fun _ hr => factor_read hl _ _ (suffixes_read hr _))
      (term_read h r hr)

/-- A factor is read up to its suffixes. -/
theorem factor_read {v ts gs} : Factor v ts gs → ∀ r y,
    Finally (fun n => suffixes n v r) y → Finally (fun n => factor n (ts ++ r)) y
  | .primary h, r, y, hy => by
    obtain ⟨N, hN⟩ := (primary_read h r).and hy
    refine finally_succ N fun n hn => ?_
    rw [factor, (hN n hn).1]
    exact (hN n hn).2
  | .call hv hparen hvs, r, y, hy => by
    obtain ⟨N, hN⟩ := (items_read hvs (by decide) r).and hy
    rw [append_assoc, append_assoc]
    refine factor_read hv _ y (finally_succ N fun n hn => ?_)
    rw [singleton_append, suffixes_call hparen, (hN n hn).1]
    exact (hN n hn).2
  | .property hv hdot hname, r, y, hy => by
    obtain ⟨N, hN⟩ := hy
    rw [append_assoc]
    exact factor_read hv _ y (finally_succ N fun n hn => (suffixes_property hdot hname _ _ n).trans (hN n hn))

theorem primary_read {v ts gs} : Primary v ts gs → ∀ r, Finally (fun n => primary n (ts ++ r)) (.ok (v, r))
  | .literal ht hv, r => by
    refine finally_succ 0 fun n _ => ?_
    simp only [singleton_append, primary, ht, if_false, hv]
  | .parens hopen hv hclose, r => by
    obtain ⟨N, hN⟩ := expr_read hv _ (close_stops hclose r)
    refine finally_succ N fun n hn => ?_
    simp only [append_assoc, cons_append, nil_append, primary, hopen, if_true, hN n hn, bind,
      Except.bind, expect_kind hclose]

end

end

/-! ## (3) Programs -/

section

variable {ns : List Node}

/-- With ten calls in depth for each token, and a few more, an item is what is read finally. -/
theorem Finally.item {y : Reading (Node × List Token)} (h : Finally (fun n => item n ts) y)
    (hn : depthBudget ts ≤ n) : item n ts = y := by
  refine h.eq (fun hle => ((steady hle).item (List.forall₂_refl ts)).settles) fun f hf => ?_
  have hends := (reader n).item ts
  rw [hf] at hends
  exact hends.deep (by unfold depthBudget at hn; omega)

theorem Script.program (h : Script ns ts gs) (hn : ts.length ≤ n) : program n ts = .ok ns := by
  induction h generalizing n with
  | nil => simp only [program]
  | @item ts us v vs e gs gs' hv hstop _ ih =>
    have hpos := List.length_pos_iff.mpr (item_fits hv).ne_nil
    rw [List.length_append] at hn
    obtain ⟨m, rfl⟩ : ∃ m, n = m + 1 := ⟨n - 1, by omega⟩
    have hitem := (item_read hv us hstop).item (Nat.le_refl _)
    obtain ⟨t, ts, rfl⟩ := List.exists_cons_of_ne_nil (item_fits hv).ne_nil
    rw [cons_append] at hitem ⊢
    unfold program
    simp only [hitem, ih (show us.length ≤ m by omega), bind, Except.bind]

/-- The programs are the scripts that are derived, without error tokens. -/
theorem wholeList_iff : wholeList ts = .ok ns ↔ (∀ t ∈ ts, t.kind ≠ .error) ∧ ∃ gs, Script ns ts gs := by
  have hclean : ts.dropWhile (·.kind ≠ .error) = [] ↔ ∀ t ∈ ts, t.kind ≠ .error := by
    simp [List.dropWhile_eq_nil_iff]
  constructor
  · intro h
    refine ⟨?_, exists_script h⟩
    unfold wholeList at h
    split at h
    · exact hclean.mp ‹_›
    · cases h
  · rintro ⟨herror, gs, h⟩
    rw [wholeList, hclean.mpr herror]
    exact h.program (Nat.le_refl _)

end

end Lookahead

end Scriptlet

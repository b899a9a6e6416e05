/-
  Scriptlet.Proofs.Merging — commas that cannot be left out.

  Without a separator that is needed, the element before it goes on into the next one. What is read then, if
  anything is, is another program.

  (1) Where an item stops, nothing else is read (`item_only`).
  (2) An item in front of tokens at which it goes on is read as another one (`item_goes_on`): a return returns
      something, two names declare a variable, and an expression becomes the callee of a call, so it grows.
  (3) So is everything around it (`item_altered`). For an expression, the same tokens are left over, since the
      separator is in parentheses.
  (4) In a text, a blank in the place of a separator leaves the same program just when it was not needed
      (`separator_needed_iff`).
-/

import Scriptlet.Proofs.Layout
import Scriptlet.Proofs.Separators

namespace Scriptlet

open List (forall₂_refl append_assoc cons_append cons nil_append)

namespace Lookahead

open Grammar (Commas)
open Parse

/-! ## (1) Readings of parts -/

variable {n : Nat} {gs : List Separator} {v : Node} {p : Node × List Token} {e : Finish}

section

variable {α β : Type} {part : Nat → Reading (α × List Token)} {f : α → β} {whole : Nat → Reading (β × List Token)}

def Misses (x : Nat → Reading (α × List Token)) (a : α) : Prop := ∀ n p, x n = .ok p → p.1 ≠ a

theorem Misses.made {a : α} (h : Misses part a) (hmade : Made part f whole)
    (hf : ∀ w, f w = f a → w = a := by rintro w ⟨⟩; rfl) : Misses whole (f a) := by
  intro n p hp e
  obtain ⟨m, q, hq, hpq⟩ := hmade.back hp
  exact h m q hq (hf _ (hpq.symm.trans e))

/-- What is read with some budget is what is read finally. -/
theorem Finally.read {x : Nat → Reading α} {a b : α} (h : Finally x (.ok b)) (hx : Steadily x) (hn : x n = .ok a) :
    a = b := by
  cases (finally_of_ok hx hn).unique h
  rfl

end

section

variable {ts us r : List Token} {name : Token}

/-- Where it stops, this is the only node that is read. -/
def Only (x : Nat → List Token → Reading (Node × List Token)) (more : List Kind) (v : Node) (ts : List Token) : Prop :=
  ∀ {r n p}, kindAt r ∉ more → x n (ts ++ r) = .ok p → p = (v, r)

/-- What is derived, where it stops, is the only thing that is read there. -/
theorem item_only (h : Item v ts e gs) (hr : e.goesOn (kindAt r) = false) (hp : item n (ts ++ r) = .ok p) :
    p = (v, r) :=
  (item_read h r hr).read (fun hle => ((steady hle).item (forall₂_refl _)).settles) hp

theorem term_only (h : Term v ts gs) : Only term termMore v ts := fun hr hp =>
  (term_read h _ hr).read (fun hle => ((steady hle).term (forall₂_refl _)).settles) hp

theorem expr_only (h : Expr v ts gs) : Only expr exprMore v ts := fun hr hp =>
  (expr_read h _ hr).read (fun hle => ((steady hle).expr (forall₂_refl _)).settles) hp

theorem suffixes_only (hr : kindAt r ∉ factorMore) (hp : suffixes n v r = .ok p) : p = (v, r) :=
  (suffixes_read hr v).read (fun hle => ((steady hle).suffixes _ (forall₂_refl _)).settles) hp

theorem factor_only (h : Factor v ts gs) : Only factor factorMore v ts := fun hr hp =>
  (factor_read h _ _ (suffixes_read hr v)).read (fun hle => ((steady hle).factor (forall₂_refl _)).settles) hp

theorem made_program {ms : List Node} (hts : ts ≠ []) (h : program n ts = .ok ms) :
    ∃ m k p ms', item m ts = .ok p ∧ program k p.2 = .ok ms' ∧ ms = p.1 :: ms' := by
  cases ts with
  | nil => exact absurd rfl hts
  | cons t ts =>
    cases n with
    | zero => cases h
    | succ n =>
      unfold program at h
      obtain ⟨p, hp, h⟩ := bind_ok h
      obtain ⟨ms', hms', h⟩ := bind_ok h
      cases h
      exact ⟨_, n, p, ms', hp, hms', rfl⟩

theorem made_call {paren : Token} (hparen : paren.kind = .lparen) (h : suffixes n v (paren :: ts) = .ok p) :
    ∃ m q, items m .rparen ts = .ok q ∧ suffixes m (.call v q.1) q.2 = .ok p := by
  cases n with
  | zero => cases h
  | succ n =>
    rw [suffixes_call hparen] at h
    exact ⟨n, bind_ok h⟩

theorem made_property {dot : Token} (hdot : dot.kind = .dot) (hname : name.kind = .ident)
    (h : suffixes n v (dot :: name :: ts) = .ok p) : ∃ m, suffixes m (.property v name.lexeme) ts = .ok p := by
  cases n with
  | zero => cases h
  | succ n => exact ⟨n, (suffixes_property hdot hname v ts n).symm.trans h⟩

/-- A factor is read up to its suffixes. -/
theorem made_factor : ∀ {v ts gs}, Factor v ts gs → ∀ {r : List Token} {n : Nat}
    {p : Node × List Token}, factor n (ts ++ r) = .ok p → ∃ m, suffixes m v r = .ok p
  | _, ts, _, .primary h, r, n, p, hp => by
    cases n with
    | zero => cases hp
    | succ n =>
      unfold factor at hp
      obtain ⟨q, hq, hp⟩ := bind_ok hp
      cases (primary_read h r).read (fun hle => ((steady hle).primary (forall₂_refl _)).settles) hq
      exact ⟨n, hp⟩
  | _, _, _, .call hv hparen hvs, r, n, p, hp => by
    rw [append_assoc, append_assoc] at hp
    obtain ⟨m, hm⟩ := made_factor hv hp
    obtain ⟨k, q, hq, hp⟩ := made_call hparen hm
    cases (items_read hvs (by decide) r).read (fun hle => ((steady hle).items _ (forall₂_refl _)).settles) hq
    exact ⟨k, hp⟩
  | _, _, _, .property hv hdot hname, r, n, p, hp => by
    rw [append_assoc] at hp
    obtain ⟨m, hm⟩ := made_factor hv hp
    exact made_property hdot hname hm

end

namespace IsLevel

variable {ts us : List Token} {op : Operator} {sign : Token} {l : Node} {ops : List Operator} {more more' : List Kind}
  {operand whole : Nat → List Token → Reading (Node × List Token)}

def Grows (x : Nat → List Token → Reading (Node × List Token)) (v : Node) (ts : List Token) : Prop :=
  ∀ {n p}, x n ts = .ok p → sizeOf v < sizeOf p.1

/-- Where the node stops, another one is read, of the same tokens. -/
def Alters (x : Nat → List Token → Reading (Node × List Token)) (more : List Kind) (v : Node) (ts : List Token) : Prop :=
  ∀ r, kindAt r ∉ more → ∀ {n p}, x n (ts ++ r) = .ok p → p.1 ≠ v ∧ p.2 = r

theorem level_size {right : List Token → Reading (Node × List Token)} {q : Node × List Token} (h : level ops right q = .ok p) :
    sizeOf q.1 ≤ sizeOf p.1 := by
  unfold level at h
  split at h
  · obtain ⟨q', -, h⟩ := bind_ok h
    cases h
    simp only [Node.binary.sizeOf_spec]
    omega
  · cases h
    exact Nat.le_refl _

variable (L : IsLevel ops more operand whole)

include L

theorem made (h : whole n ts = .ok p) : ∃ m q, operand m ts = .ok q ∧ level ops (whole m) q = .ok p := by
  cases n with
  | zero =>
    rw [L.zero] at h
    cases h
  | succ n =>
    rw [L.succ] at h
    exact ⟨n, bind_ok h⟩

theorem grow_alone (h : Grows operand v ts) : Grows whole v ts := by
  intro n p hp
  obtain ⟨m, q, hq, hlevel⟩ := L.made hp
  exact Nat.lt_of_lt_of_le (h hq) (level_size hlevel)

theorem alter_alone (h : Alters operand more v ts) : Alters whole (more ++ ops.map Operator.kind) v ts := by
  intro r hr n p hp
  obtain ⟨m, ⟨w, r'⟩, hq, hlevel⟩ := L.made hp
  obtain ⟨hv, hrest⟩ := h r (fun hk => hr (List.mem_append_left _ hk)) hq
  cases hrest
  rw [alone hr] at hlevel
  cases hlevel
  exact ⟨hv, rfl⟩

variable (hop : op ∈ ops) (hsign : sign.kind = op.kind)

include hop hsign

/-- If the operand on the left is read up to the operator, the operand on the right is read behind it. -/
theorem made_sign (hleft : ∀ {m q}, operand m (ts ++ sign :: us) = .ok q → q.2 = sign :: us)
    (h : whole n (ts ++ sign :: us) = .ok p) :
    ∃ m q q', operand m (ts ++ sign :: us) = .ok q ∧ whole m us = .ok q' ∧ p = (.binary op q.1 q'.1, q'.2) := by
  obtain ⟨m, ⟨l, r⟩, hq, h⟩ := L.made h
  obtain rfl : r = sign :: us := hleft hq
  rw [L.behind_sign hop hsign] at h
  obtain ⟨q', hq', h⟩ := bind_ok h
  cases h
  exact ⟨m, _, q', hq, hq', rfl⟩

theorem made_right (hl : Only operand more l ts) (h : whole n (ts ++ sign :: us) = .ok p) :
    ∃ m q, whole m us = .ok q ∧ p = (.binary op l q.1, q.2) := by
  have hstop := L.stops hop hsign us
  obtain ⟨m, q, q', hq, hq', rfl⟩ := L.made_sign hop hsign (fun hq => congrArg Prod.snd (hl hstop hq)) h
  cases hl hstop hq
  exact ⟨m, q', hq', rfl⟩

theorem grow_sign (hl : Only operand more l ts) (h : Grows whole v us) : Grows whole (.binary op l v) (ts ++ sign :: us) := by
  intro n p hp
  obtain ⟨m, q, hq, rfl⟩ := L.made_right hop hsign hl hp
  have hgrow := h hq
  simp only [Node.binary.sizeOf_spec]
  omega

theorem alter_left (h : Alters operand more l ts) (hv : Only whole more' v us) :
    Alters whole more' (.binary op l v) (ts ++ ([sign] ++ us)) := by
  intro r hr n p hp
  rw [append_assoc, append_assoc] at hp
  have hstop := L.stops hop hsign (us ++ r)
  obtain ⟨m, q, q', hq, hq', rfl⟩ := L.made_sign hop hsign (fun hq => (h _ hstop hq).2) hp
  cases hv hr hq'
  exact ⟨fun e => (h _ hstop hq).1 (Node.binary.inj e).2.1, rfl⟩

theorem alter_right (hl : Only operand more l ts) (h : Alters whole more' v us) :
    Alters whole more' (.binary op l v) (ts ++ [sign] ++ us) := by
  intro r hr n p hp
  rw [append_assoc, append_assoc] at hp
  obtain ⟨m, q, hq, rfl⟩ := L.made_right hop hsign hl hp
  obtain ⟨hv, hrest⟩ := h r hr hq
  exact ⟨fun e => hv (Node.binary.inj e).2.2, hrest⟩

end IsLevel

/-! ## (2) Items that go on -/

section

variable {ts us r : List Token}

theorem suffixes_grow (h : suffixes n v ts = .ok p) : sizeOf v ≤ sizeOf p.1 := by
  induction n generalizing v ts with
  | zero => cases h
  | succ n ih =>
    unfold suffixes at h
    split at h
    · obtain ⟨q, -, h⟩ := bind_ok h
      have hgrow := ih h
      simp only [Node.call.sizeOf_spec] at hgrow
      omega
    · obtain ⟨q, -, h⟩ := bind_ok h
      have hgrow := ih h
      simp only [Node.property.sizeOf_spec] at hgrow
      omega
    · cases h
      exact Nat.le_refl _

theorem callee_grows (hr : kindAt r = .lparen) (h : suffixes n v r = .ok p) : sizeOf v < sizeOf p.1 := by
  obtain ⟨paren, hparen, e⟩ := exists_cons_of_kindAt Kind.noConfusion hr
  rw [e] at h
  obtain ⟨m, q, -, h⟩ := made_call hparen h
  have hgrow := suffixes_grow h
  simp only [Node.call.sizeOf_spec] at hgrow
  omega

/-- A parenthesis behind a term makes a call of its last factor. -/
theorem term_grows (hr : kindAt r = .lparen) {v ts gs} (h : Term v ts gs) : IsLevel.Grows term v (ts ++ r) := by
  cases h with
  | factor h => exact isLevel_term.grow_alone fun hp => (made_factor h hp).elim fun _ => callee_grows hr
  | product hl hop hsign h =>
    rw [append_assoc, append_assoc]
    exact isLevel_term.grow_sign (by simpa using hop) hsign (factor_only hl) (term_grows hr h)

theorem expr_grows (hr : kindAt r = .lparen) {v ts gs} (h : Expr v ts gs) : IsLevel.Grows expr v (ts ++ r) := by
  cases h with
  | term h => exact isLevel_expr.grow_alone (term_grows hr h)
  | sum hl hop hsign h =>
    rw [append_assoc, append_assoc]
    exact isLevel_expr.grow_sign (by simpa using hop) hsign (term_only hl) (expr_grows hr h)

/-- How the item before an element can go on into it. -/
theorem goesOn_start {k : Kind} (h : e.goesOn k = true) (hk : k ∈ itemStarts) :
    e = .bare ∨ e ≠ .bare ∧ k = .lparen ∨ e = .name ∧ k = .ident := by
  simp only [itemStarts, List.mem_cons, List.not_mem_nil, or_false] at hk
  rcases hk with rfl | rfl | rfl | rfl | rfl | rfl | rfl | rfl | rfl <;> cases e <;> first | exact absurd h (by decide) | simp

theorem ofExpr_ne_bare (ts : List Token) : Finish.ofExpr ts ≠ .bare := by
  unfold Finish.ofExpr
  split
  · decide
  · split
    · decide
    · decide

theorem eq_ident {t : Token} (ht : t.kind = .ident) (h : Expr v [t] gs) : v = .ident t.lexeme := by
  have hname : Expr (.ident t.lexeme) [t] [] :=
    .term (.factor (.primary (.literal (by simp [ht]) (by simp [literal?, ht]))))
  cases (expr_read h [] (by decide)).unique (expr_read hname [] (by decide))
  rfl

theorem expr_goes_on (h : Expr v ts gs) (hgo : (Finish.ofExpr ts).goesOn (kindAt r) = true) (hr : kindAt r ∈ itemStarts) :
    Misses (fun n => item n (ts ++ r)) v := by
  intro n p hp
  cases n with
  | zero => cases hp
  | succ n =>
    rcases goesOn_start hgo hr with hbare | ⟨-, hparen⟩ | ⟨hname, hident⟩
    · exact absurd hbare (ofExpr_ne_bare ts)
    · have hothers : kindAt r ∉ (Finish.ofExpr ts).others := by
        rw [hparen]
        cases Finish.ofExpr ts <;> decide
      dsimp only at hp
      rw [item_eq_expr (expr_fronted h) hothers] at hp
      intro e
      have hgrow := expr_grows hparen h hp
      rw [e] at hgrow
      exact Nat.lt_irrefl _ hgrow
    · have hkinds : ts.map (·.kind) = [.ident] := by
        unfold Finish.ofExpr at hname
        split at hname
        · assumption
        · split at hname <;> cases hname
      obtain ⟨t, rfl, ht⟩ := List.map_eq_singleton_iff.mp hkinds
      obtain ⟨u, hu, e⟩ := exists_cons_of_kindAt Kind.noConfusion hident
      rw [e, List.singleton_append] at hp
      simp only [item, ht, hu] at hp
      cases hp
      rw [eq_ident ht h]
      exact Node.noConfusion

/-- An item that goes on is read as another one. -/
theorem item_goes_on {v ts e gs} : Item v ts e gs →
    ∀ {r}, e.goesOn (kindAt r) = true → kindAt r ∈ itemStarts → Misses (fun n => item n (ts ++ r)) v
  | .assign hname heq hv, r, hgo, hr =>
    (item_goes_on hv hgo hr).made (made_assign hname heq _)
  | .variable _ _, r, hgo, _ => absurd hgo Bool.false_ne_true
  | .construct _ _ _, r, hgo, _ => absurd hgo Bool.false_ne_true
  | .block _ _ _ _, r, hgo, _ => absurd hgo Bool.false_ne_true
  | .function hhead harrow hv, r, hgo, hr => by
    simp only [append_assoc, cons_append, nil_append]
    exact (item_goes_on hv hgo hr).made (made_function hhead harrow (start_append (item_start hv) r))
  | .array _ _, r, hgo, _ => absurd hgo Bool.false_ne_true
  | .ret ht, r, _, hr => by
    intro n p hp e
    obtain ⟨m, q, -, hpq⟩ := (made_return ht (not_endsItem_of_start hr)).back hp
    cases hpq.symm.trans e
  | .retItem ht hv, r, hgo, hr => by
    exact (item_goes_on hv hgo hr).made (made_return ht (not_endsItem_of_start (start_append (item_start hv) r)))
  | .structDef _ _ _ _, r, hgo, _ => absurd hgo Bool.false_ne_true
  | .expr h, r, hgo, hr => expr_goes_on h hgo hr

end

/-! ## (3) Needed separators -/

section

variable {ts us r : List Token} {s : Separator} {close : Kind} {last : Bool}

/-- Parameters and field declarations never go on. -/
theorem between_settled {P : List Token → Prop} : Each true P (between last false ts) := fun _ hs hneed =>
  Bool.noConfusion ((mem_between hs).2.2.2.symm.trans hneed)

theorem params_settled {ps : List Text} (h : Params ps ts gs) : Each true (fun _ => False) gs := by
  induction h with
  | close => exact .nil
  | param _ _ _ ih => exact .behind (.append between_settled ih) fun _ _ => id

theorem fieldDecls_settled {fs : List (Text × Text)} (h : FieldDecls fs ts gs) : Each true (fun _ => False) gs := by
  induction h with
  | close => exact .nil
  | field _ _ _ _ _ ih => exact .behind (.append between_settled ih) fun _ _ => id

theorem head_settled {ps : List Text} (h : Head ps ts gs) : Each true (fun _ => False) gs := by
  cases h with
  | name => exact .nil
  | list _ hps => exact (params_settled hps).behind fun _ _ => id

theorem unclosed_without {ks : List Kind} {c : Token} (hc : c.kind = .comma) (ts us : List Token) :
    unclosed ks (ts ++ c :: us) = unclosed ks (ts ++ us) := by
  have hstep (ks : List Kind) : unclosed ks (c :: us) = unclosed ks us := by
    rw [unclosed_cons, hc]
    rfl
  rw [unclosed_append, unclosed_append]
  simp only [hstep]

theorem Shut.without (h : Shut close ts) (hs : s.Cuts ts) : Shut close s.without := by
  obtain ⟨inner, last, hts, hlast, hinner⟩ := h
  obtain ⟨-, hbehind, c, hc, hsplit⟩ := hs
  obtain ⟨us, t, hus⟩ := (List.eq_nil_or_concat' s.behind).resolve_left hbehind
  have e : s.before ++ c :: us ++ [t] = inner ++ [last] := by
    rw [← hts, hsplit, hus]
    simp
  obtain ⟨rfl, hlast'⟩ := List.append_inj' e rfl
  cases hlast'
  refine ⟨s.before ++ us, last, by simp [Separator.without, hus], hlast, ?_⟩
  rw [Nested, ← unclosed_without hc]
  exact hinner

/-- A list is read to the token that closes it. -/
theorem items_rest {q : List Node × List Token} (hclose : Closing close) (hts : Shut close ts)
    (h : items n close (ts ++ r) = .ok q) : q.2 = r := by
  have hread := (reader n).items close (ts ++ r)
  rw [h] at hread
  obtain ⟨us, -, e, gs, hus⟩ := hread
  exact (hts.unique hclose (items_fit hus hclose).shut e).2.symm

theorem start_without (h : Item v ts e gs) (hs : s ∈ gs) (r : List Token) : kindAt (s.without ++ r) ∈ itemStarts := by
  have hcuts := (item_fits h).cuts s hs
  refine start_append ?_ r
  rw [hcuts.kindAt]
  exact item_start h

theorem items_next {vs : List Node} (h : Items close vs ts gs) (hvs : vs.isEmpty = false) : kindAt (skipCommas ts) ∈ itemStarts := by
  cases h with
  | close => cases hvs
  | item hcs hv =>
    rw [skip_element hcs (item_start hv) (item_fits hv).ne_nil]
    exact start_append (item_start hv) _

theorem fields_next {fs : List (Text × Node)} (h : Fields fs ts gs) (hfs : fs.isEmpty = false) :
    kindAt (skipCommas ts) ∈ itemStarts := by
  cases h with
  | close => cases hfs
  | field hcs hname =>
    rw [skipCommas_commas hcs, cons_append, skipCommas_other (by simp [hname]), kindAt, hname]
    decide

/-- Without the comma, the element goes on into the next one. -/
theorem between_goes_on (hv : Item v ts e gs)
    (hs : s ∈ between last (e.goesOn (kindAt (skipCommas us))) us) (hneed : s.needed = true)
    (hnext : kindAt (skipCommas us) ∈ itemStarts) (r : List Token) :
    Misses (fun n => item n (ts ++ (s.without ++ r))) v := by
  obtain ⟨hskip, hgo⟩ := (stops_without hs).2.2 hneed
  rw [← hskip] at hnext
  have hstart := start_append hnext r
  refine item_goes_on hv ?_ hstart
  rw [kindAt_append]
  · exact hgo
  · intro hnil
    rw [hnil] at hnext
    exact absurd hnext (by decide)

section

variable {β : Type} {gs' : List Separator} {rest : Nat → List Token → Reading (β × List Token)} {w : β}

def Differs (v : Node) (rest : Nat → List Token → Reading (β × List Token)) (w : β) (ts : List Token) : Prop :=
  ∀ {m p q}, item m ts = .ok p → rest m p.2 = .ok q → p.1 = v → q.1 ≠ w

theorem after_altered (h : Each true (fun us => ∀ r, Misses (fun n => rest n (us ++ r)) w) gs') (hv : Item v ts e gs)
    (hgo : e.goesOn (kindAt us) = false) (hcuts : ∀ s ∈ gs', s.Cuts us) :
    Each true (fun us => ∀ r, Differs v rest w (ts ++ (us ++ r))) gs' := by
  intro s hs hneed r m p q hp hq _
  rw [← (hcuts s hs).kindAt] at hgo
  cases item_only hv (goesOn_append hgo (hcuts s hs).without_ne_nil r) hp
  exact h s hs hneed r m q hq

/-- The same in a list with commas: behind the element, or further on. -/
theorem rest_altered (h : Each true (fun us => ∀ r, Misses (fun n => rest n (us ++ r)) w) gs') (hv : Item v ts e gs)
    (hgo : e.goesOn (kindAt us) = false) (hcuts : ∀ s ∈ gs', s.Cuts us)
    (hnext : last = false → kindAt (skipCommas us) ∈ itemStarts) :
    Each true (fun us => ∀ r, Differs v rest w (ts ++ (us ++ r))) (between last (e.goesOn (kindAt (skipCommas us))) us ++ gs') := by
  refine Each.append ?_ (after_altered h hv hgo hcuts)
  intro s hs hneed r m p q hp _ e
  exact absurd e (between_goes_on hv hs hneed (hnext (mem_between hs).1) r m p hp)

/-- In an element, or behind it. -/
theorem listed_altered {pre : List Token} {f : Node → β → β} (hf : ∀ {v v' w w'}, f v w = f v' w' → v = v' ∧ w = w')
    (hlist : ∀ {ts}, kindAt ts ∈ itemStarts → Listed rest f ts fun n => rest n (pre ++ ts)) (hv : Item v ts e gs)
    (h : Each true (fun ts => ∀ r, e.goesOn (kindAt r) = false → Misses (fun n => item n (ts ++ r)) v) gs)
    (hgo : e.goesOn (kindAt us) = false) (hus : us ≠ [])
    (hrest : Each true (fun us => ∀ r, Differs v rest w (ts ++ (us ++ r))) gs') :
    Each true (fun ts => ∀ r, Misses (fun n => rest n (ts ++ r)) (f v w)) (within pre us gs ++ within (pre ++ ts) [] gs') := by
  refine (h.inside fun g hg h r n q hq e => ?_).append (hrest.behind fun g _ h r n q hq e => ?_)
  · rw [append_assoc, append_assoc] at hq
    obtain ⟨m, p, q', hp, -, hq⟩ := (hlist (start_without hv hg _)).back hq
    exact h _ (goesOn_append hgo hus r) m p hp (hf (hq.symm.trans e)).1
  · rw [append_assoc, append_assoc] at hq
    obtain ⟨m, p, q', hp, hq', hq⟩ := (hlist (start_append (item_start hv) _)).back hq
    obtain ⟨hfirst, hrest⟩ := hf (hq.symm.trans e)
    exact h r hp hq' hfirst hrest

end

theorem alters_factor (h : ∀ r {n p}, factor n (ts ++ r) = .ok p → ∃ m w, w ≠ v ∧ suffixes m w r = .ok p) :
    IsLevel.Alters factor factorMore v ts := by
  intro r hr n p hp
  obtain ⟨m, w, hw, hm⟩ := h r hp
  cases suffixes_only hr hm
  exact ⟨hw, rfl⟩

mutual

/-- Without a separator that is needed, an item is read as another one, if it is read at all. -/
theorem item_altered {v ts e gs} : Item v ts e gs →
    Each true (fun ts => ∀ r, e.goesOn (kindAt r) = false → Misses (fun n => item n (ts ++ r)) v) gs
  | .assign hname heq hv => (item_altered hv).behind fun _ _ h r hr => (h r hr).made (made_assign hname heq _)
  | .variable _ _ => .nil
  | .construct hname hbrace hfs =>
    (fields_altered hfs).behind fun _ _ h r _ => (h r).made (made_construct hname hbrace _)
  | .block hhead harrow hbrace hvs => by
    refine ((head_settled hhead).inside fun _ _ => False.elim).append ((block_altered hvs).behind fun g _ h r _ => ?_)
    simp only [append_assoc, cons_append, nil_append]
    exact (h r).made (made_block hhead harrow hbrace _)
  | .function hhead harrow hv => by
    refine ((head_settled hhead).inside fun _ _ => False.elim).append ((item_altered hv).behind fun g hg h r hr => ?_)
    simp only [append_assoc, cons_append, nil_append]
    exact (h r hr).made (made_function hhead harrow (start_without hv hg r))
  | .array hbracket hvs =>
    (items_altered hvs (by decide)).behind fun _ _ h r _ => (h r).made (made_array hbracket _)
  | .ret _ => .nil
  | .retItem ht hv => (item_altered hv).behind fun _ hg h r hr =>
    (h r hr).made (made_return ht (not_endsItem_of_start (start_without hv hg r)))
  | .structDef _ _ _ hfs => (fieldDecls_settled hfs).behind fun _ _ => False.elim
  | .expr h => by
    intro s hs hneed r hr n p hp
    have hcuts := (expr_fits h).cuts s hs
    rw [← ofExpr_without (expr_fronted h) hcuts, goesOn_ofExpr, decide_eq_false_iff_not, List.mem_append, not_or] at hr
    cases n with
    | zero => cases hp
    | succ n =>
      dsimp only at hp
      rw [item_eq_expr (fronted_without (expr_fronted h) hcuts) hr.2] at hp
      exact (expr_altered h s hs hneed r hr.1 hp).1

theorem block_altered {vs ts gs} : Block vs ts gs → Each true (fun ts => ∀ r, Misses (fun n => block n (ts ++ r)) vs) gs
  | .close _ => .nil
  | .item hv hgo hvs =>
    have hfit := block_fits hvs
    listed_altered cons.inj block_listed hv (item_altered hv) hgo hfit.shut.ne_nil
      (after_altered (block_altered hvs) hv hgo hfit.cuts)

theorem fields_altered {fs ts gs} : Fields fs ts gs → Each true (fun ts => ∀ r, Misses (fun n => fields n (ts ++ r)) fs) gs
  | .close _ _ => .nil
  | @Fields.field _ _ _ name colon _ _ _ _ _ hcs hname hcolon hv hgo hfs => by
    have hfit := fields_fit hfs
    rw [← append_assoc _ [name, colon]]
    refine listed_altered (f := fun v fs => (name.lexeme, v) :: fs) (fun e => ?_) (fun {ts} _ => ?_) hv (item_altered hv) hgo hfit.shut.ne_nil
      (rest_altered (fields_altered hfs) hv hgo hfit.cuts (fields_next hfs))
    · obtain ⟨hpair, hrest⟩ := cons.inj e
      exact ⟨(Prod.mk.inj hpair).2, hrest⟩
    · simp only [append_assoc, cons_append, nil_append]
      exact fields_listed hcs hname hcolon ts

theorem items_altered {close vs ts gs} : Items close vs ts gs → Closing close →
    Each true (fun ts => ∀ r, Misses (fun n => items n close (ts ++ r)) vs) gs
  | .close _ _, _ => .nil
  | .item hcs hv hgo hvs, hclose =>
    have hfit := items_fit hvs hclose
    listed_altered cons.inj (items_listed hcs hclose) hv (item_altered hv) hgo hfit.shut.ne_nil
      (rest_altered (items_altered hvs hclose) hv hgo hfit.cuts (items_next hvs))

/-- For an expression, the rest is known too: what is behind the operand on the left must still be its operator. -/
theorem expr_altered {v ts gs} : Expr v ts gs → Each true (IsLevel.Alters expr exprMore v) gs
  | .term h => fun s hs hneed => isLevel_expr.alter_alone (term_altered h s hs hneed)
  | .sum hl hop hsign h => by
    rw [← List.mem_pair] at hop
    exact ((term_altered hl).inside fun _ _ hg => isLevel_expr.alter_left hop hsign hg (expr_only h)).append
      ((expr_altered h).behind fun _ _ => isLevel_expr.alter_right hop hsign (term_only hl))

theorem term_altered {v ts gs} : Term v ts gs → Each true (IsLevel.Alters term termMore v) gs
  | .factor h => fun s hs hneed => isLevel_term.alter_alone (alters_factor (factor_altered h s hs hneed))
  | .product hl hop hsign h => by
    rw [← List.mem_pair] at hop
    exact ((factor_altered hl).inside fun _ _ hg => isLevel_term.alter_left hop hsign (alters_factor hg) (term_only h)).append
      ((term_altered h).behind fun _ _ => isLevel_term.alter_right hop hsign (factor_only hl))

/-- Up to its suffixes, a factor is read as another one. -/
theorem factor_altered {v ts gs} : Factor v ts gs → Each true (fun ts => ∀ r {n p}, factor n (ts ++ r) = .ok p →
    ∃ m w, w ≠ v ∧ suffixes m w r = .ok p) gs
  | .primary h => by
    intro s hs hneed r n p hp
    cases n with
    | zero => cases hp
    | succ n =>
      unfold factor at hp
      obtain ⟨q, hq, hsuffixes⟩ := bind_ok hp
      obtain ⟨hv, hrest⟩ := primary_altered h s hs hneed r hq
      rw [← hrest]
      exact ⟨n, q.1, hv, hsuffixes⟩
  | .call hv hparen hvs => by
    refine ((factor_altered hv).inside fun g _ h r n p hp => ?_).append
      ((items_altered hvs (by decide)).behind fun g hg h r n p hp => ?_)
    · rw [nil_append, append_assoc, append_assoc] at hp
      obtain ⟨m, w, hw, hp⟩ := h _ hp
      obtain ⟨k, q, hq, hp⟩ := made_call hparen hp
      cases (items_read hvs (by decide) r).read (fun hle => ((steady hle).items _ (forall₂_refl _)).settles) hq
      exact ⟨k, _, fun e => hw (Node.call.inj e).1, hp⟩
    · rw [append_assoc, append_assoc] at hp
      obtain ⟨m, hp⟩ := made_factor hv hp
      obtain ⟨k, q, hq, hp⟩ := made_call hparen hp
      have hfit := items_fit hvs (by decide)
      have hrest := items_rest (by decide) (hfit.shut.without (hfit.cuts g hg)) hq
      rw [hrest] at hp
      exact ⟨k, _, fun e => h r k q hq (Node.call.inj e).2, hp⟩
  | .property hv hdot hname => by
    refine (factor_altered hv).inside fun g _ h r n p hp => ?_
    rw [nil_append, append_assoc] at hp
    obtain ⟨m, w, hw, hp⟩ := h _ hp
    obtain ⟨k, hp⟩ := made_property hdot hname hp
    exact ⟨k, _, fun e => hw (Node.property.inj e).1, hp⟩

theorem primary_altered {v ts gs} : Primary v ts gs → Each true (fun ts => ∀ r {n p}, primary n (ts ++ r) = .ok p →
    p.1 ≠ v ∧ p.2 = r) gs
  | .literal _ _ => .nil
  | .parens hopen hv hclose => by
    refine (expr_altered hv).inside fun g _ h r n p hp => ?_
    cases n with
    | zero => cases hp
    | succ n =>
      simp only [append_assoc, cons_append, nil_append, primary, hopen, if_true] at hp
      obtain ⟨q, hq, hp⟩ := bind_ok hp
      obtain ⟨hw, hrest⟩ := h _ (close_stops hclose r) hq
      rw [hrest, expect_kind hclose] at hp
      cases hp
      exact ⟨hw, rfl⟩

end

/-- What is read of a script is something else. -/
theorem script_altered {vs : List Node} (h : Script vs ts gs) : Each true (fun ts => ∀ {n}, program n ts ≠ .ok vs) gs := by
  induction h with
  | nil => exact .nil
  | item hv hgo hvs ih =>
    refine ((item_altered hv).inside fun g hg h n hn => ?_).append (Each.behind ih fun g hg h n hn => ?_)
    · obtain ⟨m, k, p, ms, hp, -, e⟩ := made_program (by simp [((item_fits hv).cuts g hg).without_ne_nil]) hn
      exact h _ hgo m p hp (cons.inj e).1.symm
    · obtain ⟨m, k, p, ms, hp, hms, e⟩ := made_program (by simp [(item_fits hv).ne_nil]) hn
      rw [← (script_cuts hvs g hg).kindAt] at hgo
      cases item_only hv hgo hp
      exact h (hms.trans (congrArg _ (cons.inj e).2.symm))

end

/-! ## (4) Texts -/

section

variable {src : Text} {ns : List Node} {s : Separator}

theorem source_ok : Parse.source src = .ok ns ↔ Parse.wholeList (Token.tokenize src) = .ok ns := by
  unfold Parse.source Parse.tokens
  cases Parse.wholeList (Token.tokenize src) <;> simp [Except.mapError]

theorem agree_ok {x y : Reading (List Node)} (h : Parse.Agree x y) : x = .ok ns ↔ y = .ok ns := by
  cases x with
  | ok ms =>
    cases y with
    | ok ms' => rw [show ms = ms' from h]
    | error g => exact h.elim
  | error f =>
    cases y with
    | ok ms' => exact h.elim
    | error g => simp

/-- A blank in the place of a comma takes the comma out of the tokens. -/
theorem source_blanked {before behind : List Token} {c : Token} {b : UInt8}
    (herror : ∀ t ∈ Token.tokenize src, t.kind ≠ .error) (hsplit : Token.tokenize src = before ++ c :: behind)
    (hc : c.kind = .comma) (hb : Pattern.isBlank b = true) (ns : List Node) : src[c.span.first]? = some ','.toUInt8 ∧
      (Parse.source (src.set c.span.first b) = .ok ns ↔ Parse.wholeList (before ++ behind) = .ok ns) := by
  obtain ⟨xs, htrace⟩ := Lexicon.exists_trace Token.lexicon (.start src)
  have htokens : Token.tokenize src = Lexicon.tokensOf xs := htrace.tokens Token.lexicon_isOpen
  rw [htokens] at herror hsplit
  obtain ⟨pre, post, hrest, hfirst, hwritten⟩ := Token.written_blanked htrace herror hsplit hc
  obtain rfl : src = pre ++ ','.toUInt8 :: post := hrest
  obtain hfirst : c.span.first = pre.length := hfirst.trans (Nat.zero_add _)
  rw [hfirst]
  refine ⟨by simp, ?_⟩
  rw [show (pre ++ ','.toUInt8 :: post).set pre.length b = pre ++ b :: post by simp, source_ok]
  exact agree_ok (Parse.agree_wholeList (Parse.same_of_words (hwritten b hb).words))

/-- The separators of a program are the commas between the elements of its lists. With a space in the place of one, it is
    the same program just when the comma was not needed: another comma stands beside it, or the element before it
    does not go on at the first token of the next one. -/
theorem separator_needed_iff (h : Parse.source src = .ok ns) : (∃ gs, Script ns (Token.tokenize src) gs) ∧
    ∀ gs, Script ns (Token.tokenize src) gs → ∀ s ∈ gs, ∃ c : Token, c.kind = .comma ∧
      Token.tokenize src = s.before ++ c :: s.behind ∧ src[c.span.first]? = some ','.toUInt8 ∧
        (Parse.source (src.set c.span.first ' '.toUInt8) = .ok ns ↔ s.needed = false) := by
  obtain ⟨herror, hscript⟩ := wholeList_iff.mp (source_ok.mp h)
  refine ⟨hscript, fun gs hgs s hs => ?_⟩
  obtain ⟨-, -, c, hc, hsplit⟩ := script_cuts hgs s hs
  have hspace : Pattern.isBlank ' '.toUInt8 = true := by decide
  obtain ⟨hbyte, hblanked⟩ := source_blanked herror hsplit hc hspace ns
  refine ⟨c, hc, hsplit, hbyte, hblanked.trans ⟨fun hread => ?_, fun hneed => ?_⟩⟩
  · obtain ⟨-, gs', hgs'⟩ := wholeList_iff.mp hread
    by_contra hneed
    exact script_altered hgs s hs (Bool.eq_true_of_not_eq_false hneed) (hgs'.program (Nat.le_refl _))
  · refine wholeList_iff.mpr ⟨fun t ht => herror t ?_, script_without hgs s hs hneed⟩
    rw [hsplit]
    rcases List.mem_append.mp ht with ht | ht
    · exact List.mem_append_left _ ht
    · exact List.mem_append_right _ (List.mem_cons_of_mem _ ht)

def elements : Text := "[1, a, b]"

def elementSeparators : List Separator :=
  [⟨(Token.tokenize elements).take 2, (Token.tokenize elements).drop 3, false⟩,
    ⟨(Token.tokenize elements).take 4, (Token.tokenize elements).drop 5, true⟩]

theorem elements_script :
    Script [.array [.int 1, .ident "a", .ident "b"]] (Token.tokenize elements) elementSeparators := by
  have htokens : Token.tokenize elements = [⟨.lbracket, "[", ⟨0, 1⟩, .text "["⟩, ⟨.int, "1", ⟨1, 2⟩, .int 1⟩,
      ⟨.comma, ",", ⟨2, 3⟩, .text ","⟩, ⟨.ident, "a", ⟨4, 5⟩, .text "a"⟩, ⟨.comma, ",", ⟨5, 6⟩, .text ","⟩,
      ⟨.ident, "b", ⟨7, 8⟩, .text "b"⟩, ⟨.rbracket, "]", ⟨8, 9⟩, .text "]"⟩] := by decide +kernel
  have literal {t : Token} {v : Node} (ht : t.kind ≠ .lparen) (hv : Parse.literal? t = some v) :
      Item v [t] (Finish.ofExpr [t]) [] := .expr (.term (.factor (.primary (.literal ht hv))))
  have comma {c : Token} (hc : c.kind = .comma) : Commas [c] := by simpa [Commas] using hc
  rw [elementSeparators, htokens]
  exact .item (.array rfl (.item Grammar.commas_nil (literal Kind.noConfusion rfl) rfl
    (.item (comma rfl) (literal Kind.noConfusion rfl) rfl
      (.item (comma rfl) (literal Kind.noConfusion rfl) rfl (.close Grammar.commas_nil rfl))))) rfl .nil

theorem separator_needed_iff_elements :
    Parse.source elements = .ok [.array [.int 1, .ident "a", .ident "b"]] ∧
      Script [.array [.int 1, .ident "a", .ident "b"]] (Token.tokenize elements) elementSeparators ∧
      (∃ c : Token, Token.tokenize elements = (Token.tokenize elements).take 2 ++ c :: (Token.tokenize elements).drop 3 ∧
        Parse.source (elements.set c.span.first ' '.toUInt8) = .ok [.array [.int 1, .ident "a", .ident "b"]]) ∧
      ∃ c : Token, Token.tokenize elements = (Token.tokenize elements).take 4 ++ c :: (Token.tokenize elements).drop 5 ∧
        Parse.source (elements.set c.span.first ' '.toUInt8) ≠ .ok [.array [.int 1, .ident "a", .ident "b"]] := by
  have hsource : Parse.source elements = .ok [.array [.int 1, .ident "a", .ident "b"]] := by rfl
  have hall := (separator_needed_iff hsource).2 _ elements_script
  obtain ⟨c, -, hsplit, -, hplain⟩ := hall _ List.mem_cons_self
  obtain ⟨d, -, hsplit', -, hneeded⟩ := hall _ (List.mem_cons_of_mem _ List.mem_cons_self)
  exact ⟨hsource, elements_script, ⟨c, hsplit, hplain.mpr rfl⟩, d, hsplit', fun h => Bool.noConfusion (hneeded.mp h)⟩

/-- Between two names the comma is needed: a space there makes a declaration of them. -/
theorem names_merge : Parse.source "[a, b]" = .ok [.array [.ident "a", .ident "b"]] ∧
    Parse.source (("[a, b]" : Text).set 2 ' '.toUInt8) = .ok [.array [.variable "a" "b"]] := by
  constructor <;> rfl

-- the other two ways: a return that returns the next element, and a call with it
example : Parse.source "f(return, a)" = .ok [.call (.ident "f") [.ret none, .ident "a"]] ∧
    Parse.source "f(return  a)" = .ok [.call (.ident "f") [.ret (some (.ident "a"))]] := by constructor <;> rfl

example : Parse.source "[1, (x)]" = .ok [.array [.int 1, .ident "x"]] ∧
    Parse.source "[1  (x)]" = .ok [.array [.call (.int 1) [.ident "x"]]] := by constructor <;> rfl

end

end Lookahead

end Scriptlet

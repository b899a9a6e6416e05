/-
  Scriptlet.Proofs.Lookahead — what tokens look like from which something is derived.

  (1) Brackets in a derivation are closed by their partners, so where a list ends is settled by counting
      brackets (`Shut.unique`).
  (2) An expression that is an item is taken for one (`item_eq_expr`).
-/

import Scriptlet.Proofs.Parsing

namespace Scriptlet

open List (mem_cons not_mem_nil cons_append)

def Parse.Closing (close : Kind) : Prop := close ∈ [.rparen, .rbracket, .rbrace]

instance (close : Kind) : Decidable (Parse.Closing close) := inferInstanceAs (Decidable (_ ∈ _))

namespace Lookahead

open Grammar (Commas)
open Parse (kindAt skipCommas behindClosing Closing)

/-! ## (1) Brackets -/

/-- What a token does to the brackets that are left to close, innermost first. One that closes must close the
    innermost. -/
def bracket (ks : List Kind) : Kind → Option (List Kind)
  | .lparen => some (.rparen :: ks)
  | .lbracket => some (.rbracket :: ks)
  | .lbrace => some (.rbrace :: ks)
  | .rparen => if ks.head? = some .rparen then some ks.tail else none
  | .rbracket => if ks.head? = some .rbracket then some ks.tail else none
  | .rbrace => if ks.head? = some .rbrace then some ks.tail else none
  | _ => some ks

def unclosed (ks : List Kind) (ts : List Token) : Option (List Kind) := ts.foldlM (fun ks t => bracket ks t.kind) ks

def Nested (ts : List Token) : Prop := unclosed [] ts = some []

/-- Tokens with every bracket closed, and the token that closes a list. -/
def Shut (close : Kind) (ts : List Token) : Prop := ∃ inner c, ts = inner ++ [c] ∧ c.kind = close ∧ Nested inner

variable {ts : List Token} {t : Token}

section

variable {us r r' : List Token} {ks ks' : List Kind} {close : Kind}

theorem unclosed_append (ks : List Kind) (ts us : List Token) :
    unclosed ks (ts ++ us) = (unclosed ks ts).bind (unclosed · us) := List.foldlM_append ..

theorem unclosed_cons (ks : List Kind) (t : Token) (ts : List Token) :
    unclosed ks (t :: ts) = (bracket ks t.kind).bind (unclosed · ts) := List.foldlM_cons ..

theorem bracket_closing {k : Kind} (hk : Closing k) : bracket (k :: ks) k = some ks := by
  simp only [Closing, mem_cons, not_mem_nil, or_false] at hk
  rcases hk with rfl | rfl | rfl <;> rfl

theorem of_bracket_closing {k : Kind} (hk : Closing k) (h : bracket ks k = some ks') : ks = k :: ks' := by
  simp only [Closing, mem_cons, not_mem_nil, or_false] at hk
  cases ks with
  | nil => rcases hk with rfl | rfl | rfl <;> cases h
  | cons j ks => rcases hk with rfl | rfl | rfl <;> simp_all [bracket]

theorem bracket_frame {k : Kind} (h : bracket ks k = some ks') (base : List Kind) :
    bracket (ks ++ base) k = some (ks' ++ base) := by
  by_cases hk : Closing k
  · rw [of_bracket_closing hk h]
    exact bracket_closing hk
  · cases k with
    | rparen => exact absurd (by decide) hk
    | rbracket => exact absurd (by decide) hk
    | rbrace => exact absurd (by decide) hk
    | _ =>
      cases h
      rfl

theorem unclosed_frame (h : unclosed ks ts = some ks') (base : List Kind) :
    unclosed (ks ++ base) ts = some (ks' ++ base) := by
  induction ts generalizing ks with
  | nil =>
    cases h
    rfl
  | cons t ts ih =>
    rw [unclosed_cons] at h ⊢
    obtain ⟨ks₁, hb, h⟩ := Option.bind_eq_some_iff.mp h
    rw [bracket_frame hb base]
    exact ih h

theorem bracket_literal {v : Node} (hv : Parse.literal? t = some v) : bracket [] t.kind = some [] := by
  unfold Parse.literal? at hv
  split at hv
  case h_5 => cases hv
  all_goals simp_all [bracket]

theorem Nested.append (h : Nested ts) (h' : Nested us) : Nested (ts ++ us) := by
  rw [Nested, unclosed_append, h]
  exact h'

theorem nested_commas {cs : List Token} (h : Commas cs) : Nested cs := by
  induction cs with
  | nil => rfl
  | cons c cs ih =>
    rw [Nested, unclosed_cons, h c List.mem_cons_self]
    exact ih fun c hc => h c (List.mem_cons_of_mem _ hc)

theorem nested_single (h : bracket [] t.kind = some []) : Nested [t] := by
  rw [Nested, unclosed_cons, h]
  rfl

/-- An opening bracket, and a list up to the bracket that closes it. -/
theorem Shut.nested (h : Shut close ts) (hclose : Closing close) (ho : bracket [] t.kind = some [close]) :
    Nested ([t] ++ ts) := by
  obtain ⟨inner, c, rfl, hc, hinner⟩ := h
  have hframe : unclosed [close] inner = some [close] := unclosed_frame hinner [close]
  rw [List.singleton_append, Nested, unclosed_cons, ho, Option.bind_some, unclosed_append, hframe, Option.bind_some,
    unclosed_cons, hc, bracket_closing hclose]
  rfl

theorem Shut.append (h : Shut close us) (hts : Nested ts) : Shut close (ts ++ us) := by
  obtain ⟨inner, c, rfl, hc, hinner⟩ := h
  exact ⟨ts ++ inner, c, (List.append_assoc ..).symm, hc, hts.append hinner⟩

/-- Where a list ends is settled by its brackets. -/
theorem Shut.unique (hclose : Closing close) (h : Shut close ts) (h' : Shut close us) (e : ts ++ r = us ++ r') :
    ts = us ∧ r = r' := by
  -- a bracket that closes nothing is not nested
  have shorter {a b : List Token} {c : Token} (ha : Nested a) (hab : Nested (a ++ c :: b)) (hc : c.kind = close) :
      False := by
    rw [Nested, unclosed_append, ha, Option.bind_some, unclosed_cons, hc] at hab
    obtain ⟨ks, hks, -⟩ := Option.bind_eq_some_iff.mp hab
    cases of_bracket_closing hclose hks
  obtain ⟨a, c, rfl, hc, ha⟩ := h
  obtain ⟨b, d, rfl, hd, hb⟩ := h'
  rw [List.append_assoc, List.append_assoc] at e
  rcases List.append_eq_append_iff.mp e with ⟨m, rfl, hm⟩ | ⟨m, rfl, hm⟩
  · cases m with
    | nil =>
      cases hm
      simp
    | cons x m =>
      cases hm
      exact (shorter ha hb hc).elim
  · cases m with
    | nil =>
      cases hm
      simp
    | cons x m =>
      cases hm
      exact (shorter hb ha hd).elim

theorem behindClosing_bracket (h : bracket ks t.kind = some ks') (d : Nat) (r : List Token) :
    behindClosing (ks.count .rparen + d + 1) (t :: r) = behindClosing (ks'.count .rparen + d + 1) r := by
  by_cases hk : Closing t.kind
  · rw [of_bracket_closing hk h]
    by_cases ht : t.kind = .rparen
    · rw [behindClosing, ht, List.count_cons_self]
      simp only
      rw [if_neg (by omega)]
      congr 1
      omega
    · have ho : t.kind ≠ .lparen := by
        rintro ho
        rw [ho] at hk
        exact absurd hk (by decide)
      rw [Parse.behindClosing_other ho ht, List.count_cons_of_ne ht]
  · by_cases ht : t.kind = .lparen
    · rw [ht] at h
      cases h
      rw [behindClosing, ht, List.count_cons_self]
      simp only
      congr 1
      omega
    · have hc : t.kind ≠ .rparen := by
        rintro hc
        rw [hc] at hk
        exact absurd (by decide) hk
      rw [Parse.behindClosing_other ht hc]
      have hcount : ks'.count .rparen = ks.count .rparen := by
        cases hkind : t.kind with
        | lparen | rparen => contradiction
        | rbracket | rbrace => exact absurd (by rw [hkind]; decide) hk
        | lbracket | lbrace =>
          rw [hkind] at h
          cases h
          rw [List.count_cons_of_ne (by decide)]
        | _ =>
          rw [hkind] at h
          cases h
          rfl
      rw [hcount]

/-- Counting parentheses passes over what is nested. -/
theorem behindClosing_unclosed (h : unclosed ks ts = some ks') (d : Nat) (r : List Token) :
    behindClosing (ks.count .rparen + d + 1) (ts ++ r) = behindClosing (ks'.count .rparen + d + 1) r := by
  induction ts generalizing ks with
  | nil =>
    cases h
    rfl
  | cons t ts ih =>
    rw [unclosed_cons] at h
    obtain ⟨ks₁, hb, h⟩ := Option.bind_eq_some_iff.mp h
    rw [cons_append, behindClosing_bracket hb, ih h]

theorem Shut.behindClosing (h : Shut .rparen ts) (ht : t.kind = .lparen) (r : List Token) :
    Parse.behindClosing 0 ([t] ++ ts ++ r) = some r := by
  obtain ⟨inner, c, rfl, hc, hinner⟩ := h
  have hpass : Parse.behindClosing 1 (inner ++ c :: r) = Parse.behindClosing 1 (c :: r) :=
    behindClosing_unclosed hinner 0 (c :: r)
  calc Parse.behindClosing 0 ([t] ++ (inner ++ [c]) ++ r)
      = Parse.behindClosing 1 (inner ++ c :: r) := by simp [Parse.behindClosing, ht]
    _ = some r := by simp [hpass, Parse.behindClosing, hc]

end

/-! ## Where separators are -/

/-- The separator is a comma of the list, neither at its front nor at its end. -/
def Separator.Cuts (s : Separator) (ts : List Token) : Prop :=
  s.before ≠ [] ∧ s.behind ≠ [] ∧ ∃ c : Token, c.kind = .comma ∧ ts = s.before ++ c :: s.behind

structure Fits (ts : List Token) (gs : List Separator) : Prop where
  ne_nil : ts ≠ []
  nested : Nested ts
  cuts : ∀ s ∈ gs, s.Cuts ts

structure FitsList (close : Kind) (ts : List Token) (gs : List Separator) : Prop where
  shut : Shut close ts
  cuts : ∀ s ∈ gs, s.Cuts ts

section

variable {us pre post : List Token} {gs gs' : List Separator} {s : Separator} {close : Kind}

theorem mem_within : s ∈ within pre post gs ↔ ∃ g ∈ gs, s = ⟨pre ++ g.before, g.behind ++ post, g.needed⟩ := by
  simp only [within, List.mem_map, eq_comm]

theorem cuts_within (h : ∀ s ∈ gs, s.Cuts ts) (e : us = pre ++ (ts ++ post)) : ∀ s ∈ within pre post gs, s.Cuts us := by
  intro s hs
  obtain ⟨g, hg, rfl⟩ := mem_within.mp hs
  obtain ⟨hbefore, hbehind, c, hc, rfl⟩ := h g hg
  exact ⟨by simp [hbefore], by simp [hbehind], c, hc, by simp [e]⟩

theorem mem_leading {p : List Token × List Token} (h : p ∈ leading ts) :
    Commas p.1 ∧ ∃ c : Token, c.kind = .comma ∧ ts = p.1 ++ c :: p.2 := by
  induction ts generalizing p with
  | nil => cases h
  | cons t ts ih =>
    rw [leading] at h
    split at h
    · rename_i ht
      rcases mem_cons.mp h with rfl | h
      · exact ⟨Grammar.commas_nil, t, ht, rfl⟩
      · obtain ⟨q, hq, rfl⟩ := List.mem_map.mp h
        obtain ⟨hcommas, c, hc, e⟩ := ih hq
        exact ⟨List.forall_mem_cons.mpr ⟨ht, hcommas⟩, c, hc, congrArg (t :: ·) e⟩
    · cases h

/-- The commas behind an element that is not the last. -/
theorem mem_between {last goesOn : Bool} (h : s ∈ between last goesOn ts) : last = false ∧ Commas s.before ∧
    (∃ c : Token, c.kind = .comma ∧ ts = s.before ++ c :: s.behind) ∧
    s.needed = (goesOn && (leading ts).length == 1) := by
  unfold between at h
  split at h
  · cases h
  · rename_i hlast
    obtain ⟨p, hp, rfl⟩ := List.mem_map.mp h
    obtain ⟨hcommas, hsplit⟩ := mem_leading hp
    exact ⟨Bool.eq_false_iff.mpr hlast, hcommas, hsplit, rfl⟩

theorem Shut.ne_nil (h : Shut close ts) : ts ≠ [] := by
  obtain ⟨inner, c, rfl, -⟩ := h
  simp

theorem shut_close {cs : List Token} {c : Token} (hcs : Commas cs) (hc : c.kind = close) : Shut close (cs ++ [c]) :=
  ⟨cs, c, rfl, hc, nested_commas hcs⟩

theorem Closing.ne_comma (hclose : Closing close) : close ≠ .comma := by
  rintro rfl
  exact absurd hclose (by decide)

/-- Behind an element `pre`, the commas and the rest of the list. -/
theorem FitsList.after {last goesOn : Bool} (h : FitsList close ts gs) (hclose : Closing close) (hpre : pre ≠ [])
    (e : us = pre ++ ts) : ∀ s ∈ within pre [] (between last goesOn ts ++ gs), s.Cuts us := by
  intro s hs
  obtain ⟨g, hg, rfl⟩ := mem_within.mp hs
  rcases List.mem_append.mp hg with hg | hg
  · obtain ⟨-, -, ⟨c, hc, hts⟩, -⟩ := mem_between hg
    -- the last token of the list is no comma
    have hbehind : g.behind ≠ [] := by
      intro hnil
      obtain ⟨inner, c', hshut, hc', -⟩ := h.shut
      rw [hnil] at hts
      cases List.append_inj_right' (hts.symm.trans hshut) rfl
      exact Closing.ne_comma hclose (hc'.symm.trans hc)
    exact ⟨by simp [hpre], by simp [hbehind], c, hc, by simp [e, hts]⟩
  · exact cuts_within h.cuts (by simp [e]) _ (mem_within.mpr ⟨g, hg, rfl⟩)

theorem cuts_nil : ∀ s ∈ ([] : List Separator), s.Cuts ts := List.forall_mem_nil _

theorem params_fit {ps : List Text} (h : Params ps ts gs) : FitsList .rparen ts gs := by
  induction h with
  | close hcs hc => exact ⟨shut_close hcs hc, cuts_nil⟩
  | @param cs ts p ps gs hcs hp _ ih =>
    have hp' : Nested [p] := nested_single (by rw [hp]; rfl)
    refine ⟨(ih.shut.append hp').append (nested_commas hcs), ?_⟩
    exact ih.after (by decide) (by simp) (by simp)

theorem nested_plain (h : ∀ t ∈ ts, bracket [] t.kind = some []) : Nested ts := by
  induction ts with
  | nil => rfl
  | cons t ts ih =>
    rw [Nested, unclosed_cons, h t List.mem_cons_self]
    exact ih fun t ht => h t (List.mem_cons_of_mem _ ht)

theorem fieldDecls_fit {fs : List (Text × Text)} (h : FieldDecls fs ts gs) : FitsList .rbrace ts gs := by
  induction h with
  | close hcs hc => exact ⟨shut_close hcs hc, cuts_nil⟩
  | @field cs ts name colon type fs gs hcs hn hc ht _ ih =>
    have hplain : Nested [name, colon, type] := nested_plain (by simp [hn, hc, ht, bracket])
    refine ⟨(ih.shut.append hplain).append (nested_commas hcs), ?_⟩
    exact ih.after (by decide) (by simp) (by simp)

theorem head_fits {ps : List Text} (h : Head ps ts gs) : Fits ts gs := by
  cases h with
  | name ht => exact ⟨by simp, nested_single (by rw [ht]; rfl), cuts_nil⟩
  | @list t us _ gs ht hps =>
    have hfit := params_fit hps
    exact ⟨by simp, hfit.shut.nested (by decide) (by rw [ht]; rfl), cuts_within hfit.cuts (by simp)⟩

/-- Two parts side by side. -/
theorem Fits.append (h : Fits ts gs) (h' : Fits us gs') : Fits (ts ++ us) (within [] us gs ++ within ts [] gs') where
  ne_nil := by simp [h.ne_nil]
  nested := h.nested.append h'.nested
  cuts := List.forall_mem_append.mpr ⟨cuts_within h.cuts rfl, cuts_within h'.cuts (by simp)⟩

/-- A part behind tokens that are no brackets. -/
theorem Fits.behind (h : Fits ts gs) (hpre : Nested pre) : Fits (pre ++ ts) (within pre [] gs) where
  ne_nil := by simp [h.ne_nil]
  nested := hpre.append h.nested
  cuts := cuts_within h.cuts (by simp)

/-- A list in its brackets. -/
theorem FitsList.fits (h : FitsList close ts gs) (hclose : Closing close) (ho : bracket [] t.kind = some [close]) :
    Fits ([t] ++ ts) (within [t] [] gs) where
  ne_nil := by simp
  nested := h.shut.nested hclose ho
  cuts := cuts_within h.cuts (by simp)

theorem within_within (pre post pre' post' : List Token) (gs : List Separator) :
    within pre post (within pre' post' gs) = within (pre ++ pre') (post' ++ post) gs := by
  simp [within]

mutual

theorem item_fits {v ts e gs} : Item v ts e gs → Fits ts gs
  | .assign hn he hv => (item_fits hv).behind (nested_plain (by simp [hn, he, bracket]))
  | .variable ht hn => ⟨by simp, nested_plain (by simp [ht, hn, bracket]), cuts_nil⟩
  | .construct hn hb hfs => by
    have hfit := (fields_fit hfs).fits (by decide) (by rw [hb]; rfl)
    simpa [within_within] using hfit.behind (nested_single (by rw [hn]; rfl))
  | .block hh ha hb hvs => by
    have hbody := ((block_fits hvs).fits (by decide) (by rw [hb]; rfl)).behind (nested_single (by rw [ha]; rfl))
    simpa [within_within] using (head_fits hh).append hbody
  | .function hh ha hv => by
    have hbody := (item_fits hv).behind (nested_single (by rw [ha]; rfl))
    simpa [within_within] using (head_fits hh).append hbody
  | .array hb hvs => (items_fit hvs (by decide)).fits (by decide) (by rw [hb]; rfl)
  | .ret ht => ⟨by simp, nested_single (by rw [ht]; rfl), cuts_nil⟩
  | .retItem ht hv => (item_fits hv).behind (nested_single (by rw [ht]; rfl))
  | @Item.structDef word name _ _ _ _ hw hn hb hfs => by
    have hfit := (fieldDecls_fit hfs).fits (by decide) (by rw [hb]; rfl)
    have hplain : Nested [word, name] := nested_plain (by rcases hw with hw | hw <;> simp [hw, hn, bracket])
    simpa [within_within] using hfit.behind hplain
  | .expr h => expr_fits h

theorem block_fits {vs ts gs} : Block vs ts gs → FitsList .rbrace ts gs
  | .close hc => ⟨⟨[], _, rfl, hc, rfl⟩, cuts_nil⟩
  | .item hv _ hvs => by
    have hitem := item_fits hv
    have hrest := block_fits hvs
    refine ⟨hrest.shut.append hitem.nested, List.forall_mem_append.mpr ⟨cuts_within hitem.cuts rfl, ?_⟩⟩
    exact cuts_within hrest.cuts (by simp)

theorem fields_fit {fs ts gs} : Fields fs ts gs → FitsList .rbrace ts gs
  | .close hcs hc => ⟨shut_close hcs hc, cuts_nil⟩
  | @Fields.field _ _ _ name colon _ _ _ _ _ hcs hn hc hv _ hfs => by
    have hitem := item_fits hv
    have hrest := fields_fit hfs
    have hplain : Nested [name, colon] := nested_plain (by simp [hn, hc, bracket])
    refine ⟨((hrest.shut.append hitem.nested).append hplain).append (nested_commas hcs), ?_⟩
    refine List.forall_mem_append.mpr ⟨cuts_within hitem.cuts (by simp), ?_⟩
    exact hrest.after (by decide) (by simp) (by simp)

theorem items_fit {close vs ts gs} : Items close vs ts gs → Closing close → FitsList close ts gs
  | .close hcs hc, _ => ⟨shut_close hcs hc, cuts_nil⟩
  | .item hcs hv _ hvs, hclose => by
    have hitem := item_fits hv
    have hrest := items_fit hvs hclose
    refine ⟨(hrest.shut.append hitem.nested).append (nested_commas hcs), ?_⟩
    refine List.forall_mem_append.mpr ⟨cuts_within hitem.cuts rfl, ?_⟩
    exact hrest.after hclose (by simp [hitem.ne_nil]) (by simp)

theorem expr_fits {v ts gs} : Expr v ts gs → Fits ts gs
  | .term h => term_fits h
  | .sum hl hop hsign hr => by
    have hplain : Nested [_] := nested_single (by rw [hsign]; rcases hop with rfl | rfl <;> rfl)
    simpa [within_within] using (term_fits hl).append ((expr_fits hr).behind hplain)

theorem term_fits {v ts gs} : Term v ts gs → Fits ts gs
  | .factor h => factor_fits h
  | .product hl hop hsign hr => by
    have hplain : Nested [_] := nested_single (by rw [hsign]; rcases hop with rfl | rfl <;> rfl)
    simpa [within_within] using (factor_fits hl).append ((term_fits hr).behind hplain)

theorem factor_fits {v ts gs} : Factor v ts gs → Fits ts gs
  | .primary h => primary_fits h
  | .call hv hp hvs => by
    have hargs := (items_fit hvs (by decide)).fits (by decide) (by rw [hp]; rfl)
    simpa [within_within] using (factor_fits hv).append hargs
  | .property hv hd hn => by
    have hfit := factor_fits hv
    exact ⟨by simp, hfit.nested.append (nested_plain (by simp [hd, hn, bracket])), cuts_within hfit.cuts rfl⟩

theorem primary_fits {v ts gs} : Primary v ts gs → Fits ts gs
  | .literal _ hv => ⟨by simp, nested_single (bracket_literal hv), cuts_nil⟩
  | .parens ho hv hc => by
    have hfit := expr_fits hv
    have hlist : Shut .rparen (_ ++ [_]) := ⟨_, _, rfl, hc, hfit.nested⟩
    exact ⟨by simp, hlist.nested (by decide) (by rw [ho]; rfl), cuts_within hfit.cuts rfl⟩

end

end

/-! ## (2) Items that are expressions -/

section

variable {v : Node} {us r : List Token} {gs : List Separator}

def Joined (ts : List Token) : Prop := ts = [] ∨ kindAt ts ∈ exprMore

theorem Joined.append (h : Joined ts) (hus : kindAt us ∈ exprMore) : Joined (ts ++ us) := by
  rcases h with rfl | h
  · exact .inr hus
  · refine .inr ?_
    rw [kindAt_append]
    · exact h
    · rintro rfl
      exact absurd h (by decide)

/-- How an expression starts: with a literal or in parentheses, and then with more of an expression, if anything. -/
def Fronted (ts : List Token) : Prop :=
  (∃ t us, ts = t :: us ∧ t.kind ∈ [.ident, .string, .int, .decimal] ∧ Joined us) ∨
    kindAt ts = .lparen ∧ ∃ b, behindClosing 0 ts = some b ∧ Joined b

theorem Fronted.append (h : Fronted ts) (hus : kindAt us ∈ exprMore) : Fronted (ts ++ us) := by
  rcases h with ⟨t, ts, rfl, ht, hjoined⟩ | ⟨ho, b, hb, hjoined⟩
  · exact .inl ⟨t, ts ++ us, rfl, ht, hjoined.append hus⟩
  · refine .inr ⟨?_, b ++ us, behindClosing_append hb us, hjoined.append hus⟩
    rw [kindAt_append]
    · exact ho
    · rintro rfl
      cases ho

theorem kind_of_literal? (h : Parse.literal? t = some v) : t.kind ∈ [.ident, .string, .int, .decimal] := by
  unfold Parse.literal? at h
  split at h
  case h_5 => cases h
  all_goals simp_all

mutual

theorem expr_fronted {v ts gs} : Expr v ts gs → Fronted ts
  | .term h => term_fronted h
  | .sum hl hop hsign _ =>
    (term_fronted hl).append (by rw [List.singleton_append, kindAt, hsign]; rcases hop with rfl | rfl <;> decide)

theorem term_fronted {v ts gs} : Term v ts gs → Fronted ts
  | .factor h => factor_fronted h
  | .product hl hop hsign _ =>
    (factor_fronted hl).append (by rw [List.singleton_append, kindAt, hsign]; rcases hop with rfl | rfl <;> decide)

theorem factor_fronted {v ts gs} : Factor v ts gs → Fronted ts
  | .primary h => primary_fronted h
  | .call hv hp _ => (factor_fronted hv).append (by rw [List.singleton_append, kindAt, hp]; decide)
  | .property hv hd _ => (factor_fronted hv).append (by rw [kindAt, hd]; decide)

theorem primary_fronted {v ts gs} : Primary v ts gs → Fronted ts
  | .literal _ hv => .inl ⟨_, [], rfl, kind_of_literal? hv, .inl rfl⟩
  | .parens ho hv hc => by
    have hshut : Shut .rparen (_ ++ [_]) := ⟨_, _, rfl, hc, (expr_fits hv).nested⟩
    have hbehind := hshut.behindClosing ho []
    rw [List.append_nil] at hbehind
    exact .inr ⟨ho, [], hbehind, .inl rfl⟩

end

theorem Joined.other {e : Finish} (h : Joined ts) (hne : ts ≠ []) (r : List Token) : kindAt (ts ++ r) ∉ e.others := by
  have hk := h.resolve_left hne
  rw [kindAt_append hne]
  intro hother
  cases e <;> (simp only [Finish.others, mem_cons, not_mem_nil, or_false] at hother)
  case name => rcases hother with e | e | e | e <;> (rw [e] at hk; exact absurd hk (by decide))
  case group => rw [hother] at hk; exact absurd hk (by decide)

theorem item_name (ht : t.kind = .ident) (hr : kindAt r ∉ Finish.name.others) (n : Nat) :
    Parse.item (n + 1) (t :: r) = Parse.expr n (t :: r) := by
  unfold Parse.item
  simp only [ht]
  cases r with
  | nil => rfl
  | cons u r =>
    simp only [Finish.others, kindAt, mem_cons, not_mem_nil, or_false, not_or] at hr
    dsimp only
    split
    case h_5 => rfl
    all_goals simp_all

/-- An expression is taken for one, unless the next token makes another item of it. -/
theorem item_eq_expr (h : Fronted ts) (hr : kindAt r ∉ (Finish.ofExpr ts).others) (n : Nat) :
    Parse.item (n + 1) (ts ++ r) = Parse.expr n (ts ++ r) := by
  rcases h with ⟨t, us, rfl, ht, hjoined⟩ | ⟨ho, b, hb, hjoined⟩
  · rw [cons_append]
    by_cases hident : t.kind = .ident
    · refine item_name hident ?_ n
      by_cases hne : us = []
      · subst hne
        simpa [Finish.ofExpr, hident] using hr
      · exact hjoined.other hne r
    · simp only [mem_cons, hident, false_or, not_mem_nil, or_false] at ht
      unfold Parse.item
      rcases ht with ht | ht | ht <;> simp only [ht]
  · have hbehind := behindClosing_append hb r
    have harrow : kindAt (b ++ r) ≠ .arrow := by
      by_cases hne : b = []
      · subst hne
        have hname : ts.map (·.kind) ≠ [.ident] := by
          cases ts with
          | nil => cases ho
          | cons t ts => simp [show t.kind = .lparen from ho]
        simpa [Finish.ofExpr, hname, ho, hb, Finish.others] using hr
      · simpa [Finish.others] using hjoined.other (e := .group) hne r
    cases ts with
    | nil => cases ho
    | cons t ts =>
      have ht : t.kind = .lparen := ho
      rw [cons_append] at hbehind ⊢
      unfold Parse.item
      simp only [ht, hbehind, harrow, if_false]

def itemStarts : List Kind := [.ident, .string, .int, .decimal, .lparen, .lbracket, .return, .type, .struct]

theorem Fronted.start (h : Fronted ts) : kindAt ts ∈ itemStarts := by
  rcases h with ⟨t, us, rfl, ht, -⟩ | ⟨ho, -⟩
  · simp only [mem_cons, not_mem_nil, or_false] at ht
    rcases ht with ht | ht | ht | ht <;> (rw [kindAt, ht]; decide)
  · rw [ho]
    decide

theorem item_start {e : Finish} (h : Item v ts e gs) : kindAt ts ∈ itemStarts := by
  cases h with
  | assign hn => rw [cons_append, kindAt, hn]; decide
  | «variable» ht => rw [kindAt, ht]; decide
  | construct hn => rw [cons_append, kindAt, hn]; decide
  | block hh | function hh =>
    rw [kindAt_append (head_fits hh).ne_nil]
    cases hh with
    | name ht => rw [kindAt, ht]; decide
    | list ht => rw [cons_append, kindAt, ht]; decide
  | array hb => rw [cons_append, kindAt, hb]; decide
  | ret ht => rw [kindAt, ht]; decide
  | retItem ht => rw [cons_append, kindAt, ht]; decide
  | structDef hw =>
    rw [cons_append, kindAt]
    rcases hw with hw | hw <;> (rw [hw]; decide)
  | expr h => exact (expr_fronted h).start

end

end Lookahead

end Scriptlet

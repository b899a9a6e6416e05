/-
  Scriptlet.Proofs.Separators — commas that can be left out.

  A separator is a comma between two elements of a list. Without it the element before it stands in front of the
  next one. If it stops there, or if another comma is left, nothing else changes.

  (1) Counting parentheses does not see commas, so the parser decides as before what is an
      expression (`fronted_without`, `ofExpr_without`).
  (2) Only the commas in front of a list are concerned, and they are skipped (`stops_without`).
  (3) Without a separator that is not needed, the tokens derive the same node (`item_without`).
-/

import Scriptlet.Proofs.Readings

namespace Scriptlet

open List (cons_append length_cons append_assoc)

namespace Lookahead

open Grammar (Commas)
open Parse (kindAt skipCommas behindClosing Closing)

def Separator.without (s : Separator) : List Token := s.before ++ s.behind

section

variable {ts us pre post : List Token} {gs : List Separator} {s g : Separator} {e : Finish} {c : Token}

/-! ## (1) Expressions -/

/-- Counting parentheses passes over a comma, or ends before it. -/
theorem behindClosing_without (hc : c.kind = .comma) {d : Nat} {p q b : List Token}
    (h : behindClosing d (p ++ c :: q) = some b) :
    behindClosing d (p ++ q) = some b ∨ ∃ x, b = x ++ c :: q ∧ behindClosing d (p ++ q) = some (x ++ q) := by
  induction p generalizing d with
  | nil =>
    rw [List.nil_append, Parse.behindClosing_other (by simp [hc]) (by simp [hc])] at h
    exact .inl h
  | cons t p ih =>
    rw [cons_append] at h ⊢
    by_cases ho : t.kind = .lparen
    · simp only [behindClosing, ho] at h ⊢
      exact ih h
    · by_cases hcl : t.kind = .rparen
      · simp only [behindClosing, hcl] at h ⊢
        split at h
        · rename_i hd
          cases h
          exact .inr ⟨p, rfl, by simp [hd]⟩
        · rename_i hd
          simp only [hd, if_false]
          exact ih h
      · rw [Parse.behindClosing_other ho hcl] at h ⊢
        exact ih h

theorem Separator.Cuts.without_ne_nil (h : s.Cuts ts) : s.without ≠ [] := by
  simp [Separator.without, h.1]

theorem Separator.Cuts.kindAt (h : s.Cuts ts) : Parse.kindAt s.without = Parse.kindAt ts := by
  obtain ⟨hbefore, -, c, -, rfl⟩ := h
  rw [Separator.without, kindAt_append hbefore, kindAt_append hbefore]

/-- An expression still starts as it did. -/
theorem fronted_without (h : Fronted ts) (hs : s.Cuts ts) : Fronted s.without := by
  have hkind := hs.kindAt
  obtain ⟨hbefore, -, c, hc, rfl⟩ := hs
  have hcomma : ∀ q, ¬ Joined (c :: q) := by
    rintro q (hq | hq)
    · cases hq
    · rw [Parse.kindAt, hc] at hq
      exact absurd hq (by decide)
  -- the comma is not the first token of what goes on
  have joined {x q : List Token} (hx : Joined (x ++ c :: q)) : Joined (x ++ q) := by
    cases x with
    | nil => exact (hcomma q hx).elim
    | cons t x => exact .inr (hx.resolve_left (by simp))
  rcases h with ⟨t, us, hus, ht, hjoined⟩ | ⟨ho, b, hb, hjoined⟩
  · obtain ⟨t', before, hcons⟩ := List.exists_cons_of_ne_nil hbefore
    rw [hcons] at hus
    cases hus
    refine .inl ⟨t, before ++ s.behind, ?_, ht, joined hjoined⟩
    rw [Separator.without, hcons]
    rfl
  · refine .inr ⟨hkind.trans ho, ?_⟩
    rcases behindClosing_without hc hb with hb' | ⟨x, rfl, hb'⟩
    · exact ⟨b, hb', hjoined⟩
    · exact ⟨x ++ s.behind, hb', joined hjoined⟩

/-- And it ends as it did. -/
theorem ofExpr_without (h : Fronted ts) (hs : s.Cuts ts) : Finish.ofExpr s.without = Finish.ofExpr ts := by
  have hkind := hs.kindAt
  obtain ⟨hbefore, hbehind, c, hc, rfl⟩ := hs
  have hlong : (s.before ++ c :: s.behind).map (·.kind) ≠ [.ident] := by
    intro e
    have hlen := congrArg List.length e
    have := List.length_pos_iff.mpr hbefore
    simp only [List.length_map, List.length_append, length_cons, List.length_nil] at hlen
    omega
  have hlong' : s.without.map (·.kind) ≠ [.ident] := by
    intro e
    have hlen := congrArg List.length e
    have := List.length_pos_iff.mpr hbefore
    have := List.length_pos_iff.mpr hbehind
    simp only [Separator.without, List.length_map, List.length_append, length_cons, List.length_nil] at hlen
    omega
  have hclosing (hk : Parse.kindAt (s.before ++ c :: s.behind) = .lparen) :
      behindClosing 0 s.without = some [] ↔ behindClosing 0 (s.before ++ c :: s.behind) = some [] := by
    rcases h with ⟨t, us, hus, ht, -⟩ | ⟨-, b, hb, -⟩
    · rw [hus, Parse.kindAt] at hk
      rw [hk] at ht
      exact absurd ht (by decide)
    · rw [hb, Separator.without]
      rcases behindClosing_without hc hb with hb' | ⟨x, rfl, hb'⟩
      · rw [hb']
      · rw [hb']
        simp [hbehind]
  unfold Finish.ofExpr
  rw [if_neg hlong, if_neg hlong', hkind]
  by_cases hk : Parse.kindAt (s.before ++ c :: s.behind) = .lparen
  · simp only [hk, true_and, hclosing hk]
  · simp only [hk, false_and, if_false]

/-! ## (2) Commas in front of lists -/

theorem goesOn_comma (e : Finish) : e.goesOn .comma = false := by
  cases e <;> decide

theorem kindAt_skipCommas (ts : List Token) : kindAt (skipCommas ts) ≠ .comma := by
  induction ts with
  | nil => exact Kind.noConfusion
  | cons t ts ih =>
    by_cases ht : t.kind = .comma
    · rw [skipCommas_comma ht]
      exact ih
    · rw [skipCommas_other ht]
      exact ht

variable {cs : List Token} {ps : List Text} {vs : List Node} {fs : List (Text × Text)} {gs' : List Separator}

theorem length_leading (hcs : Commas cs) (h : kindAt ts ≠ .comma) :
    (leading (cs ++ ts)).length = cs.length := by
  induction cs with
  | nil =>
    cases ts with
    | nil => rfl
    | cons t ts =>
      have ht : ¬ t.kind = .comma := h
      rw [List.nil_append, leading, if_neg ht]
      rfl
  | cons c cs ih =>
    obtain ⟨hc, hcs⟩ := List.forall_mem_cons.mp hcs
    rw [cons_append, leading, if_pos hc, length_cons, List.length_map, ih hcs, length_cons]

/-- Without one of the commas behind an element, the same list follows behind the commas that are left. If the comma is
    not needed, the element still stops there, and if it is, no comma is left. -/
theorem stops_without {last : Bool} (hg : g ∈ between last (e.goesOn (kindAt (skipCommas us))) us) :
    (∃ cs, Commas cs ∧ g.without = cs ++ skipCommas us) ∧
      (g.needed = false → e.goesOn (kindAt g.without) = false) ∧
      (g.needed = true → g.without = skipCommas us ∧ e.goesOn (kindAt g.without) = true) := by
  obtain ⟨-, hbefore, ⟨c, hc, rfl⟩, hneeded⟩ := mem_between hg
  obtain ⟨cs, hcs, hbehind⟩ := Parse.exists_commas g.behind
  have hleft : Commas (g.before ++ cs) := List.forall_mem_append.mpr ⟨hbefore, hcs⟩
  have hwithout : g.without = (g.before ++ cs) ++ skipCommas g.behind := by
    rw [Separator.without, append_assoc, ← hbehind]
  have hskip : skipCommas (g.before ++ c :: g.behind) = skipCommas g.behind := by
    rw [skipCommas_commas hbefore, skipCommas_comma hc]
  have hlength : (leading (g.before ++ c :: g.behind)).length = (g.before ++ cs).length + 1 := by
    have hall : Commas (g.before ++ c :: cs) :=
      List.forall_mem_append.mpr ⟨hbefore, List.forall_mem_cons.mpr ⟨hc, hcs⟩⟩
    have hsplit : g.before ++ c :: g.behind = (g.before ++ c :: cs) ++ skipCommas g.behind := by
      rw [append_assoc, cons_append, ← hbehind]
    rw [hsplit, length_leading hall (kindAt_skipCommas _)]
    simp only [List.length_append, length_cons]
    omega
  rw [hskip, hlength] at hneeded
  rw [hskip]
  refine ⟨⟨g.before ++ cs, hleft, hwithout⟩, ?_⟩
  cases hfront : g.before ++ cs with
  | nil =>
    rw [hfront, List.nil_append] at hwithout
    rw [hfront] at hneeded
    simp only [List.length_nil, Nat.zero_add, BEq.rfl, Bool.and_true] at hneeded
    rw [hwithout, ← hneeded]
    exact ⟨id, fun h => ⟨rfl, h⟩⟩
  | cons c' rest =>
    -- a comma is left, and every item stops there
    rw [hfront] at hwithout hneeded hleft
    have hkind : kindAt g.without = .comma := by
      rw [hwithout]
      exact hleft c' List.mem_cons_self
    rw [hkind]
    refine ⟨fun _ => goesOn_comma e, fun h => ?_⟩
    simp [hneeded] at h

/-! ## (3) Derivations without a separator -/

/-- A list may start with any commas. -/
theorem params_recomma (h : Params ps ts gs) (hcs : Commas cs) :
    ∃ gs', Params ps (cs ++ skipCommas ts) gs' := by
  cases h with
  | @close cs' c hcs' hc =>
    rw [skipCommas_commas hcs', skipCommas_other (by simp [hc])]
    exact ⟨_, .close hcs hc⟩
  | @param cs' ts p ps gs hcs' hp hps =>
    rw [skipCommas_commas hcs', List.singleton_append, skipCommas_other (by simp [hp])]
    exact ⟨_, .param hcs hp hps⟩

theorem fieldDecls_recomma (h : FieldDecls fs ts gs) (hcs : Commas cs) :
    ∃ gs', FieldDecls fs (cs ++ skipCommas ts) gs' := by
  cases h with
  | @close cs' c hcs' hc =>
    rw [skipCommas_commas hcs', skipCommas_other (by simp [hc])]
    exact ⟨_, .close hcs hc⟩
  | @field cs' ts name colon type fs gs hcs' hname hcolon htype hfs =>
    rw [skipCommas_commas hcs', cons_append, skipCommas_other (by simp [hname])]
    exact ⟨_, .field hcs hname hcolon htype hfs⟩

theorem items_recomma {close : Kind} (h : Items close vs ts gs) (hclose : Closing close)
    (hcs : Commas cs) : ∃ gs', Items close vs (cs ++ skipCommas ts) gs' := by
  cases h with
  | @close cs' c _ hcs' hc =>
    rw [skipCommas_commas hcs', skipCommas_other (by rw [hc]; exact Closing.ne_comma hclose)]
    exact ⟨_, .close hcs hc⟩
  | item hcs' hv hgo hvs =>
    rw [skip_element hcs' (item_start hv) (item_fits hv).ne_nil]
    exact ⟨_, .item hcs hv hgo hvs⟩

theorem fields_recomma {fs : List (Text × Node)} (h : Fields fs ts gs) (hcs : Commas cs) :
    ∃ gs', Fields fs (cs ++ skipCommas ts) gs' := by
  cases h with
  | @close cs' c hcs' hc =>
    rw [skipCommas_commas hcs', skipCommas_other (by simp [hc])]
    exact ⟨_, .close hcs hc⟩
  | @field cs' ts us name colon v fs e gs gs' hcs' hname hcolon hv hgo hfs =>
    rw [skipCommas_commas hcs', cons_append, skipCommas_other (by simp [hname])]
    exact ⟨_, .field hcs hname hcolon hv hgo hfs⟩

/-- Without the comma of any separator that is needed, or of any that is not, this is left. -/
def Each (needed : Bool) (P : List Token → Prop) (gs : List Separator) : Prop := ∀ s ∈ gs, s.needed = needed → P s.without

section

variable {b : Bool} {P Q : List Token → Prop}

theorem Each.nil : Each b P [] := List.forall_mem_nil _

theorem Each.append (h : Each b P gs) (h' : Each b P gs') : Each b P (gs ++ gs') := List.forall_mem_append.mpr ⟨h, h'⟩

/-- The comma of a part, with the tokens on either side of the part. -/
theorem Each.inside (h : Each b P gs) (make : ∀ g ∈ gs, P g.without → Q (pre ++ (g.without ++ post))) :
    Each b Q (within pre post gs) := by
  intro s hs hneed
  obtain ⟨g, hg, rfl⟩ := mem_within.mp hs
  have hmade := make g hg (h g hg hneed)
  simpa [Separator.without] using hmade

theorem Each.behind (h : Each b P gs) (make : ∀ g ∈ gs, P g.without → Q (pre ++ g.without)) : Each b Q (within pre [] gs) :=
  h.inside fun g hg hp => by simpa using make g hg hp

end

/-- The same is derived without the comma of any separator that is not needed. -/
def Spares (R : List Token → List Separator → Prop) : List Separator → Prop := Each false fun ts => ∃ gs, R ts gs

section

variable {R R' : List Token → List Separator → Prop} {last : Bool}

theorem Spares.append (h : Spares R gs) (h' : Spares R gs') : Spares R (gs ++ gs') := Each.append h h'

theorem Spares.inside (h : Spares R gs) (make : ∀ {ts gs}, R ts gs → ∃ gs', R' (pre ++ (ts ++ post)) gs') :
    Spares R' (within pre post gs) :=
  Each.inside h fun _ _ h => h.elim fun _ h => make h

theorem Spares.behind (h : Spares R gs) (make : ∀ {ts gs}, R ts gs → ∃ gs', R' (pre ++ ts) gs') : Spares R' (within pre [] gs) :=
  Each.behind h fun _ _ h => h.elim fun _ h => make h

/-- Behind an element, the element still stops, at the next comma or where the rest of the list starts. -/
theorem Spares.after (h : Spares R gs) (hcuts : ∀ s ∈ gs, s.Cuts us) (hgo : e.goesOn (kindAt us) = false)
    (make : ∀ {ts gs}, e.goesOn (kindAt ts) = false → R ts gs → ∃ gs', R' (pre ++ ts) gs') : Spares R' (within pre [] gs) := by
  refine Each.behind h fun g hg h => h.elim fun _ h => make ?_ h
  rw [(hcuts g hg).kindAt]
  exact hgo

/-- The same for a list that may start with any commas. -/
theorem Spares.rest (h : Spares R gs) (hcuts : ∀ s ∈ gs, s.Cuts us) (hgo : e.goesOn (kindAt us) = false)
    (recomma : ∀ {cs}, Commas cs → ∃ gs', R (cs ++ skipCommas us) gs')
    (make : ∀ {ts gs}, e.goesOn (kindAt ts) = false → R ts gs → ∃ gs', R' (pre ++ ts) gs') :
    Spares R' (within pre [] (between last (e.goesOn (kindAt (skipCommas us))) us ++ gs)) := by
  rw [within, List.map_append]
  refine Spares.append ?_ (h.after hcuts hgo make)
  intro s hs hneed
  obtain ⟨g, hg, rfl⟩ := mem_within.mp hs
  obtain ⟨⟨cs, hcs, e⟩, hstop, -⟩ := stops_without hg
  obtain ⟨gs', h⟩ := recomma hcs
  rw [← e] at h
  simpa [Separator.without] using make (hstop hneed) h

end

theorem params_without (h : Params ps ts gs) : Spares (Params ps) gs := by
  induction h with
  | close => exact Each.nil
  | param hcs hp hps ih =>
    refine ih.rest (e := .closed) (params_fit hps).cuts rfl (params_recomma hps) fun _ h => ?_
    rw [append_assoc]
    exact ⟨_, .param hcs hp h⟩

theorem fieldDecls_without (h : FieldDecls fs ts gs) : Spares (FieldDecls fs) gs := by
  induction h with
  | close => exact Each.nil
  | field hcs hname hcolon htype hfs ih =>
    refine ih.rest (e := .closed) (fieldDecls_fit hfs).cuts rfl (fieldDecls_recomma hfs) fun _ h => ?_
    rw [append_assoc]
    exact ⟨_, .field hcs hname hcolon htype h⟩

theorem head_without (h : Head ps ts gs) : Spares (Head ps) gs := by
  cases h with
  | name => exact Each.nil
  | list ht hps => exact (params_without hps).behind fun h => ⟨_, .list ht h⟩

mutual

/-- Without a separator that is not needed, the tokens derive the same item, which ends the same way. -/
theorem item_without {v ts e gs} : Item v ts e gs → Spares (fun ts gs => Item v ts e gs) gs
  | .assign hn he hv => (item_without hv).behind fun h => ⟨_, .assign hn he h⟩
  | .variable _ _ => Each.nil
  | .construct hn hb hfs => (fields_without hfs).behind fun h => ⟨_, .construct hn hb h⟩
  | .block hh ha hb hvs => by
    refine ((head_without hh).inside fun h => ⟨_, .block h ha hb hvs⟩).append ((block_without hvs).behind fun h => ?_)
    rw [append_assoc]
    exact ⟨_, .block hh ha hb h⟩
  | .function hh ha hv => by
    refine ((head_without hh).inside fun h => ⟨_, .function h ha hv⟩).append ((item_without hv).behind fun h => ?_)
    rw [append_assoc]
    exact ⟨_, .function hh ha h⟩
  | .array hb hvs => (items_without hvs (by decide)).behind fun h => ⟨_, .array hb h⟩
  | .ret _ => Each.nil
  | .retItem ht hv => (item_without hv).behind fun h => ⟨_, .retItem ht h⟩
  | .structDef hw hn hb hfs => (fieldDecls_without hfs).behind fun h => ⟨_, .structDef hw hn hb h⟩
  | .expr h => by
    intro s hs hneed
    obtain ⟨gs', h'⟩ := expr_without h s hs hneed
    rw [← ofExpr_without (expr_fronted h) ((expr_fits h).cuts s hs)]
    exact ⟨_, .expr h'⟩

theorem block_without {vs ts gs} : Block vs ts gs → Spares (Block vs) gs
  | .close _ => Each.nil
  | .item hv hgo hvs =>
    ((item_without hv).inside fun h => ⟨_, (Block.item h hgo hvs :)⟩).append
      ((block_without hvs).after (block_fits hvs).cuts hgo fun hgo h => ⟨_, .item hv hgo h⟩)

theorem fields_without {fs ts gs} : Fields fs ts gs → Spares (Fields fs) gs
  | .close _ _ => Each.nil
  | .field hcs hname hcolon hv hgo hfs => by
    refine ((item_without hv).inside fun h => ?_).append
      ((fields_without hfs).rest (fields_fit hfs).cuts hgo (fields_recomma hfs) fun hgo h => ?_)
    · rw [append_assoc]
      exact ⟨_, .field hcs hname hcolon h hgo hfs⟩
    · rw [append_assoc, append_assoc]
      exact ⟨_, .field hcs hname hcolon hv hgo h⟩

theorem items_without {close vs ts gs} : Items close vs ts gs → Closing close → Spares (Items close vs) gs
  | .close _ _, _ => Each.nil
  | .item hcs hv hgo hvs, hclose => by
    refine ((item_without hv).inside fun h => ⟨_, .item hcs h hgo hvs⟩).append
      ((items_without hvs hclose).rest (items_fit hvs hclose).cuts hgo (items_recomma hvs hclose) fun hgo h => ?_)
    rw [append_assoc]
    exact ⟨_, .item hcs hv hgo h⟩

theorem expr_without {v ts gs} : Expr v ts gs → Spares (Expr v) gs
  | .term h => fun s hs hneed => (term_without h s hs hneed).imp fun _ => .term
  | .sum hl hop hsign hr => by
    refine ((term_without hl).inside fun h => ⟨_, .sum h hop hsign hr⟩).append ((expr_without hr).behind fun h => ?_)
    rw [append_assoc]
    exact ⟨_, .sum hl hop hsign h⟩

theorem term_without {v ts gs} : Term v ts gs → Spares (Term v) gs
  | .factor h => fun s hs hneed => (factor_without h s hs hneed).imp fun _ => .factor
  | .product hl hop hsign hr => by
    refine ((factor_without hl).inside fun h => ⟨_, .product h hop hsign hr⟩).append ((term_without hr).behind fun h => ?_)
    rw [append_assoc]
    exact ⟨_, .product hl hop hsign h⟩

theorem factor_without {v ts gs} : Factor v ts gs → Spares (Factor v) gs
  | .primary h => fun s hs hneed => (primary_without h s hs hneed).imp fun _ => .primary
  | .call hv hp hvs => by
    refine ((factor_without hv).inside fun h => ⟨_, .call h hp hvs⟩).append
      ((items_without hvs (by decide)).behind fun h => ?_)
    rw [append_assoc]
    exact ⟨_, .call hv hp h⟩
  | .property hv hd hn => (factor_without hv).inside fun h => ⟨_, .property h hd hn⟩

theorem primary_without {v ts gs} : Primary v ts gs → Spares (Primary v) gs
  | .literal _ _ => Each.nil
  | .parens ho hv hc => (expr_without hv).inside fun h => ⟨_, .parens ho h hc⟩

end

theorem script_cuts (h : Script vs ts gs) : ∀ s ∈ gs, s.Cuts ts := by
  induction h with
  | nil => exact cuts_nil
  | item hv _ _ ih =>
    exact List.forall_mem_append.mpr ⟨cuts_within (item_fits hv).cuts rfl, cuts_within ih (by simp)⟩

theorem script_without (h : Script vs ts gs) : Spares (Script vs) gs := by
  induction h with
  | nil => exact Each.nil
  | item hv hgo hvs ih =>
    exact ((item_without hv).inside fun h => ⟨_, (Script.item h hgo hvs :)⟩).append
      (ih.after (script_cuts hvs) hgo fun hgo h => ⟨_, .item hv hgo h⟩)

end

end Lookahead

end Scriptlet

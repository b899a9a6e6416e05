/-
  Scriptlet.Proofs.Layout — where the blanks are does not matter.

  Lexemes may stand side by side, as in `a=f(1)`. With blanks between them they are read the same, because only
  quotations and blanks have blanks in them: what a rule matches beyond a lexeme has none (`no_blank_beyond`).

  (1) A text is written with lexemes and blanks (`Written`) if each lexeme ends where it does in this text. Its words are
      then those of the lexemes. Every text without error tokens is written in this way, and a comma of it can be
      replaced by a blank (`written_blanked`).
  (2) The parser does not look at the places of tokens. From lists with the same words it reads the same nodes, or fails
      with the same message where as many tokens are left (`agree_wholeList`).
  (3) So texts with the same lexemes give the same program, or fail at the same token (`layout_irrelevant`).
-/

import Scriptlet.Proofs.FrontEnd

namespace Scriptlet

variable {src : Text}

namespace Token

open Lexicon (Takes tokenOf Trace tokensOf Cursor)
open Pattern (isBlank)

variable {w u text tail : Text} {wd : Word} {ws : List Word} {b : UInt8}

/-! ## (1) Texts that are written with lexemes and blanks -/

structure Lexeme (w : Text) (wd : Word) : Prop where
  ne_nil : w ≠ []
  rule : ∃ r, lexicon.Takes r w ∧ ∀ k, (tokenOf r k w).token?.map word = some wd

variable {t : Token} {gap : Text}

/-- Words depend on the lexeme, not on the place. -/
theorem word_tokenOf {r : Rule} {n : Nat} (h : tokenOf r n w = .token t) (k : Nat) :
    (tokenOf r k w).token?.map word = some t.word := by
  unfold tokenOf at h ⊢
  cases hk : r.kind with
  | none =>
    rw [hk] at h
    cases h
  | some kind =>
    rw [hk] at h
    simp only at h ⊢
    split at h
    · cases h
      rfl
    · cases h
      rfl

theorem eq_token_of_token? {r : Rule} {n : Nat} (h : (tokenOf r n w).token? = some t) : tokenOf r n w = .token t := by
  cases hx : tokenOf r n w with
  | gap =>
    rw [hx] at h
    cases h
  | token u =>
    rw [hx] at h
    cases h
    rfl
  | unknown u => exact absurd hx (tokenOf_ne_unknown r n w u)

theorem lexeme_ne_nil (h : t ∈ tokenize src) : t.lexeme ≠ [] := by
  obtain ⟨xs, htrace⟩ := Lexicon.exists_trace lexicon (.start src)
  have hlaid := htrace.laid lexicon_dropsBlanks (Cursor.in_start src)
  rw [← htrace.tokens lexicon_isOpen] at hlaid
  obtain ⟨-, hlt, hle, hof⟩ := hlaid.mem h
  rw [← hof, Span.of]
  intro hnil
  have hlen := congrArg List.length hnil
  simp only [List.length_drop, List.length_take, List.length_nil] at hlen
  omega

/-- The lexemes of a text are read as its words. -/
theorem lexeme_of_mem (h : t ∈ tokenize src) (hk : t.kind ≠ .error) : Lexeme t.lexeme t.word := by
  obtain ⟨r, n, htakes, htoken⟩ := exists_takes h hk
  exact ⟨lexeme_ne_nil h, r, htakes, word_tokenOf htoken⟩

/-- No rule matches a lexeme together with a blank behind it. -/
theorem no_blank_beyond (h : Lexeme w wd) (hb : isBlank b = true) (hu : b ∈ u) : ¬ lexicon.Recognizes (w ++ u) := by
  rintro ⟨r', hr', hm'⟩
  obtain ⟨r, htakes, hword⟩ := h.rule
  have hmem := htakes.mem
  obtain ⟨_, _, _, hm, -⟩ := htakes
  obtain ⟨a, w, rfl⟩ := List.exists_cons_of_ne_nil h.ne_nil
  have hin : b ∈ a :: w ++ u := List.mem_append_right _ hu
  have clash {p : Prop} (hn : isBlank b = false) : p := absurd (hb.symm.trans hn) Bool.noConfusion
  rcases mem_lexicon.mp hr' with ⟨k, hk, rfl⟩ | rfl | rfl | rfl | rfl | rfl
  · have hname : a :: w ++ u = k.name := Pattern.matches_exactly.mp hm'
    exact clash ((fixed_bytes hk).2 b (hname ▸ hin)).2.1
  · -- a quotation ends with its quote
    obtain ⟨s, e, -⟩ := Pattern.matches_quotation.mp hm'
    obtain rfl : a = '"'.toUInt8 := (List.cons.inj e).1
    obtain rfl := rule_of_quote hmem hm
    obtain ⟨s', hs', -⟩ := Pattern.matches_quotation.mp hm
    obtain ⟨c, u, rfl⟩ := List.exists_cons_of_ne_nil (List.ne_nil_of_mem hu)
    rw [hs'] at hm'
    exact stops_quotation s' (c :: u) c u [] (by simp) ⟨_, hr', hm'⟩
  · exact clash (not_isBlank_of_number (number_bytes (.inl hm') b hin))
  · exact clash (not_isBlank_of_number (number_bytes (.inr hm') b hin))
  · exact absurd ((Pattern.matches_word.mp hm').2 b hin) (Pattern.not_isLetter_of_isBlank hb)
  · -- a lexeme that starts with a blank is no token
    have ha := (Pattern.matches_blanks.mp hm').2 a (by simp)
    obtain rfl := rule_of_blank ha hmem hm
    cases hword 0

theorem Lexeme.stops_blank (h : Lexeme w wd) (hb : isBlank b = true) (s : Text) : lexicon.Stops w (b :: s) := by
  intro b' v s' e
  cases e
  exact no_blank_beyond h hb List.mem_cons_self

/-- A lexeme still ends where it does if a byte further on becomes blank. -/
theorem Lexeme.stops_blanked {s : Text} {c : UInt8} (h : Lexeme w wd) (hb : isBlank b = true)
    (hs : lexicon.Stops w (text ++ c :: s)) : lexicon.Stops w (text ++ b :: s) := by
  intro b' v s' e
  rw [← List.cons_append] at e
  rcases List.append_eq_append_iff.mp e with ⟨m, hm, hrest⟩ | ⟨m, hm, hrest⟩
  · cases m with
    | nil =>
      rw [List.append_nil] at hm
      exact hs b' v (c :: s) (by rw [← List.cons_append, hm])
    | cons x m =>
      cases hrest
      exact no_blank_beyond h hb (by rw [hm]; simp)
  · exact hs b' v (m ++ c :: s) (by rw [hm]; simp)

inductive Written : Text → List Word → Prop
  | nil : Written [] []
  | blank {b : UInt8} {text : Text} {ws : List Word} : isBlank b = true → Written text ws → Written (b :: text) ws
  | lexeme {w text : Text} {wd : Word} {ws : List Word} : Lexeme w wd → lexicon.Stops w text → Written text ws →
      Written (w ++ text) (wd :: ws)

theorem Written.blanks (h : Written text ws) (hgap : ∀ b ∈ gap, isBlank b = true) : Written (gap ++ text) ws := by
  induction gap with
  | nil => exact h
  | cons b gap ih =>
    obtain ⟨hb, hgap⟩ := List.forall_mem_cons.mp hgap
    exact .blank hb (ih hgap)

theorem Lexeme.not_blank {s : Text} (h : Lexeme w wd) (hs : w ++ tail = b :: s) : isBlank b = false := by
  obtain ⟨r, htakes, hword⟩ := h.rule
  have hmem := htakes.mem
  obtain ⟨_, _, _, hm, -⟩ := htakes
  obtain ⟨a, w, rfl⟩ := List.exists_cons_of_ne_nil h.ne_nil
  cases hs
  by_contra hb
  obtain rfl := rule_of_blank (Bool.not_eq_false _ ▸ hb) hmem hm
  cases hword 0

theorem Lexeme.spells (h : Lexeme w wd) (hs : lexicon.Stops w tail) : Spells w tail [wd] := by
  obtain ⟨r, htakes, hword⟩ := h.rule
  have hmem := htakes.mem
  refine spells_lexeme h.ne_nil ?_ hs fun r' htakes' k => ?_
  · obtain ⟨_, _, _, hm, -⟩ := htakes
    exact ⟨r, hmem, hm⟩
  · rw [htakes'.unique htakes]
    have hk := hword k
    cases hx : (tokenOf r k w).token? with
    | none =>
      rw [hx] at hk
      cases hk
    | some t =>
      rw [hx] at hk
      simpa using hk

theorem spells_gap (hgap : ∀ b ∈ gap, isBlank b = true) (ht : ∀ b s, tail = b :: s → isBlank b = false) :
    Spells gap tail [] := by
  by_cases hne : gap = []
  · subst hne
    exact spells_nil tail
  · exact spells_blanks hne hgap ht

/-- What is written is read as its words. -/
theorem Written.spells (h : Written text ws) (hgap : ∀ b ∈ gap, isBlank b = true) :
    Spells (gap ++ text) [] ws := by
  induction h generalizing gap with
  | nil =>
    rw [List.append_nil]
    exact spells_gap hgap fun b s h => by cases h
  | @blank b text ws hb _ ih =>
    rw [List.append_cons]
    exact ih (List.forall_mem_append.mpr ⟨hgap, by simpa using hb⟩)
  | @lexeme w text wd ws hw hs _ ih =>
    have htext : Spells text [] ws := ih (List.forall_mem_nil _)
    have hlexeme : Spells (w ++ text) [] ([wd] ++ ws) := (hw.spells (by rwa [List.append_nil])).append htext
    exact (spells_gap hgap fun b s e => hw.not_blank (by rwa [List.append_nil] at e)).append hlexeme

theorem Written.words (h : Written text ws) : (tokenize text).map word = ws :=
  (h.spells (List.forall_mem_nil _)).tokenize

/-- What was read at a cursor of a text without errors: blanks, or a lexeme that ends where no rule matches more. -/
theorem read_cases {c c' : Cursor} {x : Lexicon.Next} (h : Lexicon.Stands lexicon c x c')
    (hx : ∀ t, x.token? = some t → t.kind ≠ .error) :
    ∃ w, c.rest = w ++ c'.rest ∧ c'.offset = c.offset + w.length ∧ (x.token? = none ∧ (∀ b ∈ w, isBlank b = true) ∨
      ∃ t, x.token? = some t ∧ t.span.first = c.offset ∧ Lexeme w t.word ∧ lexicon.Stops w c'.rest) := by
  cases h with
  | unknown => exact absurd rfl (hx _ rfl)
  | @matched n r hbest =>
    obtain ⟨hpos, hle, htakes, hlong⟩ := hbest
    have hlen : (c.rest.take n).length = n := List.length_take_of_le hle
    refine ⟨c.rest.take n, (List.take_append_drop n c.rest).symm, by rw [hlen]; rfl, ?_⟩
    cases ht : (tokenOf r c.offset (c.rest.take n)).token? with
    | none =>
      obtain ⟨_, _, _, hm, -⟩ := id htakes
      exact .inl ⟨rfl, hm.over (lexicon_dropsBlanks r htakes.mem (Lexicon.tokenOf_gap ht))⟩
    | some t =>
      obtain ⟨-, hspan⟩ := Lexicon.tokenOf_token ht
      refine .inr ⟨t, rfl, by rw [hspan], ⟨?_, r, htakes, ?_⟩, ?_⟩
      · intro hnil
        rw [hnil] at hlen
        simp only [List.length_nil] at hlen
        omega
      · exact word_tokenOf (eq_token_of_token? ht)
      · intro b v s e hrec
        refine hlong (n + (v.length + 1)) (by omega) ?_ ?_
        · have hrest : c.rest.drop n = b :: (v ++ s) := e
          have htotal := congrArg List.length hrest
          simp only [List.length_drop, List.length_cons, List.length_append] at htotal
          omega
        · have hrest : c.rest.drop n = (b :: v) ++ s := e
          have htake : c.rest.take (n + (v.length + 1)) = c.rest.take n ++ b :: v := by
            rw [List.take_add, hrest]
            exact congrArg _ (List.take_left' List.length_cons)
          rw [htake]
          exact hrec

variable {c : Cursor} {xs : List (Cursor × Lexicon.Next)}

/-- A text without errors is written with its lexemes. -/
theorem written_of_trace (h : Trace lexicon c xs) (herror : ∀ t ∈ tokensOf xs, t.kind ≠ .error) :
    Written c.rest ((tokensOf xs).map word) := by
  induction h with
  | done hrest =>
    rw [hrest]
    exact .nil
  | @read c c' x xs hne hnext _ ih =>
    have hstands := Lexicon.next_stands lexicon hne
    rw [hnext] at hstands
    obtain ⟨w, hrest, -, ⟨hgap, hblank⟩ | ⟨t, ht, -, hlexeme, hstops⟩⟩ :=
      read_cases hstands fun t ht => herror t (List.mem_filterMap.mpr ⟨_, List.mem_cons_self, ht⟩)
    · have htokens : tokensOf ((c, x) :: xs) = tokensOf xs := List.filterMap_cons_none hgap
      rw [htokens] at herror ⊢
      rw [hrest]
      exact (ih herror).blanks hblank
    · have htokens : tokensOf ((c, x) :: xs) = t :: tokensOf xs := List.filterMap_cons_some ht
      rw [htokens] at herror ⊢
      rw [hrest]
      exact .lexeme hlexeme hstops (ih (List.forall_mem_cons.mp herror).2)

/-- The lexeme of a comma. -/
theorem lexeme_comma (h : Lexeme w wd) (hk : wd.kind = .comma) : w = [','.toUInt8] := by
  obtain ⟨r, htakes, hword⟩ := h.rule
  have hmem := htakes.mem
  obtain ⟨_, _, _, hm, -⟩ := htakes
  obtain ⟨t, ht, rfl⟩ := Option.map_eq_some_iff.mp (hword 0)
  have htk : t.kind = .comma := hk
  have hkind : r.kind = some .comma := by
    rw [← htk]
    exact (kind_of_tokenOf (eq_token_of_token? ht)).resolve_left (by simp [htk])
  rcases mem_lexicon.mp hmem with ⟨k, -, rfl⟩ | rfl | rfl | rfl | rfl | rfl
  · cases hkind
    exact Pattern.matches_exactly.mp hm
  all_goals cases hkind

/-- A comma of a text without errors can be replaced by a blank: the other words stay. -/
theorem written_blanked (h : Trace lexicon c xs) (herror : ∀ t ∈ tokensOf xs, t.kind ≠ .error)
    {before behind : List Token} (hsplit : tokensOf xs = before ++ t :: behind) (ht : t.kind = .comma) :
    ∃ pre post, c.rest = pre ++ ','.toUInt8 :: post ∧ t.span.first = c.offset + pre.length ∧
      ∀ b, isBlank b = true → Written (pre ++ b :: post) ((before ++ behind).map word) := by
  induction h generalizing before with
  | done => simp [tokensOf] at hsplit
  | @read c c' x xs hne hnext htrace ih =>
    have hstands := Lexicon.next_stands lexicon hne
    rw [hnext] at hstands
    obtain ⟨w, hrest, hoffset, ⟨hgap, hblank⟩ | ⟨u, hu, hspan, hlexeme, hstops⟩⟩ :=
      read_cases hstands fun t ht => herror t (List.mem_filterMap.mpr ⟨_, List.mem_cons_self, ht⟩)
    · have htokens : tokensOf ((c, x) :: xs) = tokensOf xs := List.filterMap_cons_none hgap
      rw [htokens] at herror hsplit
      obtain ⟨pre, post, hpre, hfirst, hwritten⟩ := ih herror hsplit
      refine ⟨w ++ pre, post, by rw [hrest, hpre, List.append_assoc], ?_, fun b hb => ?_⟩
      · rw [hfirst, hoffset, List.length_append, Nat.add_assoc]
      · rw [List.append_assoc]
        exact (hwritten b hb).blanks hblank
    · have htokens : tokensOf ((c, x) :: xs) = u :: tokensOf xs := List.filterMap_cons_some hu
      rw [htokens] at herror hsplit
      have hlater := (List.forall_mem_cons.mp herror).2
      cases before with
      | nil =>
        -- this is the comma
        cases hsplit
        rw [lexeme_comma hlexeme ht] at hrest
        refine ⟨[], c'.rest, hrest, by simpa using hspan, fun b hb => ?_⟩
        exact .blank hb (written_of_trace htrace hlater)
      | cons u' before =>
        obtain ⟨rfl, hsplit'⟩ := List.cons.inj hsplit
        obtain ⟨pre, post, hpre, hfirst, hwritten⟩ := ih hlater hsplit'
        rw [hpre] at hstops hrest
        refine ⟨w ++ pre, post, by rw [hrest, List.append_assoc], ?_, fun b hb => ?_⟩
        · rw [hfirst, hoffset, List.length_append, Nat.add_assoc]
        · rw [List.append_assoc]
          exact .lexeme hlexeme (hlexeme.stops_blanked hb hstops) (hwritten b hb)

end Token

open Token (tokenize word)

namespace Parse

/-! ## (2) The parser does not look at places -/

def SameWord (t u : Token) : Prop := t.word = u.word

theorem unseen_word : Unseen SameWord := ⟨congrArg Word.kind, congrArg Word.lexeme, congrArg Word.meaning⟩

section

variable {ts us : List Token} {α : Type}

theorem same_of_words (h : ts.map word = us.map word) : Same SameWord ts us := by
  rw [← List.forall₂_eq_eq_eq, List.forall₂_map_left_iff, List.forall₂_map_right_iff] at h
  exact h

theorem message_of_same {f g : SyntaxFault} (h : SameFault SameWord f g) : f.message = g.message := by
  have describe {t u : Token} (ht : SameWord t u) : SyntaxFault.describe t = SyntaxFault.describe u := by
    rw [SyntaxFault.describe, SyntaxFault.describe, unseen_word.kind ht, unseen_word.lexeme ht]
  cases h with
  | refl => rfl
  | unexpected ht => rw [SyntaxFault.message, SyntaxFault.message, describe ht]
  | expected k ht => rw [SyntaxFault.message, SyntaxFault.message, describe ht]

/-- The same is read, or there are faults with the same message where the words that are left are the same. -/
def Agree : Reading α → Reading α → Prop
  | .ok a, .ok b => a = b
  | .error f, .error g => f.fault.message = g.fault.message ∧ Same SameWord f.rest g.rest
  | _, _ => False

theorem Tallies.agree {x y : Reading α} (h : Tallies SameWord Eq x y) (hdeep : ∀ f, x = .error f → f.fault ≠ .tooDeep) :
    Agree x y := by
  cases x with
  | ok a =>
    obtain ⟨b, rfl, hab⟩ := h
    exact hab
  | error f =>
    obtain ⟨g, rfl, hfault, hrest⟩ := h.resolve_left (hdeep f rfl)
    exact ⟨message_of_same hfault, hrest⟩

theorem agree_wholeList (h : Same SameWord ts us) : Agree (wholeList ts) (wholeList us) := by
  have hclean := unseen_word.dropWhile h (· ≠ .error)
  unfold wholeList
  generalize ts.dropWhile (fun t => t.kind ≠ .error) = rs at hclean
  generalize us.dropWhile (fun t => t.kind ≠ .error) = ss at hclean
  cases hclean with
  | nil =>
    dsimp only
    rw [← h.length_eq]
    exact (program_tallies unseen_word (Nat.le_refl _) h).agree fun f => program_ne_tooDeep (Nat.le_refl _)
  | cons ht hrest =>
    exact ⟨by rw [SyntaxFault.message, SyntaxFault.message, unseen_word.lexeme ht], .cons ht hrest⟩

end

/-! ## (3) Programs -/

/-- The span of the token with this index, or the end of the text. -/
def spanAt (src : Text) (i : Nat) : Span :=
  match (tokenize src)[i]? with
  | some t => t.span
  | none => ⟨src.length, src.length⟩

/-- A syntax error is at the first token that is left. -/
theorem span_ofFailure {f : Failure} (h : f.rest <:+ tokenize src) :
    (SyntaxError.ofFailure src (tokenize src) f).span =
      spanAt src ((tokenize src).length - f.rest.length) := by
  have hdrop := List.suffix_iff_eq_drop.mp h
  have hget : (tokenize src)[(tokenize src).length - f.rest.length]? = f.rest.head? := by
    rw [← List.head?_drop, ← hdrop]
  unfold spanAt SyntaxError.ofFailure
  rw [hget]
  cases f.rest with
  | nil => rfl
  | cons t rest => rfl

end Parse

structure Layout (lexemes : List Text) where
  lead : Text
  /-- Each lexeme with the blanks behind it. -/
  parts : List (Text × Text)
  lexemes_eq : parts.map Prod.fst = lexemes
  lead_blank : ∀ b ∈ lead, Pattern.isBlank b = true
  gaps_blank : ∀ p ∈ parts, ∀ b ∈ p.2, Pattern.isBlank b = true
  /-- Only the last lexeme may have no blanks behind it. -/
  apart : ∀ p ∈ parts.dropLast, p.2 ≠ []

def Layout.text {lexemes : List Text} (l : Layout lexemes) : Text := l.lead ++ l.parts.flatMap fun p => p.1 ++ p.2

namespace Token

theorem written_parts {ts : List Token} {parts : List (Text × Text)} (hlexeme : ∀ t ∈ ts, Lexeme t.lexeme t.word)
    (he : parts.map Prod.fst = ts.map lexeme) (hgaps : ∀ p ∈ parts, ∀ b ∈ p.2, Pattern.isBlank b = true)
    (hapart : ∀ p ∈ parts.dropLast, p.2 ≠ []) : Written (parts.flatMap fun p => p.1 ++ p.2) (ts.map word) := by
  induction ts generalizing parts with
  | nil =>
    rw [List.map_eq_nil_iff.mp he]
    exact .nil
  | cons t ts ih =>
    obtain ⟨p, parts, rfl, hp, he⟩ := List.map_eq_cons_iff.mp he
    obtain ⟨ht, hts⟩ := List.forall_mem_cons.mp hlexeme
    obtain ⟨hgap, hgaps⟩ := List.forall_mem_cons.mp hgaps
    have hrest : ∀ q ∈ parts.dropLast, q.2 ≠ [] := by
      cases parts with
      | nil => exact List.forall_mem_nil _
      | cons q parts => exact (List.forall_mem_cons.mp hapart).2
    have hwritten := (ih hts he hgaps hrest).blanks hgap
    rw [List.flatMap_cons, List.append_assoc, hp]
    refine .lexeme ht ?_ hwritten
    -- behind the lexeme is a blank or the end of the text
    cases hblank : p.2 with
    | nil =>
      cases parts with
      | nil =>
        intro b v s e
        cases e
      | cons q parts => exact absurd hblank (hapart p (by simp))
    | cons b gap =>
      rw [hblank] at hgap
      exact ht.stops_blank (hgap b List.mem_cons_self) _

end Token

namespace Parse

/-- A text without error tokens, and any text with the same lexemes in the same order and with blanks between
    them, have tokens with the same kinds, lexemes and values. They are the same program, or both have a syntax error with
    the same message at the token with the same index. -/
theorem layout_irrelevant (src : Text) (h : ∀ t ∈ Token.tokenize src, t.kind ≠ .error)
    (l : Layout ((Token.tokenize src).map Token.lexeme)) :
    (Token.tokenize l.text).map Token.word = (Token.tokenize src).map Token.word ∧
      ((∃ ns, source src = .ok ns ∧ source l.text = .ok ns) ∨
        ∃ e e' i, source src = .error e ∧ source l.text = .error e' ∧ e'.fault.message = e.fault.message ∧
          i ≤ (Token.tokenize src).length ∧ e.span = spanAt src i ∧ e'.span = spanAt l.text i) := by
  have hwords : (tokenize l.text).map word = (tokenize src).map word := by
    have hparts := Token.written_parts (fun t ht => Token.lexeme_of_mem ht (h t ht)) l.lexemes_eq l.gaps_blank l.apart
    exact (hparts.blanks l.lead_blank).words
  refine ⟨hwords, ?_⟩
  have hagree := agree_wholeList (same_of_words hwords)
  have hlength := (same_of_words hwords).length_eq
  unfold source tokens
  cases hsrc : wholeList (tokenize src) with
  | ok ns =>
    cases htext : wholeList (tokenize l.text) with
    | ok ms =>
      rw [hsrc, htext] at hagree
      obtain rfl : ms = ns := hagree
      exact .inl ⟨ms, rfl, rfl⟩
    | error g =>
      rw [hsrc, htext] at hagree
      exact hagree.elim
  | error f =>
    cases htext : wholeList (tokenize l.text) with
    | ok ms =>
      rw [hsrc, htext] at hagree
      exact hagree.elim
    | error g =>
      rw [hsrc, htext] at hagree
      obtain ⟨hmessage, hrest⟩ := hagree
      refine .inr ⟨_, _, (tokenize src).length - f.rest.length, rfl, rfl, hmessage, Nat.sub_le _ _,
        span_ofFailure (wholeList_faulty hsrc).place, ?_⟩
      rw [← hlength, ← hrest.length_eq]
      exact span_ofFailure (wholeList_faulty htext).place

/-- Lexemes side by side, among them `-1` and a string with a blank. -/
def dense : Text := "f=x=>x.y(-1,\"a b\")"

def airy : Layout ((tokenize dense).map Token.lexeme) where
  lead := "\n"
  parts := [("f", " "), ("=", "\t"), ("x", "\r\n"), ("=>", " "), ("x", " "), (".", " "), ("y", "  "), ("(", " "),
    ("-1", "\n"), (",", " "), ("\"a b\"", "\n\n"), (")", "")]
  lexemes_eq := by decide +kernel
  lead_blank := by decide +kernel
  gaps_blank := by decide +kernel
  apart := by decide +kernel

theorem layout_irrelevant_airy :
    (∀ t ∈ Token.tokenize dense, t.kind ≠ .error) ∧
      (Token.tokenize airy.text).map Token.word = (Token.tokenize dense).map Token.word ∧
      ((∃ ns, source dense = .ok ns ∧ source airy.text = .ok ns) ∨
        ∃ e e' i, source dense = .error e ∧ source airy.text = .error e' ∧ e'.fault.message = e.fault.message ∧
          i ≤ (Token.tokenize dense).length ∧ e.span = spanAt dense i ∧ e'.span = spanAt airy.text i) := by
  have hclean : ∀ t ∈ tokenize dense, t.kind ≠ .error := by decide +kernel
  exact ⟨hclean, layout_irrelevant dense hclean airy⟩

end Parse

end Scriptlet

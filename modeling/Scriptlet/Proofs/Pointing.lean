/-
  Scriptlet.Proofs.Pointing — syntax errors point into the source.

  A syntax error has a span, that of the offending token or the end of the source, and a window, the
  source around that place.

  (1) The spans of the tokens are in order (`Laid.spans_le`), so a span tells which token it is of
      (`spanAt_inj`), and the span from one token to a later one covers those between them.
  (2) What a span covers can be cut at every place within it (`of_cut`).
  (3) Every failure of the parser is at a token of the list or at its end, and an error token is found
      before anything is parsed, so the window is the source from the start of one token to the end
      of another, with the offending token in it (`error_points_into_source`).
-/

import Scriptlet.Proofs.Layout

namespace Scriptlet

open Token (tokenize)

/-! ## (1) Tokens in order -/

namespace Lexicon

variable {source : Text} {i j k : Nat} {ts : List Token} {t u : Token}

theorem Laid.spans_le (h : Laid source i ts) (hjk : j ≤ k) (ht : ts[j]? = some t) (hu : ts[k]? = some u) :
    t.span.first ≤ u.span.first ∧ t.span.last ≤ u.span.last := by
  rcases Nat.eq_or_lt_of_le hjk with rfl | hlt
  · cases ht.symm.trans hu
    exact ⟨Nat.le_refl _, Nat.le_refl _⟩
  · obtain ⟨hj, rfl⟩ := List.getElem?_eq_some_iff.mp ht
    obtain ⟨hk, rfl⟩ := List.getElem?_eq_some_iff.mp hu
    have hapart := List.pairwise_iff_getElem.mp h.ascending j k hj hk hlt
    have hfirst := (h.mem (List.getElem_mem hj)).2.1
    have hlast := (h.mem (List.getElem_mem hk)).2.1
    omega

end Lexicon

namespace Token

theorem laid_tokenize (src : Text) : Lexicon.Laid src 0 (tokenize src) := by
  obtain ⟨xs, htrace⟩ := Lexicon.exists_trace lexicon (.start src)
  have hlaid := htrace.laid lexicon_dropsBlanks (Lexicon.Cursor.in_start src)
  rwa [← htrace.tokens lexicon_isOpen] at hlaid

end Token

/-! ## (2) Spans -/

namespace Span

variable {src : Text} {a b c : Nat}

theorem of_all (src : Text) : (⟨0, src.length⟩ : Span).of src = src := by simp [of]

theorem length_of (hb : b ≤ src.length) : ((⟨a, b⟩ : Span).of src).length = b - a := by
  simp [of, Nat.min_eq_left hb]

theorem of_cut (hac : a ≤ c) (hcb : c ≤ b) :
    (⟨a, b⟩ : Span).of src = (⟨a, c⟩ : Span).of src ++ (⟨c, b⟩ : Span).of src := by
  have hlength : b - a = (c - a) + (b - c) := by omega
  simp only [of, List.drop_take, hlength, List.take_add, List.drop_drop, Nat.add_sub_cancel' hac]

end Span

namespace Parse

variable {src : Text} {p q : Nat}

theorem spanAt_lt (hpq : p < q) (hq : q ≤ (tokenize src).length) :
    (spanAt src p).first < (spanAt src q).first := by
  have hlaid := Token.laid_tokenize src
  have hp : p < (tokenize src).length := Nat.lt_of_lt_of_le hpq hq
  obtain ⟨-, hne, hle, -⟩ := hlaid.mem (List.getElem_mem hp)
  unfold spanAt
  rw [List.getElem?_eq_getElem hp]
  rcases Nat.eq_or_lt_of_le hq with rfl | hq
  · rw [List.getElem?_eq_none (Nat.le_refl _)]
    exact Nat.lt_of_lt_of_le hne hle
  · rw [List.getElem?_eq_getElem hq]
    have hapart := List.pairwise_iff_getElem.mp hlaid.ascending p q hp hq hpq
    exact Nat.lt_of_lt_of_le hne hapart

/-- A span tells which token it is of. -/
theorem spanAt_inj (hp : p ≤ (tokenize src).length) (hq : q ≤ (tokenize src).length)
    (h : spanAt src p = spanAt src q) : p = q := by
  have hfirst := congrArg Span.first h
  rcases Nat.lt_trichotomy p q with hlt | heq | hlt
  · exact absurd hfirst (Nat.ne_of_lt (spanAt_lt hlt hq))
  · exact heq
  · exact absurd hfirst.symm (Nat.ne_of_lt (spanAt_lt hlt hp))

/-! ## (3) Errors -/

/-- The text `w` is the piece of a source from the start of the token three places before `p`, or of the first token, to
    the end of the token three places behind, or of the last one. -/
def Around (src : Text) (p : Nat) (w : Text) : Prop :=
  ∃ a b before after, (tokenize src)[p - 3]? = some a ∧
    (tokenize src)[min ((tokenize src).length - 1) (p + 3)]? = some b ∧
    src = before ++ w ++ after ∧ before.length = a.span.first ∧ before.length + w.length = b.span.last

/-- The window goes from the start of one token to the end of another, and covers those between them. -/
theorem windowAt_eq {a b : Token} (hp : p ≤ (tokenize src).length) (ha : (tokenize src)[p - 3]? = some a)
    (hb : (tokenize src)[min ((tokenize src).length - 1) (p + 3)]? = some b) :
    SyntaxError.windowAt src (tokenize src) p = (⟨a.span.first, b.span.last⟩ : Span).of src := by
  have hlow : min (p - 3) ((tokenize src).length - 1) = p - 3 := by omega
  obtain ⟨hfirst, hlast⟩ := (Token.laid_tokenize src).spans_le (by omega) ha hb
  unfold SyntaxError.windowAt SyntaxError.windowSize
  simp only [hlow, ha, Nat.min_comm (p + 3), hb, Span.extend, Nat.min_eq_left hfirst, Nat.max_eq_right hlast]

theorem windowAt_around (hne : tokenize src ≠ []) (hp : p ≤ (tokenize src).length) :
    Around src p (SyntaxError.windowAt src (tokenize src) p) ∧
      (∀ t, (tokenize src)[p]? = some t → t.lexeme <:+: SyntaxError.windowAt src (tokenize src) p) ∧
      SyntaxError.windowAt src (tokenize src) p ≠ [] := by
  have hlaid := Token.laid_tokenize src
  have hlength : 0 < (tokenize src).length := List.length_pos_iff.mpr hne
  obtain ⟨a, ha⟩ : ∃ a, (tokenize src)[p - 3]? = some a := ⟨_, List.getElem?_eq_getElem (by omega)⟩
  obtain ⟨b, hb⟩ : ∃ b, (tokenize src)[min ((tokenize src).length - 1) (p + 3)]? = some b :=
    ⟨_, List.getElem?_eq_getElem (by omega)⟩
  have hwithin : a.span.first < b.span.last := by
    have hle := (hlaid.spans_le (by omega) ha hb).1
    have hlt := (hlaid.mem (List.mem_of_getElem? hb)).2.1
    omega
  have hend : b.span.last ≤ src.length := (hlaid.mem (List.mem_of_getElem? hb)).2.2.1
  rw [windowAt_eq hp ha hb]
  refine ⟨⟨a, b, (⟨0, a.span.first⟩ : Span).of src, (⟨b.span.last, src.length⟩ : Span).of src, ha, hb, ?_, ?_, ?_⟩, ?_, ?_⟩
  · rw [← Span.of_cut (Nat.zero_le _) (Nat.le_of_lt hwithin), ← Span.of_cut (Nat.zero_le _) hend, Span.of_all]
  · rw [Span.length_of (by omega), Nat.sub_zero]
  · rw [Span.length_of (by omega), Span.length_of hend]
    omega
  · intro t ht
    obtain ⟨-, hlt, -, hof⟩ := hlaid.mem (List.mem_of_getElem? ht)
    -- the token stands between the two that the window is cut at
    have hfirst := (hlaid.spans_le (Nat.sub_le p 3) ha ht).1
    have hlast := (hlaid.spans_le (by have := (List.getElem?_eq_some_iff.mp ht).1; omega) ht hb).2
    refine ⟨(⟨a.span.first, t.span.first⟩ : Span).of src, (⟨t.span.last, b.span.last⟩ : Span).of src, ?_⟩
    have hlexeme : (⟨t.span.first, t.span.last⟩ : Span).of src = t.lexeme := hof
    rw [← hlexeme, ← Span.of_cut hfirst (Nat.le_of_lt hlt), ← Span.of_cut (by omega) hlast]
  · intro hnil
    have hzero := Span.length_of (a := a.span.first) hend
    rw [hnil] at hzero
    simp only [List.length_nil] at hzero
    omega

/-- The first error token of a list is where it fails. -/
theorem rest_of_wholeList {before after : List Token} {t : Token} {f : Failure} (ht : t.kind = .error)
    (hbefore : ∀ u ∈ before, u.kind ≠ .error) (h : wholeList (before ++ t :: after) = .error f) : f.rest = t :: after := by
  have hdrop : (before ++ t :: after).dropWhile (fun u => u.kind ≠ .error) = t :: after := by
    rw [List.dropWhile_append_of_pos (by simpa using hbefore), List.dropWhile_cons_of_neg (by simp [ht])]
  unfold wholeList at h
  rw [hdrop] at h
  cases h
  rfl

/-- A source that has a syntax error has it at its first error token, and if there is none at one of its tokens or at
    its end; the span tells at which. The window is the source from the start of the token three places before that place,
    or of the first token, to the end of the token three places behind it, or of the last one. It has the text of
    the offending token in it, and is never empty. -/
theorem error_points_into_source {src : Text} {e : SyntaxError} (h : source src = .error e) :
    ∃ p ≤ (Token.tokenize src).length, e.span = spanAt src p ∧
      (∀ q ≤ (Token.tokenize src).length, e.span = spanAt src q → q = p) ∧
      (∀ before t after, Token.tokenize src = before ++ t :: after → t.kind = .error →
        (∀ u ∈ before, u.kind ≠ .error) → p = before.length) ∧
      Around src p e.window ∧ (∀ t, (Token.tokenize src)[p]? = some t → t.lexeme <:+: e.window) ∧ e.window ≠ [] := by
  unfold source tokens at h
  cases hf : wholeList (tokenize src) with
  | ok ns =>
    rw [hf] at h
    cases h
  | error f =>
    rw [hf] at h
    cases h
    have hne : tokenize src ≠ [] := by
      intro hnil
      rw [hnil] at hf
      cases hf
    have hp : (tokenize src).length - f.rest.length ≤ (tokenize src).length := Nat.sub_le _ _
    have hspan := span_ofFailure (wholeList_faulty hf).place
    refine ⟨_, hp, hspan, fun q hq he => (spanAt_inj hp hq (hspan.symm.trans he)).symm, ?_, windowAt_around hne hp⟩
    intro before t after hsplit ht hbefore
    rw [hsplit] at hf ⊢
    rw [rest_of_wholeList ht hbefore hf, List.length_append, Nat.add_sub_cancel]

def unmarked : Text := "a = Ball \x7b x 1 \x7d b = 2 c"

theorem error_points_into_source_unmarked :
    ∃ e, source unmarked = .error e ∧ e.span = ⟨13, 14⟩ ∧ e.window = "Ball \x7b x 1 \x7d b =" ∧
      Around unmarked 5 e.window ∧ ("1" : Text) <:+: e.window := by
  obtain ⟨e, he, hspan, hwindow⟩ : ∃ e, source unmarked = .error e ∧ e.span = ⟨13, 14⟩ ∧
      e.window = "Ball \x7b x 1 \x7d b =" := ⟨_, rfl, rfl, by decide +kernel⟩
  have hat : spanAt unmarked 5 = ⟨13, 14⟩ := by decide +kernel
  have hlength : (tokenize unmarked).length = 11 := by decide +kernel
  have htext : (tokenize unmarked)[5]?.map Token.lexeme = some "1" := by decide +kernel
  obtain ⟨t, ht, hone⟩ := Option.map_eq_some_iff.mp htext
  obtain ⟨p, -, -, hplace, -, haround, hlexeme, -⟩ := error_points_into_source he
  obtain rfl : 5 = p := hplace 5 (by rw [hlength]; decide) (hspan.trans hat.symm)
  exact ⟨e, he, hspan, hwindow, haround, hone ▸ hlexeme t ht⟩

end Parse

end Scriptlet

/-
  Scriptlet.Proofs.Munching — where tokens start and end.

  The scanner reads byte by byte and keeps, for each rule that may still match, what is left of its
  pattern. `Best` says without derivatives what it is after: the longest match, and the first rule
  that has it.

  (1) The scanner finds the longest match, and reads at least one byte and none behind the text
      (`munch_best_longest`, `munch_reach`).
  (2) Reading on at every position where something was read comes to the end of the source, and
      `Lexicon.tokens` are the tokens met on the way (`Trace.tokens`): its budgets are never used up.
  (3) The tokens and the gaps between them make up the source (`Laid`), so if only blanks are
      dropped, all other bytes are in the span of a token (`tokenize_lossless`).
-/

import Scriptlet.Proofs.Lexing

namespace Scriptlet

namespace Pattern

def behind (p : Pattern) (t : Text) : Pattern := t.foldl (fun q b => q.after b) p

theorem behind_snoc (p : Pattern) (t : Text) (b : UInt8) : p.behind (t ++ [b]) = (p.behind t).after b := by
  simp [behind]

variable {p : Pattern}

theorem matches_behind {s t : Text} : Matches (p.behind s) t ↔ Matches p (s ++ t) := by
  induction s generalizing p with
  | nil => rfl
  | cons b s ih =>
    rw [List.cons_append, ← matches_after]
    exact ih

theorem isNone_after (h : p.isNone = true) (b : UInt8) : (p.after b).isNone = true := by
  cases p with
  | none => rfl
  | _ => cases h

theorem not_matches_of_isNone (h : p.isNone = true) (t : Text) : ¬ Matches p t := by
  cases p with
  | none => exact not_matches_none
  | _ => cases h

end Pattern

namespace Lexicon

variable {lex : Lexicon} {r : Rule} {t : Text} {c c' : Cursor}

/-! ## (1) The longest match -/

def Recognizes (lex : Lexicon) (w : Text) : Prop := ∃ r ∈ lex, r.pattern.Matches w

/-- The rule is the first of the table that matches the text. -/
def Takes (lex : Lexicon) (r : Rule) (w : Text) : Prop :=
  ∃ before after, lex = before ++ r :: after ∧ r.pattern.Matches w ∧ ∀ s ∈ before, ¬ s.pattern.Matches w

/-- The length of the longest match among the first `k` bytes, with the first rule that has it. -/
def Best (lex : Lexicon) (t : Text) (k : Nat) : Option (Nat × Rule) → Prop
  | none => ∀ j, 0 < j → j ≤ k → ¬ lex.Recognizes (t.take j)
  | some (n, r) => 0 < n ∧ n ≤ k ∧ lex.Takes r (t.take n) ∧ ∀ j, n < j → j ≤ k → ¬ lex.Recognizes (t.take j)

/-- The rules that may still match behind a text, with what they have left to match. -/
def hopes (lex : Lexicon) (seen : Text) : List (Rule × Pattern) :=
  (lex.map fun r => (r, r.pattern.behind seen)).filter fun x => !x.2.isNone

theorem advance_all (lex : Lexicon) (b : UInt8) : advance b (lex.map fun r => (r, r.pattern)) = lex.hopes [b] := by
  simp only [advance, hopes, List.map_map]
  rfl

theorem advance_hopes (lex : Lexicon) (seen : Text) (b : UInt8) :
    advance b (lex.hopes seen) = lex.hopes (seen ++ [b]) := by
  induction lex with
  | nil => rfl
  | cons r lex ih =>
    simp only [advance, hopes, List.map_cons, List.filter_cons, Pattern.behind_snoc] at ih ⊢
    by_cases h : (r.pattern.behind seen).isNone = true
    · -- a rule without hope stays without it
      simpa [h, Pattern.isNone_after h] using ih
    · simp only [h, Bool.not_false, if_true, List.map_cons, List.filter_cons]
      rw [ih]

theorem not_recognizes_of_hopeless {w : Text} (h : lex.hopes w = []) (s : Text) : ¬ lex.Recognizes (w ++ s) := by
  rintro ⟨r, hr, hm⟩
  have hnone := List.filter_eq_nil_iff.mp h (r, r.pattern.behind w) (List.mem_map_of_mem hr)
  simp only [Bool.not_eq_true', Bool.not_eq_false] at hnone
  exact Pattern.not_matches_of_isNone hnone s (Pattern.matches_behind.mpr hm)

/-- The first rule that has nothing left to match is the first that matches. -/
theorem find?_hopes (lex : Lexicon) (w : Text) :
    match (lex.hopes w).find? fun x => x.2.isNullable with
    | some x => lex.Takes x.1 w
    | none => ¬ lex.Recognizes w := by
  have nullable (r : Rule) : (r.pattern.behind w).isNullable = true ↔ r.pattern.Matches w := by
    rw [Pattern.isNullable_iff, Pattern.matches_behind, List.append_nil]
  induction lex with
  | nil =>
    rintro ⟨r, hr, -⟩
    cases hr
  | cons r lex ih =>
    by_cases hm : r.pattern.Matches w
    · have hnull := (nullable r).mpr hm
      have hsome : (r.pattern.behind w).isNone = false := by
        cases hp : r.pattern.behind w with
        | none =>
          rw [hp] at hnull
          cases hnull
        | _ => rfl
      have hfind : (hopes (r :: lex) w).find? (fun x => x.2.isNullable) = some (r, r.pattern.behind w) := by
        simp [hopes, hsome, hnull]
      rw [hfind]
      exact ⟨[], lex, rfl, hm, by simp⟩
    · have hnull : (r.pattern.behind w).isNullable = false := by
        simpa using mt (nullable r).mp hm
      have hfind : (hopes (r :: lex) w).find? (fun x => x.2.isNullable) = (hopes lex w).find? fun x => x.2.isNullable := by
        unfold hopes
        rw [List.map_cons, List.filter_cons]
        split
        · rw [List.find?_cons_of_neg (by simp [hnull])]
        · rfl
      rw [hfind]
      cases hx : (hopes lex w).find? fun x => x.2.isNullable with
      | some x =>
        rw [hx] at ih
        obtain ⟨before, after, hl, hx, hb⟩ := ih
        refine ⟨r :: before, after, by rw [hl]; rfl, hx, fun s hs => ?_⟩
        rcases List.mem_cons.mp hs with rfl | hs
        · exact hm
        · exact hb s hs
      | none =>
        rw [hx] at ih
        rintro ⟨s, hs, hsm⟩
        rcases List.mem_cons.mp hs with rfl | hs
        · exact hm hsm
        · exact ih ⟨s, hs, hsm⟩

variable {best : Option (Nat × Rule)} {x : Next} {xs : List (Cursor × Next)} {source : Text} {n : Nat}

/-- Where no longer text is matched, the best match stays the best. -/
theorem Best.extend {k l : Nat} (h : lex.Best t k best) (hk : k ≤ l)
    (hno : ∀ j, k < j → j ≤ l → ¬ lex.Recognizes (t.take j)) : lex.Best t l best := by
  have beyond {n : Nat} (hn : ∀ j, n < j → j ≤ k → ¬ lex.Recognizes (t.take j)) :
      ∀ j, n < j → j ≤ l → ¬ lex.Recognizes (t.take j) := by
    intro j hj hl
    by_cases hjk : j ≤ k
    · exact hn j hj hjk
    · exact hno j (by omega) hl
  cases best with
  | none => exact beyond h
  | some x =>
    obtain ⟨hpos, hle, htakes, hlong⟩ := h
    exact ⟨hpos, Nat.le_trans hle hk, htakes, beyond hlong⟩

/-- One more byte: a match that ends with it is the best, and else the best stays so. -/
theorem Best.snoc {seen rest : Text} {b : UInt8} {best' : Option (Nat × Rule)}
    (h : lex.Best (seen ++ b :: rest) seen.length best)
    (e : best' = match (lex.hopes (seen ++ [b])).find? fun x => x.2.isNullable with
      | some x => some (seen.length + 1, x.1)
      | none => best) :
    lex.Best (seen ++ b :: rest) (seen.length + 1) best' := by
  have htake : (seen ++ b :: rest).take (seen.length + 1) = seen ++ [b] := by
    rw [List.take_length_add_append]
    rfl
  have hfirst := lex.find?_hopes (seen ++ [b])
  subst e
  cases hf : (lex.hopes (seen ++ [b])).find? fun x => x.2.isNullable with
  | some x =>
    rw [hf] at hfirst
    refine ⟨Nat.succ_pos _, Nat.le_refl _, ?_, fun j hj hl => absurd hj (Nat.not_lt_of_le hl)⟩
    rw [htake]
    exact hfirst
  | none =>
    rw [hf] at hfirst
    refine h.extend (Nat.le_succ _) fun j hj hl => ?_
    rw [Nat.le_antisymm hl hj, htake]
    exact hfirst

theorem munchFrom_longest {live : List (Rule × Pattern)} {seen rest : Text}
    (hlive : ∀ b, advance b live = lex.hopes (seen ++ [b])) (hbest : lex.Best (seen ++ rest) seen.length best) :
    lex.Best (seen ++ rest) (seen ++ rest).length (munchFrom live best seen.length rest).best := by
  induction rest generalizing live best seen with
  | nil => simpa [munchFrom] using hbest
  | cons b rest ih =>
    have happ : seen ++ b :: rest = (seen ++ [b]) ++ rest := by simp
    have hlen : seen.length + 1 = (seen ++ [b]).length := by simp
    unfold munchFrom
    rw [hlive b]
    split
    · -- no rule can match any more, whatever follows
      rename_i hnil
      refine hbest.extend (by simp) fun j hj _ => ?_
      rw [happ, List.take_append, List.take_of_length_le (by rw [← hlen]; omega)]
      exact not_recognizes_of_hopeless hnil _
    · dsimp only
      have hnext (best' : Option (Nat × Rule)) := @Best.snoc lex best seen rest b best' hbest
      rw [happ, hlen] at hnext ⊢
      refine ih (fun b' => advance_hopes lex _ b') (hnext _ ?_)
      cases (lex.hopes (seen ++ [b])).find? fun x => x.2.isNullable <;> rfl

/-- The scanner finds the longest match, and the first rule that has it. -/
theorem munch_best_longest (lex : Lexicon) (t : Text) : lex.Best t t.length (munch lex t).best := by
  have hstart : lex.Best ([] ++ t) 0 none := fun _ hj hl => absurd hj (Nat.not_lt_of_le hl)
  exact munchFrom_longest (advance_all lex) hstart

theorem munchFrom_reach (live : List (Rule × Pattern)) (best : Option (Nat × Rule)) (read : Nat) (t : Text) :
    (munchFrom live best read t).reach ≤ read + t.length ∧ (t ≠ [] → read < (munchFrom live best read t).reach) := by
  induction t generalizing live best read with
  | nil => simp [munchFrom]
  | cons b t ih =>
    unfold munchFrom
    split
    · simp only [List.length_cons]
      exact ⟨by omega, fun _ => by omega⟩
    · dsimp only
      have hread := fun best' => ih (advance b live) best' (read + 1)
      refine ⟨Nat.le_trans (hread _).1 (by rw [List.length_cons]; omega), fun _ => ?_⟩
      by_cases ht : t = []
      · subst ht
        exact Nat.lt_succ_self read
      · exact Nat.lt_of_succ_lt ((hread _).2 ht)

theorem munch_reach (lex : Lexicon) (h : t ≠ []) : 0 < (munch lex t).reach ∧ (munch lex t).reach ≤ t.length := by
  obtain ⟨hle, hlt⟩ := munchFrom_reach (lex.map fun r => (r, r.pattern)) none 0 t
  exact ⟨hlt h, by simpa [munch] using hle⟩

/-! ## (2) All positions, one after the other -/

inductive Stands (lex : Lexicon) (c : Cursor) : Next → Cursor → Prop
  | matched {n : Nat} {r : Rule} : lex.Best c.rest c.rest.length (some (n, r)) →
      Stands lex c (tokenOf r c.offset (c.rest.take n)) (c.skip n)
  | unknown {n : Nat} : lex.Best c.rest c.rest.length none → 0 < n → n ≤ c.rest.length →
      Stands lex c (.unknown ⟨.error, c.rest.take n, ⟨c.offset, c.offset + n⟩, .fault (unrecognized (c.rest.take n))⟩)
        (c.skip n)

theorem next_stands (lex : Lexicon) (h : c.rest ≠ []) : Stands lex c (lex.next c).1 (lex.next c).2 := by
  have hbest := munch_best_longest lex c.rest
  obtain ⟨hpos, hle⟩ := munch_reach lex h
  unfold next
  split
  · rename_i hm
    rw [hm] at hbest
    exact .matched hbest
  · rename_i reach hm
    rw [hm] at hbest hpos hle
    refine .unknown hbest (Nat.lt_of_lt_of_le hpos (Nat.le_add_right _ _)) ?_
    have htail := (List.takeWhile_sublist Text.isContinuation (l := c.rest.drop reach)).length_le
    rw [List.length_drop] at htail
    change reach ≤ c.rest.length at hle
    unfold errorLength
    omega

/-- What stands at a cursor takes some bytes, and none behind the source. -/
theorem Stands.advances (h : Stands lex c x c') : ∃ n, 0 < n ∧ n ≤ c.rest.length ∧ c' = c.skip n := by
  cases h with
  | matched hb => exact ⟨_, hb.1, hb.2.1, rfl⟩
  | unknown _ hpos hle => exact ⟨_, hpos, hle, rfl⟩

theorem Cursor.length_skip (c : Cursor) (n : Nat) : (c.skip n).rest.length = c.rest.length - n := List.length_drop ..

/-- What was read from a cursor on, with the positions, up to the end of the source. -/
inductive Trace (lex : Lexicon) : Cursor → List (Cursor × Next) → Prop
  | done {c : Cursor} : c.rest = [] → Trace lex c []
  | read {c c' : Cursor} {x : Next} {xs : List (Cursor × Next)} : c.rest ≠ [] → lex.next c = (x, c') →
      Trace lex c' xs → Trace lex c ((c, x) :: xs)

/-- Reading comes to the end of the source. -/
theorem exists_trace (lex : Lexicon) (c : Cursor) : ∃ xs, Trace lex c xs := by
  induction h : c.rest.length using Nat.strongRecOn generalizing c with
  | _ l ih =>
    by_cases hc : c.rest = []
    · exact ⟨[], .done hc⟩
    · obtain ⟨n, hpos, hle, hskip⟩ := (next_stands lex hc).advances
      have hlen := c.length_skip n
      rw [← hskip] at hlen
      obtain ⟨xs, hxs⟩ := ih _ (by omega) (lex.next c).2 rfl
      exact ⟨_, .read hc rfl hxs⟩

def Next.token? : Next → Option Token
  | .gap => none
  | .token t | .unknown t => some t

def tokensOf (xs : List (Cursor × Next)) : List Token := xs.filterMap (·.2.token?)

/-- No rule makes tokens for the end of the source. -/
def IsOpen (lex : Lexicon) : Prop := ∀ r ∈ lex, r.kind ≠ some .eof

theorem Takes.mem {w : Text} (h : lex.Takes r w) : r ∈ lex := by
  obtain ⟨before, after, rfl, -⟩ := h
  simp

theorem Stands.kind_ne_eof {t : Token} (ho : lex.IsOpen) (h : Stands lex c x c')
    (ht : x.token? = some t) : t.kind ≠ .eof := by
  cases h with
  | matched hb =>
    rename_i n r
    have hr := ho r hb.2.2.1.mem
    unfold tokenOf at ht
    cases hk : r.kind with
    | none =>
      rw [hk] at ht
      cases ht
    | some k =>
      rw [hk] at ht hr
      dsimp only at ht
      split at ht
      · cases ht
        exact Kind.noConfusion
      · cases ht
        exact fun e => hr (congrArg some e)
  | unknown =>
    cases ht
    exact Kind.noConfusion

def collectBehind (lex : Lexicon) (n : Nat) (x : Token × Bool × Cursor) : List Token :=
  if x.1.kind = .eof then [] else x.1 :: (lex.collect n x.2.2).1

theorem collect_succ (lex : Lexicon) (n : Nat) (c : Cursor) :
    (lex.collect (n + 1) c).1 = lex.collectBehind n (lex.nextToken c.rest.length c) := by
  rw [collect, collectBehind]
  rcases lex.nextToken c.rest.length c with ⟨t, unknown, c'⟩
  by_cases h : t.kind = .eof <;> simp [h]

/-- With budgets that the rest of the source does not exceed, the tokens are those that were met. -/
theorem Trace.collect (ho : lex.IsOpen) (h : Trace lex c xs) :
    (∀ n, c.rest.length ≤ n → (lex.collect n c).1 = tokensOf xs) ∧
      ∀ n k, c.rest.length ≤ n + 1 → c.rest.length ≤ k → lex.collectBehind n (lex.nextToken k c) = tokensOf xs := by
  have whole {c : Cursor} {xs : List (Cursor × Next)}
      (hb : ∀ n k, c.rest.length ≤ n + 1 → c.rest.length ≤ k → lex.collectBehind n (lex.nextToken k c) = tokensOf xs)
      (h0 : c.rest = [] → xs = []) (n : Nat) (hn : c.rest.length ≤ n) : (lex.collect n c).1 = tokensOf xs := by
    cases n with
    | zero =>
      rw [h0 (List.eq_nil_of_length_eq_zero (Nat.le_zero.mp hn))]
      rfl
    | succ n =>
      rw [collect_succ]
      exact hb n _ hn (Nat.le_refl _)
  induction h with
  | @done c hc =>
    have hb (n k : Nat) (_ : c.rest.length ≤ n + 1) (_ : c.rest.length ≤ k) :
        lex.collectBehind n (lex.nextToken k c) = tokensOf [] := by
      cases k with
      | zero => rfl
      | succ k => simp [nextToken, hc, collectBehind, Token.endOfInput, tokensOf]
    exact ⟨whole hb fun _ => rfl, hb⟩
  | @read c c' x xs hc hx _ ih =>
    have hs := next_stands lex hc
    rw [hx] at hs
    obtain ⟨n, hpos, hle, rfl⟩ := hs.advances
    have hlen := c.length_skip n
    have hempty : c.rest.isEmpty = false := by simpa using hc
    have hb (m k : Nat) (hm : c.rest.length ≤ m + 1) (hk : c.rest.length ≤ k) :
        lex.collectBehind m (lex.nextToken k c) = tokensOf ((c, x) :: xs) := by
      obtain ⟨k, rfl⟩ : ∃ j, k = j + 1 := ⟨k - 1, by omega⟩
      rw [nextToken, hempty]
      simp only [Bool.false_eq_true, if_false, hx]
      cases x with
      | gap => exact ih.2 m k (by omega) (by omega)
      | token t =>
        have ht := hs.kind_ne_eof ho (t := t) rfl
        simp only [collectBehind, ht, if_false]
        rw [ih.1 m (by omega)]
        rfl
      | unknown t =>
        have ht := hs.kind_ne_eof ho (t := t) rfl
        simp only [collectBehind, ht, if_false]
        rw [ih.1 m (by omega)]
        rfl
    exact ⟨whole hb fun h => absurd h hc, hb⟩

/-- The tokens of a source are those met on the way through it. -/
theorem Trace.tokens (ho : lex.IsOpen) (h : Trace lex (.start source) xs) :
    lex.tokens source = tokensOf xs := (h.collect ho).1 _ (Nat.le_refl _)

/-! ## (3) Tokens and gaps make up the source -/

structure Cursor.In (c : Cursor) (source : Text) : Prop where
  le : c.offset ≤ source.length
  rest : c.rest = source.drop c.offset

theorem Cursor.in_start (source : Text) : (Cursor.start source).In source := ⟨Nat.zero_le _, rfl⟩

theorem Cursor.In.skip (h : c.In source) (hn : n ≤ c.rest.length) : (c.skip n).In source := by
  have hlen : c.rest.length = source.length - c.offset := by rw [h.rest, List.length_drop]
  have hle := h.le
  refine ⟨?_, ?_⟩
  · change c.offset + n ≤ source.length
    omega
  · change c.rest.drop n = source.drop (c.offset + n)
    rw [h.rest, List.drop_drop]

/-- A run of bytes behind a cursor is what its span covers. -/
theorem Cursor.In.of (h : c.In source) (n : Nat) :
    Span.of ⟨c.offset, c.offset + n⟩ source = c.rest.take n := by
  rw [Span.of, h.rest, List.drop_take, Nat.add_sub_cancel_left]

def Blank (source : Text) (first last : Nat) : Prop :=
  ∀ j, first ≤ j → j < last → ∀ b, source[j]? = some b → Pattern.isBlank b = true

inductive Laid (source : Text) : Nat → List Token → Prop
  | done {i : Nat} : Blank source i source.length → Laid source i []
  | token {i : Nat} {t : Token} {ts : List Token} : i ≤ t.span.first → Blank source i t.span.first →
      t.span.first < t.span.last → t.span.last ≤ source.length → t.span.of source = t.lexeme →
      Laid source t.span.last ts → Laid source i (t :: ts)

section

variable {source : Text} {i : Nat} {ts : List Token}

theorem Blank.trans {j k : Nat} (h : Blank source i j) (h' : Blank source j k) : Blank source i k := by
  intro l hi hk
  by_cases hj : l < j
  · exact h l hi hj
  · exact h' l (Nat.le_of_not_lt hj) hk

theorem Laid.gap {j : Nat} (h : Laid source j ts) (hij : i ≤ j) (hb : Blank source i j) : Laid source i ts := by
  cases h with
  | done hd => exact .done (hb.trans hd)
  | token hle hd hne hend hof hts => exact .token (Nat.le_trans hij hle) (hb.trans hd) hne hend hof hts

theorem Laid.mem {t : Token} (h : Laid source i ts) (ht : t ∈ ts) :
    i ≤ t.span.first ∧ t.span.first < t.span.last ∧ t.span.last ≤ source.length ∧ t.span.of source = t.lexeme := by
  induction h with
  | done _ => cases ht
  | token hle _ hne hend hof _ ih =>
    rcases List.mem_cons.mp ht with rfl | ht
    · exact ⟨hle, hne, hend, hof⟩
    · obtain ⟨hfirst, hrest⟩ := ih ht
      exact ⟨by omega, hrest⟩

theorem Laid.ascending (h : Laid source i ts) : ts.Pairwise fun t u => t.span.last ≤ u.span.first := by
  induction h with
  | done _ => exact .nil
  | token _ _ _ _ _ hts ih => exact .cons (fun u hu => (hts.mem hu).1) ih

theorem Laid.blank {j : Nat} {b : UInt8} (h : Laid source i ts) (hi : i ≤ j) (hj : source[j]? = some b)
    (hout : ∀ t ∈ ts, ¬ (t.span.first ≤ j ∧ j < t.span.last)) : Pattern.isBlank b = true := by
  induction h with
  | done hd => exact hd j hi (List.getElem?_eq_some_iff.mp hj).1 b hj
  | @token i t ts _ hd _ _ _ _ ih =>
    by_cases hfirst : j < t.span.first
    · exact hd j hi hfirst b hj
    · have hlast : t.span.last ≤ j := by
        have := hout t List.mem_cons_self
        omega
      exact ih hlast fun u hu => hout u (List.mem_cons_of_mem t hu)

end

def DropsBlanks (lex : Lexicon) : Prop := ∀ r ∈ lex, r.kind = none → r.pattern.Over Pattern.isBlank

theorem tokenOf_token {lexeme : Text} {t : Token} (h : (tokenOf r n lexeme).token? = some t) :
    t.lexeme = lexeme ∧ t.span = ⟨n, n + lexeme.length⟩ := by
  unfold tokenOf at h
  split at h
  · cases h
  · split at h <;> (cases h; exact ⟨rfl, rfl⟩)

theorem tokenOf_gap {lexeme : Text} (h : (tokenOf r n lexeme).token? = none) : r.kind = none := by
  unfold tokenOf at h
  split at h
  · assumption
  · split at h <;> cases h

/-- What stands at a cursor is a token whose span covers its lexeme, or blank. -/
theorem Stands.covers (hd : lex.DropsBlanks) (hc : c.In source) (h : Stands lex c x c') :
    match x.token? with
    | some t => t.span = ⟨c.offset, c'.offset⟩ ∧ t.span.of source = t.lexeme
    | none => Blank source c.offset c'.offset := by
  cases h with
  | @matched n r hb =>
    have hlen : (c.rest.take n).length = n := List.length_take_of_le hb.2.1
    split
    · rename_i t ht
      obtain ⟨hlexeme, hspan⟩ := tokenOf_token ht
      rw [hlen] at hspan
      refine ⟨hspan, ?_⟩
      rw [hspan, hlexeme]
      exact hc.of n
    · rename_i ht
      obtain ⟨_, _, _, hm, _⟩ := hb.2.2.1
      have hblank := hm.over (hd r hb.2.2.1.mem (tokenOf_gap ht))
      intro j hj hlt b hjb
      change j < c.offset + n at hlt
      refine hblank b (List.mem_of_getElem? (i := j - c.offset) ?_)
      rw [List.getElem?_take_of_lt (by omega), hc.rest, List.getElem?_drop, Nat.add_sub_cancel' hj]
      exact hjb
  | unknown => exact ⟨rfl, hc.of _⟩

/-- The tokens met on the way through a source are laid out in it. -/
theorem Trace.laid (hd : lex.DropsBlanks) (h : Trace lex c xs)
    (hc : c.In source) : Laid source c.offset (tokensOf xs) := by
  induction h with
  | done hrest =>
    have hend : source.length ≤ _ := List.drop_eq_nil_iff.mp (hc.rest.symm.trans hrest)
    exact .done fun j hj hlt => absurd hlt (Nat.not_lt_of_le (Nat.le_trans hend hj))
  | @read c c' x xs hne hx _ ih =>
    have hs := next_stands lex hne
    rw [hx] at hs
    have hcovers := hs.covers hd hc
    obtain ⟨n, hpos, hle, rfl⟩ := hs.advances
    have hc' := hc.skip hle
    have hrest := ih hc'
    cases ht : x.token? with
    | none =>
      rw [ht] at hcovers
      have e : tokensOf ((c, x) :: xs) = tokensOf xs := List.filterMap_cons_none ht
      rw [e]
      exact hrest.gap (Nat.le_add_right _ _) hcovers
    | some t =>
      rw [ht] at hcovers
      obtain ⟨hspan, hof⟩ := hcovers
      have e : tokensOf ((c, x) :: xs) = t :: tokensOf xs := List.filterMap_cons_some ht
      have hfirst : t.span.first = c.offset := by rw [hspan]
      have hlast : t.span.last = (c.skip n).offset := by rw [hspan]
      rw [e]
      refine .token (Nat.le_of_eq hfirst.symm) ?_ ?_ (hlast ▸ hc'.le) hof (hlast ▸ hrest)
      · intro j hj hlt
        omega
      · rw [hfirst, hlast]
        exact Nat.lt_add_of_pos_right hpos

end Lexicon

namespace Token

theorem lexicon_isOpen : lexicon.IsOpen := by
  intro r hr
  simp only [lexicon, List.mem_append, List.mem_map, List.mem_cons, List.not_mem_nil, or_false] at hr
  rcases hr with ⟨k, hk, rfl⟩ | rfl | rfl | rfl | rfl | rfl
  · rintro ⟨⟩
    simp [keywords, literals] at hk
  all_goals exact fun h => by cases h

theorem lexicon_dropsBlanks : lexicon.DropsBlanks := by
  intro r hr hk
  simp only [lexicon, List.mem_append, List.mem_map, List.mem_cons, List.not_mem_nil, or_false] at hr
  rcases hr with ⟨k, -, rfl⟩ | rfl | rfl | rfl | rfl | rfl
  case inr.inr.inr.inr.inr => exact ⟨fun _ hb => hb, fun _ hb => hb⟩
  all_goals cases hk

def spaces : Text := [' '.toUInt8, '\t'.toUInt8, '\n'.toUInt8, '\r'.toUInt8]

/-- Reading a source comes to its end, and no byte is lost: the spans of the tokens are not empty, inside of the source
    and one behind the other, each covers the token's lexeme, and what is in none of them is space. -/
theorem tokenize_lossless (source : Text) :
    (∃ xs, Lexicon.Trace lexicon (.start source) xs ∧ tokenize source = Lexicon.tokensOf xs) ∧
    (∀ t ∈ tokenize source,
      t.span.first < t.span.last ∧ t.span.last ≤ source.length ∧ t.span.of source = t.lexeme) ∧
    (tokenize source).Pairwise (fun t u => t.span.last ≤ u.span.first) ∧
    ∀ j b, source[j]? = some b → (∀ t ∈ tokenize source, ¬ (t.span.first ≤ j ∧ j < t.span.last)) → b ∈ spaces := by
  obtain ⟨xs, htrace⟩ := Lexicon.exists_trace lexicon (.start source)
  have htokens : tokenize source = Lexicon.tokensOf xs := htrace.tokens lexicon_isOpen
  have hlaid := htrace.laid lexicon_dropsBlanks (Lexicon.Cursor.in_start source)
  rw [← htokens] at hlaid
  refine ⟨⟨xs, htrace, htokens⟩, fun t ht => (hlaid.mem ht).2, hlaid.ascending, fun j b hj hout => ?_⟩
  simpa [Pattern.isBlank, spaces, or_assoc] using hlaid.blank (Nat.zero_le _) hj hout

end Token

end Scriptlet

/-
  Scriptlet.Proofs.Lexing — what every token is like.

  Patterns are matched by derivatives, and a derivative matches what is left of a match
  (`Pattern.matches_after`). So the lexeme of every token but an error matches the pattern of the rule
  that made it, and the meaning is the one that the rule gives it (`Lexicon.tokens_made`). Of the
  language's own tokens it follows that identifiers consist of letters (`Token.ident_letters`) and that
  every decimal denotes a finite number (`Token.decimal_number`).
-/

import Scriptlet.Token.Rules
import Scriptlet.Syntax.Parse

namespace Scriptlet

variable {b : UInt8} {t : Token}

namespace Pattern

/-! ## Derivatives -/

variable {p q : Pattern} {t : Text}

theorem not_matches_none : ¬ Matches .none t := by
  intro h
  cases h

theorem matches_empty : Matches .empty t ↔ t = [] := by
  constructor
  · intro h
    cases h
    rfl
  · rintro rfl
    exact .empty

theorem matches_cat : Matches (.cat p q) t ↔ ∃ s r, t = s ++ r ∧ Matches p s ∧ Matches q r := by
  constructor
  · intro h
    cases h with
    | cat hp hq => exact ⟨_, _, rfl, hp, hq⟩
  · rintro ⟨s, r, rfl, hp, hq⟩
    exact .cat hp hq

theorem matches_or : Matches (.or p q) t ↔ Matches p t ∨ Matches q t := by
  constructor
  · intro h
    cases h with
    | left h => exact .inl h
    | right h => exact .inr h
  · rintro (h | h)
    · exact .left h
    · exact .right h

/-- The shortcuts of `seq` do not change what is matched. -/
theorem matches_seq : Matches (seq p q) t ↔ ∃ s r, t = s ++ r ∧ Matches p s ∧ Matches q r := by
  unfold seq
  split
  · simp [not_matches_none]
  · simp [not_matches_none]
  · constructor
    · intro h
      exact ⟨[], t, rfl, .empty, h⟩
    · rintro ⟨s, r, rfl, hs, hr⟩
      rw [matches_empty.mp hs]
      exact hr
  · simp [matches_empty]
  · exact matches_cat

theorem matches_alt : Matches (alt p q) t ↔ Matches p t ∨ Matches q t := by
  unfold alt
  split
  · simp [not_matches_none]
  · simp [not_matches_none]
  · exact matches_or

theorem isNullable_iff : p.isNullable = true ↔ Matches p [] := by
  induction p with
  | none => simp [isNullable, not_matches_none]
  | empty => simp [isNullable, matches_empty]
  | one accepts =>
    simp only [isNullable, Bool.false_eq_true, false_iff]
    intro h
    cases h
  | cat p q ihp ihq => simp [isNullable, matches_cat, ihp, ihq, and_assoc]
  | or p q ihp ihq => simp [isNullable, matches_or, ihp, ihq]
  | star p ih =>
    simp only [isNullable, true_iff]
    exact .stop

/-- A repetition that matches something starts with a match that is not empty. -/
theorem matches_star_cons : Matches (.star p) (b :: t) ↔
    ∃ s r, t = s ++ r ∧ Matches p (b :: s) ∧ Matches (.star p) r := by
  constructor
  · intro h
    generalize hp : Pattern.star p = p' at h
    generalize ht : b :: t = t' at h
    induction h with
    | more hs hr _ ih =>
      rename_i s r _
      cases hp
      cases s with
      | nil => exact ih rfl ht
      | cons c s =>
        obtain ⟨rfl, rfl⟩ := List.cons.inj ht
        exact ⟨s, r, rfl, hs, hr⟩
    | stop => cases ht
    | _ => cases hp
  · rintro ⟨s, r, rfl, hs, hr⟩
    exact .more hs hr

/-- What is left to match behind a byte is what completes a match that starts with it. -/
theorem matches_after : Matches (p.after b) t ↔ Matches p (b :: t) := by
  induction p generalizing t with
  | none => simp [after, not_matches_none]
  | empty => simp [after, not_matches_none, matches_empty]
  | one accepts =>
    simp only [after]
    split
    · rename_i hb
      rw [matches_empty]
      constructor
      · rintro rfl
        exact .one hb
      · intro h
        cases h
        rfl
    · rename_i hb
      refine ⟨fun h => absurd h not_matches_none, fun h => ?_⟩
      cases h
      contradiction
  | cat p q ihp ihq =>
    -- A match of the whole starts in `p`, or in `q` if `p` matches the empty text.
    have split_cons : Matches (.cat p q) (b :: t) ↔
        (∃ s r, t = s ++ r ∧ Matches p (b :: s) ∧ Matches q r) ∨ Matches p [] ∧ Matches q (b :: t) := by
      rw [matches_cat]
      constructor
      · rintro ⟨s, r, hs, hp, hq⟩
        cases s with
        | nil => exact .inr ⟨hp, hs ▸ hq⟩
        | cons c s =>
          obtain ⟨rfl, rfl⟩ := List.cons.inj hs
          exact .inl ⟨s, r, rfl, hp, hq⟩
      · rintro (⟨s, r, rfl, hp, hq⟩ | ⟨hp, hq⟩)
        · exact ⟨b :: s, r, rfl, hp, hq⟩
        · exact ⟨[], b :: t, rfl, hp, hq⟩
    rw [split_cons, ← isNullable_iff]
    simp only [after]
    split
    · rename_i hn
      simp only [matches_alt, matches_seq, ihp, ihq, hn, true_and]
    · rename_i hn
      simp [matches_seq, ihp, hn]
  | or p q ihp ihq => simp only [after, matches_alt, matches_or, ihp, ihq]
  | star p ih => simp only [after, matches_seq, matches_star_cons, ih]

/-! ## Alphabets -/

def Over (A : UInt8 → Bool) : Pattern → Prop
  | .none | .empty => True
  | .one accepts => ∀ b, accepts b = true → A b = true
  | .cat p q | .or p q => p.Over A ∧ q.Over A
  | .star p => p.Over A

theorem Matches.over {A : UInt8 → Bool} (h : Matches p t) (hA : p.Over A) : ∀ b ∈ t, A b = true := by
  induction h with
  | empty => simp
  | one hb =>
    intro c hc
    rw [List.mem_singleton.mp hc]
    exact hA _ hb
  | cat _ _ ihs iht =>
    intro c hc
    exact (List.mem_append.mp hc).elim (ihs hA.1 c) (iht hA.2 c)
  | left _ ih => exact ih hA.1
  | right _ ih => exact ih hA.2
  | stop => simp
  | more _ _ ihs iht =>
    intro c hc
    exact (List.mem_append.mp hc).elim (ihs hA c) (iht hA c)

end Pattern

namespace Lexicon

variable {lex : Lexicon} {r : Rule} {n : Nat}

/-! ## Matches -/

/-- Each pattern is what is left of its rule's pattern behind the bytes seen. -/
def Live (lex : Lexicon) (seen : Text) (live : List (Rule × Pattern)) : Prop :=
  ∀ x ∈ live, x.1 ∈ lex ∧ ∀ t, Pattern.Matches x.2 t ↔ Pattern.Matches x.1.pattern (seen ++ t)

theorem Live.advance {seen : Text} {live : List (Rule × Pattern)} (h : Live lex seen live) (b : UInt8) :
    Live lex (seen ++ [b]) (advance b live) := by
  intro x hx
  obtain ⟨hx, -⟩ := List.mem_filter.mp hx
  obtain ⟨y, hy, rfl⟩ := List.mem_map.mp hx
  obtain ⟨hr, hm⟩ := h y hy
  refine ⟨hr, fun t => ?_⟩
  rw [Pattern.matches_after, hm, List.append_assoc, List.singleton_append]

/-- A match found while reading on is one of its rule. -/
theorem munchFrom_best {live : List (Rule × Pattern)} {best : Option (Nat × Rule)} {seen rest : Text}
    (h : Live lex seen live) (hbest : ∀ k s, best = some (k, s) → s ∈ lex ∧ s.pattern.Matches ((seen ++ rest).take k))
    (e : (munchFrom live best seen.length rest).best = some (n, r)) :
    r ∈ lex ∧ r.pattern.Matches ((seen ++ rest).take n) := by
  induction rest generalizing live best seen with
  | nil => exact hbest n r e
  | cons b rest ih =>
    have hl := h.advance b
    have hlen : seen.length + 1 = (seen ++ [b]).length := by simp
    have happ : seen ++ b :: rest = (seen ++ [b]) ++ rest := by simp
    unfold munchFrom at e
    split at e
    · exact hbest n r e
    · rename_i live' hlive
      rw [happ] at hbest ⊢
      rw [hlen] at e
      refine ih hl ?_ e
      intro k s hs
      split at hs
      · rename_i s' p' hf
        cases hs
        obtain ⟨hs', hm⟩ := hl _ (List.mem_of_find?_eq_some hf)
        refine ⟨hs', ?_⟩
        have hn := List.find?_some hf
        rw [List.take_left]
        simpa using (hm []).mp (Pattern.isNullable_iff.mp hn)
      · exact hbest k s hs

theorem munch_best {t : Text} (e : (munch lex t).best = some (n, r)) : r ∈ lex ∧ r.pattern.Matches (t.take n) := by
  have hlive : Live lex [] (lex.map fun r => (r, r.pattern)) := by
    intro x hx
    obtain ⟨s, hs, rfl⟩ := List.mem_map.mp hx
    exact ⟨hs, fun t => Iff.rfl⟩
  exact munchFrom_best hlive (fun k s hs => by cases hs) e

/-! ## Tokens -/

/-- The token was made by a rule that its lexeme matches, unless it is an error. -/
def Made (lex : Lexicon) (t : Token) : Prop :=
  t.kind = .error ∨ ∃ r ∈ lex, r.kind = some t.kind ∧ r.pattern.Matches t.lexeme ∧ r.interpret t.lexeme = t.meaning

theorem next_made {c c' : Cursor} (h : next lex c = (.token t, c') ∨ next lex c = (.unknown t, c')) : Made lex t := by
  unfold next at h
  split at h
  · rename_i n r reach hm
    have hbest : (munch lex c.rest).best = some (n, r) := by rw [hm]
    obtain ⟨hr, hmatch⟩ := munch_best hbest
    unfold tokenOf at h
    cases hk : r.kind with
    | none => simp [hk] at h
    | some kind =>
      simp only [hk] at h
      split at h
      · rcases h with h | h
        · cases h
          exact .inl rfl
        · cases h
      · rcases h with h | h
        · cases h
          exact .inr ⟨r, hr, hk, hmatch, rfl⟩
        · cases h
  · rcases h with h | h
    · cases h
    · cases h
      exact .inl rfl

theorem nextToken_made (n : Nat) (c : Cursor) : (nextToken lex n c).1.kind = .eof ∨ Made lex (nextToken lex n c).1 := by
  induction n generalizing c with
  | zero => exact .inl rfl
  | succ n ih =>
    unfold nextToken
    split
    · exact .inl rfl
    · split
      · exact ih _
      · rename_i h
        exact .inr (next_made (.inl h))
      · rename_i h
        exact .inr (next_made (.inr h))

theorem collect_made (n : Nat) (c : Cursor) : ∀ t ∈ (collect lex n c).1, Made lex t := by
  induction n generalizing c with
  | zero => simp [collect]
  | succ n ih =>
    unfold collect
    dsimp only
    split
    · simp
    · rename_i hk
      intro t ht
      rcases List.mem_cons.mp ht with rfl | ht
      · exact (nextToken_made _ c).resolve_left hk
      · exact ih _ t ht

theorem tokens_made {source : Text} (h : t ∈ lex.tokens source) : Made lex t := collect_made _ _ t h

end Lexicon

namespace Token

variable {src : Text}

/-- The rules that make identifiers and decimals. -/
theorem rule_of_kind {r : Rule} (h : r ∈ lexicon) :
    (r.kind = some .ident → r.pattern = .word) ∧
      (r.kind = some .decimal →
        r.pattern = .decimal ∧ r.interpret = fun l => (Meaning.ofDecimal l).about "decimal" l) := by
  simp only [lexicon, List.mem_append, List.mem_map, List.mem_cons, List.not_mem_nil, or_false] at h
  rcases h with ⟨k, hk, rfl⟩ | rfl | rfl | rfl | rfl | rfl
  · constructor
    · intro hi
      cases hi
      simp [keywords, literals] at hk
    · intro hd
      cases hd
      simp [keywords, literals] at hk
  · exact ⟨nofun, nofun⟩
  · exact ⟨nofun, nofun⟩
  · exact ⟨nofun, fun _ => ⟨rfl, rfl⟩⟩
  · exact ⟨fun _ => rfl, nofun⟩
  · exact ⟨nofun, nofun⟩

/-- Identifiers consist of letters and underscores. -/
theorem ident_letters (h : t ∈ tokenize src) (hk : t.kind = .ident) : ∀ b ∈ t.lexeme, Pattern.isLetter b = true := by
  rcases Lexicon.tokens_made h with he | ⟨r, hr, hkind, hm, -⟩
  · rw [hk] at he
    cases he
  · rw [hk] at hkind
    rw [(rule_of_kind hr).1 hkind] at hm
    exact hm.over ⟨fun _ hb => hb, fun _ hb => hb⟩

end Token

namespace Binary64

theorem magnitude_withSign (negative : Bool) {n : Nat} (h : n ≤ infinityMagnitude) :
    (withSign negative n).magnitude = n := by
  unfold infinityMagnitude at h
  unfold magnitude withSign
  cases negative with
  | false =>
    rw [UInt64.toNat_ofNat']
    simp only [Bool.false_eq_true, if_false]
    omega
  | true =>
    rw [UInt64.toNat_ofNat']
    simp only [if_true]
    omega

theorem isNaN_withSign (negative : Bool) {n : Nat} (h : n ≤ infinityMagnitude) : (withSign negative n).isNaN = false := by
  unfold isNaN
  rw [magnitude_withSign negative h]
  simpa using h

theorem isNaN_ofRatio (negative : Bool) (num den : Nat) : (ofRatio negative num den).isNaN = false := by
  unfold ofRatio
  split
  · exact isNaN_withSign negative (Nat.zero_le _)
  · exact isNaN_withSign negative (Nat.min_le_right _ _)

theorem isNaN_ofDecimal (negative : Bool) (n : Nat) (e : Int) : (ofDecimal negative n e).isNaN = false := by
  unfold ofDecimal
  split
  · exact isNaN_withSign negative (Nat.zero_le _)
  · split
    · exact isNaN_withSign negative (Nat.le_refl _)
    · split
      · exact isNaN_withSign negative (Nat.zero_le _)
      · exact isNaN_ofRatio negative _ _

end Binary64

namespace Decimal

theorem mem_of_mem_sign {t : Text} (h : b ∈ (sign t).2) : b ∈ t := by
  unfold sign at h
  split at h
  · exact h
  · split at h
    · exact List.mem_cons_of_mem _ h
    · split at h
      · exact List.mem_cons_of_mem _ h
      · exact h

/-- Only the word for it is read as a not-a-number. -/
theorem isNaN_read? {t : Text} {x : Binary64} (hn : 'N'.toUInt8 ∉ t) (h : read? t = some x) : x.isNaN = false := by
  unfold read? at h
  dsimp only at h
  split at h
  · rename_i hword
    refine absurd (mem_of_mem_sign (b := 'N'.toUInt8) ?_) hn
    rw [hword]
    decide +kernel
  · split at h
    · cases h
      exact Binary64.isNaN_withSign _ (Nat.le_refl _)
    · obtain ⟨p, -, rfl⟩ := Option.map_eq_some_iff.mp h
      exact Binary64.isNaN_ofDecimal _ p.1 p.2

end Decimal

namespace Token

def isDecimalByte (b : UInt8) : Bool := Text.isDigit b || b == '-'.toUInt8 || b == '.'.toUInt8

/-- What a decimal denotes is a finite number. -/
theorem decimal_number {src : Text} {x : Binary64} (h : t ∈ tokenize src) (hk : t.kind = .decimal)
    (hx : t.meaning = .float x) : x.isNaN = false ∧ x.isInfinite = false := by
  rcases Lexicon.tokens_made h with he | ⟨r, hr, hkind, hm, hi⟩
  · rw [hk] at he
    cases he
  · rw [hk] at hkind
    obtain ⟨hp, hint⟩ := (rule_of_kind hr).2 hkind
    rw [hp] at hm
    rw [hint, hx] at hi
    have hbytes : ∀ b ∈ t.lexeme, isDecimalByte b = true := by
      have hsign : ∀ b, (b == '-'.toUInt8) = true → isDecimalByte b = true := fun b hb => by simp [isDecimalByte, hb]
      have hpoint : ∀ b, (b == '.'.toUInt8) = true → isDecimalByte b = true := fun b hb => by simp [isDecimalByte, hb]
      have hdigit : ∀ b, Text.isDigit b = true → isDecimalByte b = true := fun b hb => by simp [isDecimalByte, hb]
      exact hm.over ⟨⟨trivial, hsign⟩, hdigit, hpoint, hdigit, hdigit⟩
    have hread : Decimal.read? t.lexeme = some x ∧ x.isInfinite = false := by
      simp only [Meaning.ofDecimal] at hi
      cases hr : Decimal.read? t.lexeme with
      | none =>
        simp only [hr] at hi
        cases hi
      | some y =>
        simp only [hr] at hi
        split at hi
        · cases hi
        · rename_i hinf
          cases hi
          exact ⟨rfl, Bool.eq_false_iff.mpr hinf⟩
    exact ⟨Decimal.isNaN_read? (fun hN => absurd (hbytes _ hN) (by decide)) hread.1, hread.2⟩

end Token

namespace Text

/-- Letters are characters that take one byte. -/
theorem narrow_of_isLetter (h : Pattern.isLetter b = true) : b < 0x80 := by
  simp only [Pattern.isLetter, Bool.or_eq_true, Bool.and_eq_true, decide_eq_true_eq, beq_iff_eq] at h
  rcases h with (⟨-, h⟩ | ⟨-, h⟩) | rfl
  · exact UInt8.lt_of_le_of_lt h (by decide)
  · exact UInt8.lt_of_le_of_lt h (by decide)
  · decide

end Text

end Scriptlet

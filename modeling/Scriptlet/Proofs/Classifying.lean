/-
  Scriptlet.Proofs.Classifying — what becomes of the longest match.

  (1) What the patterns of the language match, without patterns: an integer is digits with or without a
      minus sign, a quotation is what has no double quote in it between two of them, and so on.
  (2) A rule makes a token of its kind of what it takes, with the text or the number that it denotes. A number
      that is out of range makes the match an error (`reads_tokenOf`).
  (3) Every byte with which a rule can start is matched alone, but for the double quote. So no rule
      matches only at a byte with which none can start, and at a quote that is not closed
      (`not_matchable_iff`). A word that is a keyword is taken by the keyword's rule (`keyword_iff`).
-/

import Mathlib.Data.List.TakeWhile
import Mathlib.Data.Nat.Digits.Defs
import Scriptlet.Proofs.Munching
import Scriptlet.Proofs.Rounding

namespace Scriptlet

variable {w t : Text} {b : UInt8}

namespace Pattern

/-! ## (1) What the patterns match -/

variable {accepts : UInt8 → Bool}

theorem matches_one : Matches (.one accepts) w ↔ ∃ b, w = [b] ∧ accepts b = true := by
  constructor
  · intro h
    cases h with
    | one hb => exact ⟨_, rfl, hb⟩
  · rintro ⟨b, rfl, hb⟩
    exact .one hb

theorem matches_star_one : Matches (.star (.one accepts)) w ↔ ∀ b ∈ w, accepts b = true := by
  induction w with
  | nil => exact ⟨fun _ _ hb => absurd hb List.not_mem_nil, fun _ => .stop⟩
  | cons b w ih =>
    rw [matches_star_cons, List.forall_mem_cons, ← ih]
    constructor
    · rintro ⟨s, r, rfl, hs, hr⟩
      cases hs with
      | one hb => exact ⟨hb, hr⟩
    · rintro ⟨hb, hr⟩
      exact ⟨[], w, rfl, .one hb, hr⟩

theorem matches_plus_one : Matches (plus (.one accepts)) w ↔ w ≠ [] ∧ ∀ b ∈ w, accepts b = true := by
  simp only [plus, matches_seq, matches_one, matches_star_one]
  constructor
  · rintro ⟨s, r, rfl, ⟨b, rfl, hb⟩, hr⟩
    exact ⟨List.cons_ne_nil _ _, List.forall_mem_cons.mpr ⟨hb, hr⟩⟩
  · rintro ⟨hne, hall⟩
    cases w with
    | nil => exact absurd rfl hne
    | cons b w =>
      obtain ⟨hb, hr⟩ := List.forall_mem_cons.mp hall
      exact ⟨[b], w, rfl, ⟨b, rfl, hb⟩, hr⟩

theorem matches_byte {c : Char} : Matches (byte c) w ↔ w = [c.toUInt8] := by
  simp [byte, matches_one]

theorem matches_optional {p : Pattern} : Matches (optional p) w ↔ w = [] ∨ Matches p w := by
  rw [optional, matches_alt, matches_empty]

theorem matches_exactly : Matches (exactly t) w ↔ w = t := by
  induction t generalizing w with
  | nil => exact matches_empty
  | cons b t ih =>
    rw [exactly, matches_seq]
    constructor
    · rintro ⟨s, r, rfl, hs, hr⟩
      obtain ⟨b', rfl, hb⟩ := matches_one.mp hs
      rw [ih.mp hr, beq_iff_eq.mp hb]
      rfl
    · rintro rfl
      exact ⟨[b], t, rfl, matches_one.mpr ⟨b, rfl, beq_self_eq_true b⟩, ih.mpr rfl⟩

abbrev Digits (ds : Text) : Prop := ∀ b ∈ ds, Text.isDigit b = true

def IsSign (s : Text) : Prop := s = [] ∨ s = ['-'.toUInt8]

theorem matches_integer : Matches integer w ↔ ∃ s ds, w = s ++ ds ∧ IsSign s ∧ ds ≠ [] ∧ Digits ds := by
  simp only [integer, matches_seq, matches_optional, matches_byte, digit, matches_plus_one, IsSign]

theorem matches_decimal : Matches decimal w ↔
    ∃ s ds fs, w = s ++ (ds ++ '.'.toUInt8 :: fs) ∧ IsSign s ∧ Digits ds ∧ fs ≠ [] ∧ Digits fs := by
  simp only [decimal, matches_seq, matches_optional, matches_byte, digit, matches_plus_one, matches_star_one, IsSign]
  constructor
  · rintro ⟨s, _, rfl, hs, ds, _, rfl, hds, _, fs, rfl, rfl, hne, hfs⟩
    exact ⟨s, ds, fs, rfl, hs, hds, hne, hfs⟩
  · rintro ⟨s, ds, fs, rfl, hs, hds, hne, hfs⟩
    exact ⟨s, _, rfl, hs, ds, _, rfl, hds, _, fs, rfl, rfl, hne, hfs⟩

theorem matches_quotation : Matches quotation w ↔
    ∃ s, w = '"'.toUInt8 :: (s ++ ['"'.toUInt8]) ∧ '"'.toUInt8 ∉ s := by
  have outside (s : Text) : (∀ b ∈ s, (b != '"'.toUInt8) = true) ↔ '"'.toUInt8 ∉ s := by
    simp only [bne_iff_ne]
    exact ⟨fun h hm => h _ hm rfl, fun h b hb e => h (e ▸ hb)⟩
  simp only [quotation, matches_seq, matches_byte, matches_star_one, outside]
  constructor
  · rintro ⟨_, _, rfl, rfl, s, _, rfl, hs, rfl⟩
    exact ⟨s, rfl, hs⟩
  · rintro ⟨s, rfl, hs⟩
    exact ⟨_, _, rfl, rfl, s, _, rfl, hs, rfl⟩

theorem matches_word : Matches word w ↔ w ≠ [] ∧ ∀ b ∈ w, isLetter b = true := matches_plus_one

theorem matches_blanks : Matches blanks w ↔ w ≠ [] ∧ ∀ b ∈ w, isBlank b = true := matches_plus_one

theorem not_isLetter_of_isDigit (h : Text.isDigit b = true) : ¬ isLetter b = true := by
  simp only [Text.isDigit, isLetter, Bool.and_eq_true, Bool.or_eq_true, decide_eq_true_eq, beq_iff_eq] at h ⊢
  have hle : b ≤ 57 := h.2
  rintro ((⟨hlow, -⟩ | ⟨hlow, -⟩) | rfl)
  · exact absurd (UInt8.le_trans hlow hle) (by decide)
  · exact absurd (UInt8.le_trans hlow hle) (by decide)
  · exact absurd hle (by decide)

theorem not_isLetter_of_isBlank (h : isBlank b = true) : ¬ isLetter b = true := by
  simp only [isBlank, Bool.or_eq_true, beq_iff_eq] at h
  rcases h with ((rfl | rfl) | rfl) | rfl <;> decide

end Pattern

open Pattern hiding none

/-! ## (2) What a rule makes of a lexeme -/

namespace Text

/-- The number that digits denote: the last counts ones, the one before it tens, and so on. -/
def placeValue (ds : Text) : Nat := Nat.ofDigits 10 (ds.reverse.map fun b => b.toNat - '0'.toNat)

theorem digitsValue_eq_placeValue (ds : Text) : digitsValue ds = placeValue ds := by
  rw [digitsValue, placeValue, Nat.ofDigits_eq_foldr, List.foldr_map, List.foldr_reverse]
  congr 1
  funext n b
  exact Nat.add_comm _ _

end Text

namespace Decimal

inductive Denotes : Text → Int → Prop
  | plain {ds : Text} : ds ≠ [] → Digits ds → Denotes ds (Text.placeValue ds)
  | minus {ds : Text} : ds ≠ [] → Digits ds → Denotes ('-'.toUInt8 :: ds) (-(Text.placeValue ds : Int))

theorem sign_minus (t : Text) : sign ('-'.toUInt8 :: t) = (true, t) := rfl

/-- A digit or a point is no sign. -/
theorem sign_plain (h : Text.isDigit b = true ∨ b = '.'.toUInt8) : sign (b :: t) = (false, b :: t) := by
  have hminus : b ≠ '-'.toUInt8 := by
    rintro rfl
    exact absurd h (by decide)
  have hplus : b ≠ '+'.toUInt8 := by
    rintro rfl
    exact absurd h (by decide)
  simp [sign, hminus, hplus]

theorem passes_digits {ds : Text} (hne : ds ≠ []) (hds : Digits ds) : (ds.isEmpty || !ds.all Text.isDigit) = false := by
  simpa [hne] using hds

theorem readInt?_of_denotes {z : Int} (h : Denotes t z) : readInt? t = some z := by
  cases h with
  | plain hne hds =>
    cases hs : t with
    | nil => exact absurd hs hne
    | cons b r =>
      subst hs
      rw [readInt?, sign_plain (.inl (hds b List.mem_cons_self))]
      simp only [passes_digits hne hds, Text.digitsValue_eq_placeValue]
      rfl
  | minus hne hds =>
    rw [readInt?, sign_minus]
    simp only [passes_digits hne hds, Text.digitsValue_eq_placeValue]
    rfl

theorem exists_denotes (h : Matches .integer w) : ∃ z, Denotes w z := by
  obtain ⟨s, ds, rfl, hs, hne, hds⟩ := matches_integer.mp h
  rcases hs with rfl | rfl
  · exact ⟨_, .plain hne hds⟩
  · exact ⟨_, .minus hne hds⟩

inductive Figures : Text → Nat → Nat → Prop
  | whole {ds : Text} : ds ≠ [] → Digits ds → Figures ds (Text.placeValue ds) 0
  | point {ds fs : Text} : ds ++ fs ≠ [] → Digits (ds ++ fs) →
      Figures (ds ++ '.'.toUInt8 :: fs) (Text.placeValue (ds ++ fs)) fs.length

section

variable {n k : Nat}

theorem Figures.byte (h : Figures t n k) : ∀ b ∈ t, Text.isDigit b = true ∨ b = '.'.toUInt8 := by
  intro b hb
  cases h with
  | whole _ hds => exact .inl (hds b hb)
  | point _ hds =>
    rw [List.mem_append, List.mem_cons] at hb
    have := hds b
    rw [List.mem_append] at this
    tauto

theorem readDigits?_of_figures (h : Figures t n k) : readDigits? t = some (n, k) := by
  have hwhole {ds : Text} (hds : Digits ds) : ∀ b ∈ ds, (b != '.'.toUInt8) = true := by
    intro b hb
    have hdigit := hds b hb
    rw [bne_iff_ne]
    rintro rfl
    exact absurd hdigit (by decide)
  cases h with
  | whole hne hds =>
    have hcut : Text.cut '.'.toUInt8 t = (t, none) := by
      rw [Text.cut, List.takeWhile_eq_self_iff.mpr (hwhole hds), List.dropWhile_eq_nil_iff.mpr (hwhole hds)]
    rw [readDigits?, hcut, ← Text.digitsValue_eq_placeValue]
    simp only [Option.getD_none, List.append_nil, passes_digits hne hds]
    rfl
  | @point ds fs hne hds =>
    have hwhole := hwhole fun b hb => hds b (List.mem_append_left fs hb)
    have hcut : Text.cut '.'.toUInt8 (ds ++ '.'.toUInt8 :: fs) = (ds, some fs) := by
      rw [Text.cut, List.takeWhile_append_of_pos hwhole, List.dropWhile_append_of_pos hwhole]
      simp
    rw [readDigits?, hcut, ← Text.digitsValue_eq_placeValue]
    simp only [Option.getD_some, passes_digits hne hds]
    rfl

theorem readUnsigned?_of_figures (h : Figures t n k) :
    readUnsigned? t = some (n, -(k : Int)) ∧
      ∀ {exponent : Text} {e : Int}, readInt? exponent = some e →
        readUnsigned? (t ++ 'e'.toUInt8 :: exponent) = some (n, e - k) := by
  have hplain : ∀ b ∈ t, (!(b = 'e'.toUInt8 || b = 'E'.toUInt8 : Bool)) = true := by
    intro b hb
    have hbyte := h.byte b hb
    have hmarks : b ≠ 'e'.toUInt8 ∧ b ≠ 'E'.toUInt8 := by
      constructor <;> (rintro rfl; exact absurd hbyte (by decide))
    simp [hmarks]
  unfold readUnsigned?
  dsimp only
  refine ⟨?_, fun {exponent e} he => ?_⟩
  · rw [List.takeWhile_eq_self_iff.mpr hplain, List.dropWhile_eq_nil_iff.mpr hplain, readDigits?_of_figures h]
    rfl
  · rw [List.takeWhile_append_of_pos hplain, List.dropWhile_append_of_pos hplain, List.takeWhile_cons_of_neg (by decide),
      List.dropWhile_cons_of_neg (by decide), List.append_nil, readDigits?_of_figures h]
    exact congrArg (Option.bind · _) he

end

/-- A decimal is read as the number nearest to it. -/
theorem read?_point {s ds fs : Text} (hs : IsSign s) (hds : Digits ds) (hne : fs ≠ []) (hfs : Digits fs) :
    read? (s ++ (ds ++ '.'.toUInt8 :: fs)) =
      some (Binary64.ofDecimal (!s.isEmpty) (Text.placeValue (ds ++ fs)) (-(fs.length : Int))) := by
  have hsign : sign (s ++ (ds ++ '.'.toUInt8 :: fs)) = (!s.isEmpty, ds ++ '.'.toUInt8 :: fs) := by
    rcases hs with rfl | rfl
    · cases ds with
      | nil => exact sign_plain (.inr rfl)
      | cons b ds => exact sign_plain (.inl (hds b List.mem_cons_self))
    · exact sign_minus _
  have hpoint : '.'.toUInt8 ∈ ds ++ '.'.toUInt8 :: fs := List.mem_append_right ds List.mem_cons_self
  have hword {w : Text} (hw : '.'.toUInt8 ∉ w) : ds ++ '.'.toUInt8 :: fs ≠ w := fun e => hw (e ▸ hpoint)
  rw [read?, hsign]
  simp only [hword (w := "NaN") (by decide +kernel), hword (w := "Inf") (by decide +kernel), if_false]
  have hfigures : Figures _ _ _ := .point (by simp [hne]) (List.forall_mem_append.mpr ⟨hds, hfs⟩)
  rw [(readUnsigned?_of_figures hfigures).1]
  rfl

end Decimal

namespace Lexicon

/-- The token that takes the place of a number that is out of range. -/
def outOfRange (what reader : Text) (first : Nat) (w : Text) : Next :=
  .token ⟨.error, w, ⟨first, first + w.length⟩, .fault (what ++ " literal " ++ w ++ ": " ++ Meaning.outOfRange reader w)⟩

/-- What a rule that makes tokens of a kind, or none, makes of a lexeme that starts at a position. -/
def Reads (first : Nat) (w : Text) : Option Kind → Next → Prop
  | none, x => x = .gap
  | some .string, x => ∃ s, w = '"'.toUInt8 :: (s ++ ['"'.toUInt8]) ∧
      x = .token ⟨.string, w, ⟨first, first + w.length⟩, .text s⟩
  | some .int, x => ∃ z, Decimal.Denotes w z ∧
      if -(2 ^ 63) ≤ z ∧ z ≤ 2 ^ 63 - 1 then ∃ n : Int64, n.toInt = z ∧ x = .token ⟨.int, w, ⟨first, first + w.length⟩, .int n⟩
      else x = outOfRange "integer" "ParseInt" first w
  | some .decimal, x => ∃ s ds fs, w = s ++ (ds ++ '.'.toUInt8 :: fs) ∧ IsSign s ∧ Digits ds ∧ fs ≠ [] ∧ Digits fs ∧
      if Text.placeValue (ds ++ fs) < Binary64.overflow * 10 ^ fs.length then
        x = .token ⟨.decimal, w, ⟨first, first + w.length⟩,
          .float (Binary64.ofDecimal (!s.isEmpty) (Text.placeValue (ds ++ fs)) (-(fs.length : Int)))⟩
      else x = outOfRange "decimal" "ParseFloat" first w
  | some k, x => x = .token ⟨k, w, ⟨first, first + w.length⟩, .text w⟩

end Lexicon

namespace Token

open Lexicon (Reads tokenOf)

variable {r : Rule}

theorem mem_lexicon : r ∈ lexicon ↔ (∃ k ∈ keywords ++ literals, r = .exactly k.name k) ∨
    r = { pattern := .quotation, kind := some .string, interpret := .ofQuotation } ∨
    r = { pattern := .integer, kind := some .int, interpret := fun l => (Meaning.ofInteger l).about "integer" l } ∨
    r = { pattern := .decimal, kind := some .decimal, interpret := fun l => (Meaning.ofDecimal l).about "decimal" l } ∨
    r = .word .ident ∨ r = .blanks := by
  simp only [lexicon, List.mem_append, List.mem_map, List.mem_cons, List.not_mem_nil, or_false, eq_comm]

theorem reads_integer (first : Nat) (h : Matches .integer w) :
    Reads first w (some .int)
      (tokenOf { pattern := .integer, kind := some .int, interpret := fun l => (Meaning.ofInteger l).about "integer" l }
        first w) := by
  obtain ⟨z, hz⟩ := Decimal.exists_denotes h
  refine ⟨z, hz, ?_⟩
  by_cases hin : -(2 ^ 63) ≤ z ∧ z ≤ 2 ^ 63 - 1
  · have hrange : (-(2 ^ 63) ≤ z && z < 2 ^ 63) = true := by
      simp only [Bool.and_eq_true, decide_eq_true_eq]
      omega
    rw [if_pos hin]
    refine ⟨Int64.ofInt z, Int64.toInt_ofInt_of_le hin.1 (by omega), ?_⟩
    simp only [tokenOf, Meaning.ofInteger, Decimal.readInt?_of_denotes hz, hrange, if_true, Meaning.about]
  · have hrange : (-(2 ^ 63) ≤ z && z < 2 ^ 63) = false := by
      simp only [Bool.and_eq_false_iff, decide_eq_false_iff_not]
      omega
    rw [if_neg hin]
    simp only [tokenOf, Meaning.ofInteger, Decimal.readInt?_of_denotes hz, hrange, Meaning.about]
    rfl

theorem reads_decimal (first : Nat) (h : Matches .decimal w) :
    Reads first w (some .decimal)
      (tokenOf { pattern := .decimal, kind := some .decimal, interpret := fun l => (Meaning.ofDecimal l).about "decimal" l }
        first w) := by
  obtain ⟨s, ds, fs, rfl, hs, hds, hne, hfs⟩ := matches_decimal.mp h
  refine ⟨s, ds, fs, rfl, hs, hds, hne, hfs, ?_⟩
  have hread := Decimal.read?_point hs hds hne hfs
  have hbound := Binary64.isInfinite_ofDecimal (!s.isEmpty) (Text.placeValue (ds ++ fs)) fs.length
  cases hinf : (Binary64.ofDecimal (!s.isEmpty) (Text.placeValue (ds ++ fs)) (-(fs.length : Int))).isInfinite with
  | false =>
    rw [if_pos (Nat.lt_of_not_le (mt hbound.mpr (Bool.eq_false_iff.mp hinf)))]
    simp only [tokenOf, Meaning.ofDecimal, hread, hinf, Bool.false_eq_true, if_false, Meaning.about]
  | true =>
    rw [if_neg (Nat.not_lt_of_le (hbound.mp hinf))]
    simp only [tokenOf, Meaning.ofDecimal, hread, hinf, if_true, Meaning.about]
    rfl

/-- A rule of the language makes of what it matches the token that its kind stands for. -/
theorem reads_tokenOf (first : Nat) (hr : r ∈ lexicon) (h : r.pattern.Matches w) :
    Reads first w r.kind (tokenOf r first w) := by
  rcases mem_lexicon.mp hr with ⟨k, hk, rfl⟩ | rfl | rfl | rfl | rfl | rfl
  · simp only [keywords, literals, List.cons_append, List.nil_append, List.mem_cons, List.not_mem_nil, or_false] at hk
    rcases hk with rfl | rfl | rfl | rfl | rfl | rfl | rfl | rfl | rfl | rfl | rfl | rfl | rfl | rfl | rfl | rfl | rfl |
      rfl | rfl | rfl <;> rfl
  · obtain ⟨s, rfl, -⟩ := matches_quotation.mp h
    refine ⟨s, rfl, ?_⟩
    simp only [tokenOf, Meaning.ofQuotation, List.drop_succ_cons, List.drop_zero, List.dropLast_concat]
  · exact reads_integer first h
  · exact reads_decimal first h
  · rfl
  · rfl

/-! ## (3) Where matches start -/

/-- With what a match can start: a quotation with its quote, a word with a letter, and all else with a digit, a blank or
    punctuation. -/
theorem start_of_matches (hr : r ∈ lexicon) (h : r.pattern.Matches (b :: w)) :
    (b = '"'.toUInt8 ∧ '"'.toUInt8 ∈ w) ∨ (∀ x ∈ b :: w, isLetter x = true) ∨ Text.isDigit b = true ∨
      isBlank b = true ∨ ∃ j ∈ literals, j.name = [b] := by
  have minus : ∃ j ∈ literals, j.name = ['-'.toUInt8] := by decide +kernel
  have point : ∃ j ∈ literals, j.name = ['.'.toUInt8] := by decide +kernel
  rcases mem_lexicon.mp hr with ⟨k, hk, rfl⟩ | rfl | rfl | rfl | rfl | rfl
  · have fixed : ∀ k ∈ keywords ++ literals,
        k.name.all isLetter = true ∨ ∃ j ∈ literals, j.name = k.name.take 1 := by decide +kernel
    have hname : b :: w = k.name := matches_exactly.mp h
    rcases fixed k hk with hletters | hliteral
    · rw [← hname] at hletters
      exact .inr (.inl (List.all_eq_true.mp hletters))
    · rw [← hname] at hliteral
      exact .inr (.inr (.inr (.inr hliteral)))
  · obtain ⟨s, e, -⟩ := matches_quotation.mp h
    obtain ⟨rfl, rfl⟩ := List.cons.inj e
    exact .inl ⟨rfl, by simp⟩
  · obtain ⟨s, ds, e, rfl | rfl, hne, hds⟩ := matches_integer.mp h
    · have hb : b ∈ ds := by
        rw [List.nil_append] at e
        exact e ▸ List.mem_cons_self
      exact .inr (.inr (.inl (hds b hb)))
    · rw [(List.cons.inj e).1]
      exact .inr (.inr (.inr (.inr minus)))
  · obtain ⟨s, ds, fs, e, rfl | rfl, hds, -⟩ := matches_decimal.mp h
    · cases ds with
      | nil =>
        rw [(List.cons.inj e).1]
        exact .inr (.inr (.inr (.inr point)))
      | cons d ds =>
        rw [(List.cons.inj e).1]
        exact .inr (.inr (.inl (hds d List.mem_cons_self)))
    · rw [(List.cons.inj e).1]
      exact .inr (.inr (.inr (.inr minus)))
  · exact .inr (.inl (matches_word.mp h).2)
  · exact .inr (.inr (.inr (.inl ((matches_blanks.mp h).2 b List.mem_cons_self))))

/-- What starts with a double quote has another one. -/
theorem quote_of_matches (hr : r ∈ lexicon) (h : r.pattern.Matches ('"'.toUInt8 :: w)) : '"'.toUInt8 ∈ w := by
  rcases start_of_matches hr h with ⟨-, hq⟩ | hletters | hdigit | hblank | hliteral
  · exact hq
  · exact absurd (hletters _ List.mem_cons_self) (by decide)
  · exact absurd hdigit (by decide)
  · exact absurd hblank (by decide)
  · exact absurd hliteral (by decide +kernel)

theorem recognizes_word (hne : w ≠ []) (h : ∀ b ∈ w, isLetter b = true) : lexicon.Recognizes w :=
  ⟨.word .ident, mem_lexicon.mpr (by simp), matches_word.mpr ⟨hne, h⟩⟩

/-- A run of letters at the front is a match. -/
theorem recognizes_run (hrun : t.takeWhile isLetter ≠ []) :
    lexicon.Recognizes (t.take (t.takeWhile isLetter).length) := by
  rw [← List.prefix_iff_eq_take.mp (List.takeWhile_prefix isLetter)]
  exact recognizes_word hrun fun _ hx => List.mem_takeWhile_imp hx

/-- All starts but the quote are lexemes alone. -/
theorem recognizes_start (hr : r ∈ lexicon) (h : r.pattern.Matches (b :: w)) :
    b = '"'.toUInt8 ∨ lexicon.Recognizes [b] := by
  rcases start_of_matches hr h with ⟨hq, -⟩ | hletters | hdigit | hblank | ⟨j, hj, hname⟩
  · exact .inl hq
  · exact .inr (recognizes_word (List.cons_ne_nil _ _) (by simpa using hletters b List.mem_cons_self))
  · refine .inr ⟨_, mem_lexicon.mpr (.inr (.inr (.inl rfl))), matches_integer.mpr ⟨[], [b], rfl, .inl rfl, ?_⟩⟩
    exact ⟨List.cons_ne_nil _ _, by simpa [Digits] using hdigit⟩
  · refine .inr ⟨.blanks, mem_lexicon.mpr (by simp), matches_blanks.mpr ⟨List.cons_ne_nil _ _, ?_⟩⟩
    simpa using hblank
  · refine .inr ⟨_, mem_lexicon.mpr (.inl ⟨j, List.mem_append_right _ hj, rfl⟩), ?_⟩
    exact matches_exactly.mpr hname.symm

/-- Only words start with a letter. -/
theorem letters_of_matches (hr : r ∈ lexicon) (h : r.pattern.Matches (b :: w)) (hb : isLetter b = true) :
    ∀ x ∈ b :: w, isLetter x = true := by
  rcases start_of_matches hr h with ⟨rfl, -⟩ | hletters | hdigit | hblank | ⟨j, hj, hname⟩
  · exact absurd hb (by decide)
  · exact hletters
  · exact absurd hb (not_isLetter_of_isDigit hdigit)
  · exact absurd hb (not_isLetter_of_isBlank hblank)
  · have punctuation : ∀ j ∈ literals, j.name.all isLetter = false := by decide +kernel
    have hall := punctuation j hj
    rw [hname] at hall
    simp [hb] at hall

end Token

namespace Lexicon

variable {lex : Lexicon} {r r' : Rule} {n : Nat}

def Matchable (lex : Lexicon) (t : Text) : Prop := ∃ j, 0 < j ∧ j ≤ t.length ∧ lex.Recognizes (t.take j)

theorem Best.matchable (h : lex.Best t t.length (some (n, r))) : lex.Matchable t := by
  obtain ⟨hpos, hle, ⟨before, after, hl, hm, -⟩, -⟩ := h
  refine ⟨n, hpos, hle, r, ?_, hm⟩
  rw [hl]
  simp

theorem exists_best {k : Option Kind} (h : (munch lex t).best.map (fun x => (x.1, x.2.kind)) = some (n, k)) :
    ∃ r, lex.Best t t.length (some (n, r)) ∧ r.kind = k := by
  have hbest := munch_best_longest lex t
  obtain ⟨x, hx, hnr⟩ := Option.map_eq_some_iff.mp h
  obtain ⟨rfl, hkind⟩ := Prod.mk.inj hnr
  rw [hx] at hbest
  exact ⟨x.2, hbest, hkind⟩

/-- No match at the front is longer than the longest one. -/
theorem Best.le_of_recognizes {j : Nat} (h : lex.Best t t.length (some (n, r))) (hj : j ≤ t.length)
    (hw : lex.Recognizes (t.take j)) : j ≤ n := by
  obtain ⟨-, -, -, hlong⟩ := h
  exact Nat.le_of_not_lt fun hlt => hlong j hlt hj hw

/-- There is only one first rule. -/
theorem Takes.unique (h : lex.Takes r w) (h' : lex.Takes r' w) : r = r' := by
  obtain ⟨before, after, hl, hm, hb⟩ := h
  obtain ⟨before', after', hl', hm', hb'⟩ := h'
  rw [hl] at hl'
  rcases List.append_eq_append_iff.mp hl' with ⟨mid, hmid, hrest⟩ | ⟨mid, hmid, hrest⟩
  · cases mid with
    | nil => exact (List.cons.inj hrest).1
    | cons s mid =>
      rw [(List.cons.inj hrest).1] at hm
      exact absurd hm (hb' s (hmid ▸ by simp))
  · cases mid with
    | nil => exact (List.cons.inj hrest).1.symm
    | cons s mid =>
      rw [(List.cons.inj hrest).1] at hm'
      exact absurd hm' (hb s (hmid ▸ by simp))

end Lexicon

namespace Token

open Lexicon (Best Matchable Takes Cursor Next Reads tokenOf)

variable {r : Rule} {n : Nat} {k : Kind}

/-- Where letters stand, the whole run of them is taken. -/
theorem take_eq_letters (h : lexicon.Best t t.length (some (n, r))) (hrun : t.takeWhile isLetter ≠ []) :
    t.take n = t.takeWhile isLetter := by
  obtain ⟨hpos, hle, htakes, -⟩ := id h
  have hletters : ∀ x ∈ t.take n, isLetter x = true := by
    obtain ⟨m, rfl⟩ : ∃ m, n = m + 1 := ⟨n - 1, by omega⟩
    cases t with
    | nil => exact absurd rfl hrun
    | cons b t =>
      have hb : isLetter b = true := by
        by_contra hb
        exact hrun (List.takeWhile_cons_of_neg hb)
      have hr := htakes.mem
      obtain ⟨_, _, _, hm, _⟩ := htakes
      exact letters_of_matches hr hm hb
  have hsplit : t.takeWhile isLetter = t.take n ++ (t.drop n).takeWhile isLetter := by
    conv => lhs; rw [← List.take_append_drop n t]
    exact List.takeWhile_append_of_pos hletters
  -- the run is a word, so it is not longer than the longest match
  have hlong := h.le_of_recognizes (List.takeWhile_sublist _).length_le (recognizes_run hrun)
  have hlen := congrArg List.length hsplit
  rw [List.length_append, List.length_take_of_le hle] at hlen
  have hnil : (t.drop n).takeWhile isLetter = [] := List.eq_nil_of_length_eq_zero (by omega)
  rw [hsplit, hnil, List.append_nil]

theorem keyword_letters (hk : k ∈ keywords) : k.name ≠ [] ∧ ∀ b ∈ k.name, isLetter b = true := by
  have names : ∀ j ∈ keywords, j.name ≠ [] ∧ ∀ b ∈ j.name, isLetter b = true := by decide +kernel
  exact names k hk

/-- The rule of a keyword or literal is the first that matches it. -/
theorem takes_fixed (hk : k ∈ keywords ++ literals) : lexicon.Takes (.exactly k.name k) k.name := by
  obtain ⟨before, after, hsplit⟩ := List.append_of_mem hk
  obtain ⟨rest, hrest⟩ : ∃ rest, lexicon = (keywords ++ literals).map (fun j => .exactly j.name j) ++ rest := ⟨_, rfl⟩
  rw [hsplit, List.map_append, List.append_assoc] at hrest
  refine ⟨_, _, hrest, matches_exactly.mpr rfl, fun s hs hm => ?_⟩
  obtain ⟨j, hj, rfl⟩ := List.mem_map.mp hs
  have distinct : ((keywords ++ literals).map Kind.name).Nodup := by decide +kernel
  rw [hsplit, List.map_append, List.nodup_append] at distinct
  exact distinct.2.2 j.name (List.mem_map_of_mem hj) k.name List.mem_cons_self (matches_exactly.mp hm).symm

theorem rule_of_keyword (hr : r ∈ lexicon) (hk : k ∈ keywords) (h : r.kind = some k) : r = .exactly k.name k := by
  rcases mem_lexicon.mp hr with ⟨j, -, rfl⟩ | rfl | rfl | rfl | rfl | rfl
  · cases h
    rfl
  all_goals
    cases h
  all_goals exact absurd hk (by decide)

/-- The kind of a token that a rule makes is the rule's, unless it is an error. -/
theorem kind_of_tokenOf {first : Nat} {u : Token} (h : tokenOf r first w = .token u) :
    u.kind = .error ∨ r.kind = some u.kind := by
  unfold tokenOf at h
  split at h
  · cases h
  · rename_i kind hk
    dsimp only at h
    split at h
    · cases h
      exact .inl rfl
    · cases h
      exact .inr hk

theorem tokenOf_ne_unknown (r : Rule) (first : Nat) (w : Text) (u : Token) : tokenOf r first w ≠ .unknown u := by
  intro h
  unfold tokenOf at h
  split at h
  · cases h
  · dsimp only at h
    split at h <;> cases h

/-- A keyword is read exactly where the whole run of letters is that keyword. -/
theorem keyword_iff (hk : k ∈ keywords) (first : Nat) (h : lexicon.Best t t.length (some (n, r))) :
    (∃ u, tokenOf r first (t.take n) = .token u ∧ u.kind = k) ↔ t.takeWhile isLetter = k.name := by
  obtain ⟨hne, hletters⟩ := keyword_letters hk
  have htakes : lexicon.Takes r (t.take n) := h.2.2.1
  constructor
  · rintro ⟨u, hu, rfl⟩
    have hkind : r.kind = some u.kind := by
      refine (kind_of_tokenOf hu).resolve_left fun he => ?_
      rw [he] at hk
      exact absurd hk (by decide)
    obtain rfl := rule_of_keyword htakes.mem hk hkind
    obtain ⟨_, _, _, hm, _⟩ := htakes
    have hname : t.take n = u.kind.name := matches_exactly.mp hm
    rw [← take_eq_letters h, hname]
    rw [← List.take_append_drop n t, hname, List.takeWhile_append_of_pos hletters]
    simp [hne]
  · intro hrun
    have htake := take_eq_letters h (hrun ▸ hne)
    rw [hrun] at htake
    rw [htake] at htakes ⊢
    obtain rfl := htakes.unique (takes_fixed (List.mem_append_left _ hk))
    exact ⟨_, rfl, rfl⟩

/-- Nothing matches exactly at a byte with which no rule can start, and at a double quote without a later one. -/
theorem not_matchable_iff :
    ¬ lexicon.Matchable (b :: t) ↔ (∀ w, ¬ lexicon.Recognizes (b :: w)) ∨ b = '"'.toUInt8 ∧ '"'.toUInt8 ∉ t := by
  constructor
  · intro hno
    by_cases hstart : ∀ w, ¬ lexicon.Recognizes (b :: w)
    · exact .inl hstart
    obtain ⟨w, r, hr, hm⟩ := not_forall_not.mp hstart
    obtain rfl := (recognizes_start hr hm).resolve_right fun h => hno ⟨1, Nat.one_pos, by simp, h⟩
    refine .inr ⟨rfl, fun hlater => hno ?_⟩
    obtain ⟨s, rest, rfl, hs⟩ := List.eq_append_cons_of_mem hlater
    have htake : ('"'.toUInt8 :: (s ++ '"'.toUInt8 :: rest)).take (s.length + 2) = '"'.toUInt8 :: (s ++ ['"'.toUInt8]) := by
      rw [List.take_succ_cons, List.take_length_add_append]
      rfl
    refine ⟨s.length + 2, Nat.succ_pos _, by simp, _, mem_lexicon.mpr (.inr (.inl rfl)), ?_⟩
    rw [htake]
    exact matches_quotation.mpr ⟨s, rfl, hs⟩
  · rintro hno ⟨j, hpos, hle, r, hr, hm⟩
    obtain ⟨m, rfl⟩ : ∃ m, j = m + 1 := ⟨j - 1, by omega⟩
    rw [List.take_succ_cons] at hm
    rcases hno with hstart | ⟨rfl, hquote⟩
    · exact hstart _ ⟨r, hr, hm⟩
    · exact hquote (List.mem_of_mem_take (quote_of_matches hr hm))

structure Munched (c : Cursor) (x : Next) : Prop where
  /-- If a rule matches at the front, the longest match is taken by the first rule that has it, which makes of it what its
      kind stands for. -/
  matched : lexicon.Matchable c.rest → ∃ n r, lexicon.Best c.rest c.rest.length (some (n, r)) ∧
    lexicon.next c = (x, c.skip n) ∧ Reads c.offset (c.rest.take n) r.kind x
  /-- A keyword is what the whole run of letters is. -/
  keyword : ∀ k ∈ keywords, (∃ t, x = .token t ∧ t.kind = k) ↔ c.rest.takeWhile isLetter = k.name
  unmatched : ¬ lexicon.Matchable c.rest → ∃ t, x = .unknown t ∧ t.kind = .error
  unknown : (∃ t, x = .unknown t) ↔ ∃ b t, c.rest = b :: t ∧
    ((∀ w, ¬ lexicon.Recognizes (b :: w)) ∨ b = '"'.toUInt8 ∧ '"'.toUInt8 ∉ t)

theorem munched_of_next {c c' : Cursor} {x : Next} (hne : c.rest ≠ []) (hx : lexicon.next c = (x, c')) :
    Munched c x := by
  have hunmatched : (∃ b t, c.rest = b :: t ∧ ((∀ w, ¬ lexicon.Recognizes (b :: w)) ∨ b = '"'.toUInt8 ∧ '"'.toUInt8 ∉ t)) ↔
      ¬ lexicon.Matchable c.rest := by
    constructor
    · rintro ⟨b, t, hrest, h⟩
      rw [hrest]
      exact not_matchable_iff.mpr h
    · intro h
      obtain ⟨b, t, hrest⟩ := List.exists_cons_of_ne_nil hne
      rw [hrest] at h
      exact ⟨b, t, hrest, not_matchable_iff.mp h⟩
  have hs := Lexicon.next_stands lexicon hne
  rw [hx] at hs
  cases hs with
  | matched hbest =>
    refine ⟨fun _ => ⟨_, _, hbest, hx, ?_⟩, fun k hk => keyword_iff hk c.offset hbest, absurd hbest.matchable, ?_⟩
    · have hr := hbest.2.2.1.mem
      obtain ⟨_, _, _, hm, _⟩ := hbest.2.2.1
      exact reads_tokenOf c.offset hr hm
    · rw [hunmatched]
      exact iff_of_false (fun h => tokenOf_ne_unknown _ _ _ _ h.choose_spec) (fun h => h hbest.matchable)
  | unknown hnone =>
    have hno : ¬ lexicon.Matchable c.rest := by
      rintro ⟨j, hpos, hle, hw⟩
      exact hnone j hpos hle hw
    refine ⟨fun h => absurd h hno, fun k hk => iff_of_false ?_ ?_, fun _ => ⟨_, rfl, rfl⟩, ?_⟩
    · rintro ⟨u, hu, -⟩
      cases hu
    · intro hrun
      have hletters : c.rest.takeWhile isLetter ≠ [] := hrun ▸ (keyword_letters hk).1
      exact hno ⟨_, List.length_pos_iff.mpr hletters, (List.takeWhile_sublist _).length_le, recognizes_run hletters⟩
    · rw [hunmatched]
      exact iff_of_true ⟨_, rfl⟩ hno

end Token

namespace Lexicon

/-- Every position of a trace is one in the source, before its end, where the entry is what is read there. -/
theorem Trace.mem {lex : Lexicon} {source : Text} {c d : Cursor} {x : Next} {xs : List (Cursor × Next)}
    (h : Trace lex c xs) (hc : c.In source) (hx : (d, x) ∈ xs) :
    d.In source ∧ d.rest ≠ [] ∧ ∃ d', lex.next d = (x, d') := by
  induction h with
  | done _ => cases hx
  | @read c c' y ys hne hnext _ ih =>
    rcases List.mem_cons.mp hx with e | hx
    · cases e
      exact ⟨hc, hne, c', hnext⟩
    · have hs := next_stands lex hne
      rw [hnext] at hs
      obtain ⟨n, -, hle, rfl⟩ := hs.advances
      exact ih (hc.skip hle) hx

end Lexicon

namespace Token

open Lexicon (Cursor Trace tokensOf)

/-- The tokens of a source are what is read at its positions, one after the other: at each of them the longest match, taken
    by the first rule that has it, with the text or number that it denotes. Where nothing matches there is an error. -/
theorem maximal_munch (source : Text) :
    ∃ xs, Trace lexicon (.start source) xs ∧ tokenize source = tokensOf xs ∧
      ∀ c x, (c, x) ∈ xs → c.rest ≠ [] ∧ c.rest = source.drop c.offset ∧ Munched c x := by
  obtain ⟨xs, htrace⟩ := Lexicon.exists_trace lexicon (.start source)
  refine ⟨xs, htrace, htrace.tokens lexicon_isOpen, fun c x hx => ?_⟩
  obtain ⟨hin, hne, c', hnext⟩ := htrace.mem (Cursor.in_start source) hx
  exact ⟨hne, hin.rest, munched_of_next hne hnext⟩

def beyond : Text := List.replicate 309 '9'.toUInt8 ++ ".0"

/-- The rule of decimals is the first that takes the whole of it, and yet what is made of it is an error. -/
theorem beyond_is_error :
    (∃ r, lexicon.Best beyond beyond.length (some (beyond.length, r)) ∧ r.kind = some .decimal) ∧
      (tokenize beyond).map (fun t => (t.kind, t.lexeme)) = [(.error, beyond)] := by
  refine ⟨Lexicon.exists_best ?_, ?_⟩ <;> decide +kernel

end Token

end Scriptlet

/-
  Scriptlet.Proofs.Spelling — texts that are written word by word are read as those words.

  A word is a token without its place. Whether a lexeme is read as one word hangs on what stands
  behind it: a rule must not match more. So `Spells text tail ws` says what a text is read as in front of
  another one, and words are put together by `Spells.append`.

  (1) A lexeme is read as what the first rule that matches it makes of it, if no rule matches more
      (`next_of_stops`).
  (2) Names, keywords and integers end where neither a letter nor a digit follows (`Clear`). Quotations and most
      literals end whatever follows (`stops_quotation`, `stops_ending`).
  (3) The digits of an integer are read as that integer (`denotes_ofInt`).
-/

import Mathlib.Data.List.Basic
import Scriptlet.Proofs.Classifying

namespace Scriptlet

structure Word where
  kind : Kind
  lexeme : Text
  meaning : Meaning
  deriving DecidableEq

namespace Word

/-- A keyword or a literal. -/
def fixed (k : Kind) : Word := ⟨k, k.name, .text k.name⟩

def name (x : Text) : Word := ⟨.ident, x, .text x⟩

def int (n : Int64) : Word := ⟨.int, Text.ofInt n.toInt, .int n⟩

def quotation (s : Text) : Word := ⟨.string, '"'.toUInt8 :: (s ++ ['"'.toUInt8]), .text s⟩

end Word

def Token.word (t : Token) : Word := ⟨t.kind, t.lexeme, t.meaning⟩

namespace Lexicon

variable {lex : Lexicon} {c d e : Cursor} {ts us : List Token} {w tail : Text}

/-! ## (1) One lexeme after the other -/

/-- No rule matches the text together with bytes of what follows. -/
def Stops (lex : Lexicon) (w tail : Text) : Prop := ∀ b v s, tail = b :: (v ++ s) → ¬ lex.Recognizes (w ++ b :: v)

theorem next_of_stops (k : Nat) (hw : w ≠ []) (hr : lex.Recognizes w) (h : lex.Stops w tail) :
    ∃ r, lex.Takes r w ∧ lex.next ⟨k, w ++ tail⟩ = (tokenOf r k w, ⟨k + w.length, tail⟩) := by
  have hbest := munch_best_longest lex (w ++ tail)
  have htake : (w ++ tail).take w.length = w := List.take_left
  have hle : w.length ≤ (w ++ tail).length := by simp
  rw [← htake] at hr
  rcases hb : munch lex (w ++ tail) with ⟨_ | ⟨n, r⟩, reach⟩
  · rw [hb] at hbest
    exact absurd hr (hbest w.length (List.length_pos_iff.mpr hw) hle)
  · rw [hb] at hbest
    have hlong := hbest.le_of_recognizes hle hr
    obtain ⟨-, hn, htakes, -⟩ := hbest
    have hlen : n = w.length := by
      by_contra hne
      -- a longer match would take bytes of what follows
      have hmore : (w ++ tail).take n = w ++ tail.take (n - w.length) := by
        rw [List.take_append, List.take_of_length_le hlong]
      rw [List.length_append] at hn
      cases hv : tail.take (n - w.length) with
      | nil =>
        have hzero := congrArg List.length hv
        simp only [List.length_take, List.length_nil] at hzero
        omega
      | cons b v =>
        rw [hv] at hmore
        have hsplit := (List.take_append_drop (n - w.length) tail).symm
        rw [hv] at hsplit
        obtain ⟨_, _, _, hm, _⟩ := id htakes
        exact h b v _ hsplit ⟨r, htakes.mem, hmore ▸ hm⟩
    subst hlen
    rw [htake] at htakes
    refine ⟨r, htakes, ?_⟩
    simp only [next, hb, Cursor.skip, List.take_left, List.drop_left]

/-- Reading from a cursor gives these tokens, then what reading from the other one gives. -/
def Scans (lex : Lexicon) (c : Cursor) (ts : List Token) (d : Cursor) : Prop :=
  ∀ ys, Trace lex d ys → ∃ xs, Trace lex c xs ∧ tokensOf xs = ts ++ tokensOf ys

theorem scans_nil (c : Cursor) : Scans lex c [] c := fun ys h => ⟨ys, h, rfl⟩

theorem Scans.append (h : Scans lex c ts d) (h' : Scans lex d us e) : Scans lex c (ts ++ us) e := by
  intro zs hzs
  obtain ⟨ys, hys, hus⟩ := h' zs hzs
  obtain ⟨xs, hxs, hts⟩ := h ys hys
  refine ⟨xs, hxs, ?_⟩
  rw [hts, hus, List.append_assoc]

theorem scans_next {x : Next} (hc : c.rest ≠ []) (h : lex.next c = (x, d)) : Scans lex c x.token?.toList d := by
  intro ys hys
  refine ⟨(c, x) :: ys, .read hc h hys, ?_⟩
  cases x <;> rfl

/-- A source that is read to its end has these tokens. -/
theorem Scans.tokens (ho : lex.IsOpen) {source : Text} (h : Scans lex (.start source) ts d) (hd : d.rest = []) :
    lex.tokens source = ts := by
  obtain ⟨xs, hxs, hts⟩ := h [] (.done hd)
  rw [hxs.tokens ho, hts]
  exact List.append_nil ts

end Lexicon

/-! ## The digits of integers -/

namespace Text

theorem ofNat_ne_nil (n : Nat) : ofNat n ≠ [] := by simp [ofNat, Nat.toDigits_ne_nil]

theorem toUInt8_digit {c : Char} (hc : c.isDigit = true) : isDigit c.toUInt8 = true ∧ c.toUInt8.toNat = c.toNat := by
  simp only [Char.isDigit, Bool.and_eq_true, decide_eq_true_eq, ge_iff_le] at hc
  have hlow : 48 ≤ c.toNat := hc.1
  have hhigh : c.toNat ≤ 57 := hc.2
  have hnat : c.toUInt8.toNat = c.toNat := by
    rw [Char.toUInt8, UInt32.toNat_toUInt8]
    exact Nat.mod_eq_of_lt (by change c.toNat < 256; omega)
  refine ⟨?_, hnat⟩
  simp only [isDigit, Bool.and_eq_true, decide_eq_true_eq, UInt8.le_iff_toNat_le, hnat]
  exact ⟨hlow, hhigh⟩

theorem isDigit_of_mem_ofNat {n : Nat} : ∀ b ∈ ofNat n, isDigit b = true := by
  intro b hb
  obtain ⟨c, hc, rfl⟩ := List.mem_map.mp hb
  exact (toUInt8_digit (Nat.isDigit_of_mem_toDigits (by decide) (by decide) hc)).1

theorem placeValue_ofNat (n : Nat) : placeValue (ofNat n) = n := by
  have fold (cs : List Char) (hcs : ∀ c ∈ cs, c.isDigit = true) (m : Nat) :
      (cs.map Char.toUInt8).foldl (fun n b => 10 * n + (b.toNat - '0'.toNat)) m = Nat.ofDigitChars 10 cs m := by
    induction cs generalizing m with
    | nil => rfl
    | cons c cs ih =>
      obtain ⟨hc, hcs⟩ := List.forall_mem_cons.mp hcs
      rw [List.map_cons, List.foldl_cons, ih hcs, (toUInt8_digit hc).2, Nat.ofDigitChars_cons]
  rw [← digitsValue_eq_placeValue, digitsValue, ofNat,
    fold _ fun c hc => Nat.isDigit_of_mem_toDigits (by decide) (by decide) hc]
  exact Nat.ofDigitChars_ten_toDigits

end Text

namespace Decimal

theorem denotes_ofInt (z : Int) : Denotes (Text.ofInt z) z := by
  cases z with
  | ofNat n =>
    have h := Denotes.plain (Text.ofNat_ne_nil n) Text.isDigit_of_mem_ofNat
    rw [Text.placeValue_ofNat] at h
    exact h
  | negSucc n =>
    have h := Denotes.minus (Text.ofNat_ne_nil (n + 1)) Text.isDigit_of_mem_ofNat
    rw [Text.placeValue_ofNat] at h
    exact h

theorem Denotes.matches_integer {t : Text} {z : Int} (h : Denotes t z) : Pattern.Matches .integer t := by
  cases h with
  | plain hne hds => exact Pattern.matches_integer.mpr ⟨[], _, rfl, .inl rfl, hne, hds⟩
  | minus hne hds => exact Pattern.matches_integer.mpr ⟨['-'.toUInt8], _, rfl, .inr rfl, hne, hds⟩

theorem Denotes.ne_nil {t : Text} {z : Int} (h : Denotes t z) : t ≠ [] := by
  cases h with
  | plain hne => exact hne
  | minus => exact List.cons_ne_nil _ _

end Decimal

namespace Token

open Lexicon (Takes tokenOf Scans)
open Pattern

variable {r : Rule} {w text tail : Text} {ws vs : List Word} {k : Kind}

/-- In front of the other text, the text is read as these words, wherever it starts. -/
def Spells (text tail : Text) (ws : List Word) : Prop :=
  ∀ k, ∃ ts, Scans lexicon ⟨k, text ++ tail⟩ ts ⟨k + text.length, tail⟩ ∧ ts.map word = ws

theorem spells_nil (tail : Text) : Spells [] tail [] := fun _ => ⟨[], Lexicon.scans_nil _, rfl⟩

theorem Spells.append {text' : Text} (h : Spells text (text' ++ tail) ws) (h' : Spells text' tail vs) :
    Spells (text ++ text') tail (ws ++ vs) := by
  intro k
  obtain ⟨ts, hts, rfl⟩ := h k
  obtain ⟨us, hus, rfl⟩ := h' (k + text.length)
  refine ⟨ts ++ us, ?_, List.map_append⟩
  rw [List.append_assoc, List.length_append, ← Nat.add_assoc]
  exact hts.append hus

theorem Spells.tokenize (h : Spells text [] ws) : (tokenize text).map word = ws := by
  obtain ⟨ts, hts, rfl⟩ := h 0
  rw [List.append_nil] at hts
  rw [Token.tokenize, hts.tokens lexicon_isOpen rfl]

/-- A lexeme is read as what the first rule makes of it. -/
theorem spells_lexeme (hw : w ≠ []) (hrec : lexicon.Recognizes w) (hs : lexicon.Stops w tail)
    (h : ∀ r, lexicon.Takes r w → ∀ k, (tokenOf r k w).token?.toList.map word = ws) : Spells w tail ws := by
  intro k
  obtain ⟨r, hr, hnext⟩ := Lexicon.next_of_stops k hw hrec hs
  exact ⟨_, Lexicon.scans_next (by simp [hw]) hnext, h r hr k⟩

/-! ## (2) Where lexemes end -/

/-- Neither a letter nor a digit stands in front, and no point with a digit behind it. -/
def Clear (tail : Text) : Prop := ∀ b s, tail = b :: s →
  isLetter b = false ∧ Text.isDigit b = false ∧ (b = '.'.toUInt8 → ∀ c u, s = c :: u → Text.isDigit c = false)

theorem clear_nil : Clear [] := by
  intro b s h
  cases h

variable {b : UInt8} {s : Text}

theorem clear_cons (hl : isLetter b = false) (hd : Text.isDigit b = false) (hp : b ≠ '.'.toUInt8) (s : Text) :
    Clear (b :: s) := by
  intro b' s' h
  cases h
  exact ⟨hl, hd, fun e => absurd e hp⟩

/-- A run of letters that is no keyword. -/
def isName (w : Text) : Bool := !w.isEmpty && w.all isLetter && !(keywords.map Kind.name).contains w

theorem isName_iff : isName w = true ↔ w ≠ [] ∧ (∀ b ∈ w, isLetter b = true) ∧ ∀ k ∈ keywords, w ≠ k.name := by
  simp only [isName, Bool.and_eq_true, Bool.not_eq_true', List.isEmpty_eq_false_iff, List.all_eq_true, and_assoc,
    List.contains_eq_mem, decide_eq_false_iff_not, List.mem_map, not_exists, not_and, ne_eq]
  refine and_congr_right fun _ => and_congr_right fun _ => ?_
  exact ⟨fun h k hk e => h k hk e.symm, fun h k hk e => h k hk e.symm⟩

theorem stops_letters (hne : w ≠ []) (hw : ∀ b ∈ w, isLetter b = true) (ht : Clear tail) : lexicon.Stops w tail := by
  rintro b v s rfl ⟨r, hr, hm⟩
  obtain ⟨a, w, rfl⟩ := List.exists_cons_of_ne_nil hne
  have hletters := letters_of_matches hr hm (hw a List.mem_cons_self)
  have hb := (ht b _ rfl).1
  rw [hletters b (by simp)] at hb
  cases hb

/-- The bytes of keywords and literals. -/
theorem fixed_bytes (hk : k ∈ keywords ++ literals) :
    k.name ≠ [] ∧ ∀ b ∈ k.name, b ≠ '"'.toUInt8 ∧ isBlank b = false ∧ Text.isDigit b = false := by
  have bytes : ∀ j ∈ keywords ++ literals,
      j.name ≠ [] ∧ ∀ b ∈ j.name, b ≠ '"'.toUInt8 ∧ isBlank b = false ∧ Text.isDigit b = false := by decide +kernel
  exact bytes k hk

/-- The bytes of numbers: a minus sign only stands in front. -/
theorem number_bytes (h : Matches .integer w ∨ Matches .decimal w) :
    ∀ b ∈ w, b = '-'.toUInt8 ∨ b = '.'.toUInt8 ∨ Text.isDigit b = true := by
  have sign {s : Text} (hs : IsSign s) : ∀ b ∈ s, b = '-'.toUInt8 := by
    rcases hs with rfl | rfl <;> simp
  intro b hb
  rcases h with h | h
  · obtain ⟨s, ds, rfl, hs, -, hds⟩ := matches_integer.mp h
    rcases List.mem_append.mp hb with hb | hb
    · exact .inl (sign hs b hb)
    · exact .inr (.inr (hds b hb))
  · obtain ⟨s, ds, fs, rfl, hs, hds, -, hfs⟩ := matches_decimal.mp h
    simp only [List.mem_append, List.mem_cons] at hb
    rcases hb with hb | hb | hb | hb
    · exact .inl (sign hs b hb)
    · exact .inr (.inr (hds b hb))
    · exact .inr (.inl hb)
    · exact .inr (.inr (hfs b hb))

theorem number_tail {a : UInt8} (h : Matches .integer (a :: w) ∨ Matches .decimal (a :: w)) :
    ∀ b ∈ w, b = '.'.toUInt8 ∨ Text.isDigit b = true := by
  intro b hb
  rcases h with h | h
  · obtain ⟨s, ds, e, rfl | rfl, -, hds⟩ := matches_integer.mp h
    · rw [List.nil_append] at e
      exact .inr (hds b (e ▸ List.mem_cons_of_mem a hb))
    · rw [(List.cons.inj e).2] at hb
      exact .inr (hds b hb)
  · obtain ⟨s, ds, fs, e, hs, hds, -, hfs⟩ := matches_decimal.mp h
    have hbytes : ∀ b ∈ ds ++ '.'.toUInt8 :: fs, b = '.'.toUInt8 ∨ Text.isDigit b = true := by
      intro b hb
      rcases List.mem_append.mp hb with hb | hb
      · exact .inr (hds b hb)
      · exact (List.mem_cons.mp hb).imp_right (hfs b)
    rcases hs with rfl | rfl
    · rw [List.nil_append] at e
      exact hbytes b (e ▸ List.mem_cons_of_mem a hb)
    · rw [(List.cons.inj e).2] at hb
      exact hbytes b hb

/-- Only quotations start with a double quote. -/
theorem rule_of_quote (hr : r ∈ lexicon) (h : r.pattern.Matches ('"'.toUInt8 :: w)) :
    r = { pattern := .quotation, kind := some .string, interpret := .ofQuotation } := by
  rcases mem_lexicon.mp hr with ⟨k, hk, rfl⟩ | rfl | rfl | rfl | rfl | rfl
  · have hname : '"'.toUInt8 :: w = k.name := matches_exactly.mp h
    exact absurd rfl ((fixed_bytes hk).2 '"'.toUInt8 (hname ▸ List.mem_cons_self)).1
  · rfl
  · exact absurd (number_bytes (.inl h) _ List.mem_cons_self) (by decide)
  · exact absurd (number_bytes (.inr h) _ List.mem_cons_self) (by decide)
  · exact absurd ((matches_word.mp h).2 _ List.mem_cons_self) (by decide)
  · exact absurd ((matches_blanks.mp h).2 _ List.mem_cons_self) (by decide)

theorem not_isBlank_of_number (h : b = '-'.toUInt8 ∨ b = '.'.toUInt8 ∨ Text.isDigit b = true) :
    isBlank b = false := by
  by_contra hb
  simp only [isBlank, Bool.not_eq_false, Bool.or_eq_true, beq_iff_eq] at hb
  rcases hb with ((rfl | rfl) | rfl) | rfl <;> exact absurd h (by decide)

/-- Only blanks start with a blank. -/
theorem rule_of_blank (hb : isBlank b = true) (hr : r ∈ lexicon) (h : r.pattern.Matches (b :: w)) :
    r = .blanks := by
  have clash {p : Prop} (hn : isBlank b = false) : p := absurd (hb.symm.trans hn) Bool.noConfusion
  rcases mem_lexicon.mp hr with ⟨k, hk, rfl⟩ | rfl | rfl | rfl | rfl | rfl
  · have hname : b :: w = k.name := matches_exactly.mp h
    exact clash ((fixed_bytes hk).2 b (hname ▸ List.mem_cons_self)).2.1
  · obtain ⟨s, e, -⟩ := matches_quotation.mp h
    rw [(List.cons.inj e).1] at hb
    exact absurd hb (by decide)
  · exact clash (not_isBlank_of_number (number_bytes (.inl h) b List.mem_cons_self))
  · exact clash (not_isBlank_of_number (number_bytes (.inr h) b List.mem_cons_self))
  · exact absurd ((matches_word.mp h).2 b List.mem_cons_self) (not_isLetter_of_isBlank hb)
  · rfl

/-- What has a digit in it is a number or starts with a double quote. -/
theorem number_of_digit (hb : Text.isDigit b = true) (hw : b ∈ w) (hq : ∀ s, w ≠ '"'.toUInt8 :: s)
    (hr : r ∈ lexicon) (h : r.pattern.Matches w) :
    r = { pattern := .integer, kind := some .int, interpret := fun l => (Meaning.ofInteger l).about "integer" l } ∨
    r = { pattern := .decimal, kind := some .decimal, interpret := fun l => (Meaning.ofDecimal l).about "decimal" l } := by
  rcases mem_lexicon.mp hr with ⟨k, hk, rfl⟩ | rfl | rfl | rfl | rfl | rfl
  · have hname : w = k.name := matches_exactly.mp h
    have hno := ((fixed_bytes hk).2 b (hname ▸ hw)).2.2
    rw [hb] at hno
    cases hno
  · obtain ⟨s, e, -⟩ := matches_quotation.mp h
    exact absurd e (hq _)
  · exact .inl rfl
  · exact .inr rfl
  · exact absurd ((matches_word.mp h).2 b hw) (not_isLetter_of_isDigit hb)
  · have hblank := (matches_blanks.mp h).2 b hw
    rw [not_isBlank_of_number (.inr (.inr hb))] at hblank
    cases hblank

theorem stops_quotation (s tail : Text) : lexicon.Stops ('"'.toUInt8 :: (s ++ ['"'.toUInt8])) tail := by
  rintro b v u - ⟨r, hr, hm⟩
  obtain rfl := rule_of_quote hr hm
  obtain ⟨s', e, hs'⟩ := matches_quotation.mp hm
  rw [List.cons_append, List.append_assoc] at e
  obtain ⟨-, -, hnil⟩ := (List.append_cons_inj_of_notMem hs' List.not_mem_nil).mp (List.cons.inj e).2.symm
  cases hnil

theorem stops_blanks (hne : w ≠ []) (hw : ∀ b ∈ w, isBlank b = true) (ht : ∀ b s, tail = b :: s → isBlank b = false) :
    lexicon.Stops w tail := by
  rintro b v s rfl ⟨r, hr, hm⟩
  obtain ⟨a, w, rfl⟩ := List.exists_cons_of_ne_nil hne
  obtain rfl := rule_of_blank (hw a List.mem_cons_self) hr hm
  have hb := (matches_blanks.mp hm).2 b (by simp)
  rw [ht b _ rfl] at hb
  cases hb

theorem integer_no_point {ds : Text} (hs : IsSign s) (hds : Digits ds) : '.'.toUInt8 ∉ s ++ ds := by
  intro hp
  rcases List.mem_append.mp hp with hp | hp
  · rcases hs with rfl | rfl
    · cases hp
    · exact absurd hp (by decide)
  · exact absurd (hds _ hp) (by decide)

theorem stops_integer (hw : Matches .integer w) (ht : Clear tail) : lexicon.Stops w tail := by
  rintro b v u rfl ⟨r, hr, hm⟩
  obtain ⟨hletter, hdigit, hpoint⟩ := ht b _ rfl
  obtain ⟨s, ds, rfl, hs, hne, hds⟩ := matches_integer.mp hw
  obtain ⟨d, hd⟩ := List.exists_mem_of_ne_nil ds hne
  obtain ⟨a, w, haw⟩ : ∃ a w, s ++ ds = a :: w := List.exists_cons_of_ne_nil (by simp [hne])
  have hstart : ∀ x, s ++ ds ++ b :: v ≠ '"'.toUInt8 :: x := by
    intro x e
    rw [haw] at hw e
    rw [(List.cons.inj e).1] at hw
    exact absurd (number_bytes (.inl hw) _ List.mem_cons_self) (by decide)
  have hb : b = '.'.toUInt8 := by
    have hnumber : Matches .integer (a :: (w ++ b :: v)) ∨ Matches .decimal (a :: (w ++ b :: v)) := by
      rw [← List.cons_append, ← haw]
      rcases number_of_digit (hds d hd) (by simp [hd]) hstart hr hm with rfl | rfl
      · exact .inl hm
      · exact .inr hm
    refine (number_tail hnumber b (by simp)).resolve_right fun h => ?_
    rw [hdigit] at h
    cases h
  subst hb
  rcases number_of_digit (hds d hd) (by simp [hd]) hstart hr hm with rfl | rfl
  · obtain ⟨s', ds', e, hs', -, hds'⟩ := matches_integer.mp hm
    exact integer_no_point hs' hds' (e ▸ by simp)
  · obtain ⟨s', ds', fs, e, hs', hds', hfs, hfsd⟩ := matches_decimal.mp hm
    rw [← List.append_assoc] at e
    have hpoints : '.'.toUInt8 ∉ fs := fun hp => absurd (hfsd _ hp) (by decide)
    obtain ⟨-, -, rfl⟩ := (List.append_cons_inj_of_notMem (integer_no_point hs' hds') hpoints).mp e.symm
    obtain ⟨f, fs, rfl⟩ := List.exists_cons_of_ne_nil hfs
    have hf := hpoint rfl f _ rfl
    rw [hfsd f List.mem_cons_self] at hf
    cases hf

/-- What is matched beyond a literal: the rest of a longer one, or of a number. -/
theorem beyond_literal {v : Text} (hk : k ∈ literals) (hr : r ∈ lexicon)
    (hm : r.pattern.Matches (k.name ++ b :: v)) :
    k = .assign ∧ b = '>'.toUInt8 ∨ k = .colon ∧ b = ':'.toUInt8 ∨
      (k = .minus ∨ k = .dot) ∧ (b = '.'.toUInt8 ∨ Text.isDigit b = true) := by
  have start : ∀ k ∈ literals, ∃ a ∈ k.name.head?, isLetter a = false ∧
      (a = '-'.toUInt8 ∨ a = '.'.toUInt8 ∨ Text.isDigit a = true → k = .minus ∨ k = .dot) := by decide +kernel
  obtain ⟨a, ha, hletter, hnumber⟩ := start k hk
  obtain ⟨n, hn⟩ := List.head?_eq_some_iff.mp ha
  have number (h : Matches .integer (k.name ++ b :: v) ∨ Matches .decimal (k.name ++ b :: v)) :
      (k = .minus ∨ k = .dot) ∧ (b = '.'.toUInt8 ∨ Text.isDigit b = true) := by
    rw [hn, List.cons_append] at h
    exact ⟨hnumber (number_bytes h a List.mem_cons_self), number_tail h b (by simp)⟩
  have hbytes := (fixed_bytes (List.mem_append_right keywords hk)).2 a (by simp [hn])
  rcases mem_lexicon.mp hr with ⟨j, hj, rfl⟩ | rfl | rfl | rfl | rfl | rfl
  · have longer : ∀ k ∈ literals, ∀ j ∈ keywords ++ literals, k.name <+: j.name →
        j = k ∨ k = .assign ∧ j.name = k.name ++ ['>'.toUInt8] ∨ k = .colon ∧ j.name = k.name ++ [':'.toUInt8] := by
      decide +kernel
    have hname : k.name ++ b :: v = j.name := matches_exactly.mp hm
    rcases longer k hk j hj ⟨_, hname⟩ with rfl | ⟨hk, hj⟩ | ⟨hk, hj⟩
    · have hlen := congrArg List.length hname
      simp at hlen
    · exact .inl ⟨hk, (List.cons.inj (List.append_cancel_left (hname.trans hj))).1⟩
    · exact .inr (.inl ⟨hk, (List.cons.inj (List.append_cancel_left (hname.trans hj))).1⟩)
  · obtain ⟨s, e, -⟩ := matches_quotation.mp hm
    rw [hn] at e
    exact absurd (List.cons.inj e).1 hbytes.1
  · exact .inr (.inr (number (.inl hm)))
  · exact .inr (.inr (number (.inr hm)))
  · have hall := (matches_word.mp hm).2 a (by simp [hn])
    rw [hletter] at hall
    cases hall
  · have hall := (matches_blanks.mp hm).2 a (by simp [hn])
    rw [hbytes.2.1] at hall
    cases hall

/-- The literals with which neither a longer literal nor a number starts. -/
def Ending (k : Kind) : Prop := k ∈ literals ∧ k ∉ [.assign, .colon, .minus, .dot]

instance (k : Kind) : Decidable (Ending k) := inferInstanceAs (Decidable (_ ∧ _))

theorem stops_ending (hk : Ending k) (tail : Text) : lexicon.Stops k.name tail := by
  rintro b v s - ⟨r, hr, hm⟩
  apply hk.2
  rcases beyond_literal hk.1 hr hm with ⟨rfl, -⟩ | ⟨rfl, -⟩ | ⟨rfl | rfl, -⟩ <;> simp

/-- The other literals end where a blank or a letter follows. -/
theorem stops_literal (hk : k ∈ literals) (hb : isBlank b = true ∨ isLetter b = true) :
    lexicon.Stops k.name (b :: s) := by
  rintro b' v s' e ⟨r, hr, hm⟩
  cases e
  rcases beyond_literal hk hr hm with ⟨-, rfl⟩ | ⟨-, rfl⟩ | ⟨-, rfl | hd⟩
  · exact absurd hb (by decide)
  · exact absurd hb (by decide)
  · exact absurd hb (by decide)
  · rcases hb with hb | hb
    · rw [not_isBlank_of_number (.inr (.inr hd))] at hb
      cases hb
    · exact not_isLetter_of_isDigit hd hb

/-! ## What lexemes are read as -/

theorem spells_fixed (hk : k ∈ keywords ++ literals) (hs : lexicon.Stops k.name tail) : Spells k.name tail [.fixed k] := by
  have htakes := takes_fixed hk
  refine spells_lexeme (fixed_bytes hk).1 ⟨_, htakes.mem, matches_exactly.mpr rfl⟩ hs fun r hr n => ?_
  obtain rfl := hr.unique htakes
  rfl

theorem spells_keyword (hk : k ∈ keywords) (ht : Clear tail) : Spells k.name tail [.fixed k] := by
  obtain ⟨hne, hletters⟩ := keyword_letters hk
  exact spells_fixed (List.mem_append_left _ hk) (stops_letters hne hletters ht)

theorem spells_ending (hk : Ending k) (tail : Text) : Spells k.name tail [.fixed k] :=
  spells_fixed (List.mem_append_right _ hk.1) (stops_ending hk tail)

theorem spells_literal (hk : k ∈ literals) (hb : isBlank b = true ∨ isLetter b = true) :
    Spells k.name (b :: s) [.fixed k] := spells_fixed (List.mem_append_right _ hk) (stops_literal hk hb)

/-- Names are taken by the rule of names. -/
theorem rule_of_name (hw : isName w = true) (hr : r ∈ lexicon) (hm : r.pattern.Matches w) : r = .word .ident := by
  obtain ⟨hne, hletters, hkey⟩ := isName_iff.mp hw
  obtain ⟨a, ha⟩ := List.exists_mem_of_ne_nil w hne
  have hletter := hletters a ha
  have number (h : a = '-'.toUInt8 ∨ a = '.'.toUInt8 ∨ Text.isDigit a = true) : isLetter a = false := by
    rcases h with rfl | rfl | h
    · decide
    · decide
    · exact Bool.eq_false_iff.mpr (not_isLetter_of_isDigit h)
  have clash {p : Prop} (hn : isLetter a = false) : p := absurd (hletter.symm.trans hn) Bool.noConfusion
  rcases mem_lexicon.mp hr with ⟨k, hk, rfl⟩ | rfl | rfl | rfl | rfl | rfl
  · have hname : w = k.name := matches_exactly.mp hm
    rcases List.mem_append.mp hk with hk | hk
    · exact absurd hname (hkey k hk)
    · have punctuation : ∀ j ∈ literals, ∀ b ∈ j.name, isLetter b = false := by decide +kernel
      exact clash (punctuation k hk a (hname ▸ ha))
  · obtain ⟨s, rfl, -⟩ := matches_quotation.mp hm
    exact absurd (hletters _ List.mem_cons_self) (by decide)
  · exact clash (number (number_bytes (.inl hm) a ha))
  · exact clash (number (number_bytes (.inr hm) a ha))
  · rfl
  · exact absurd hletter (not_isLetter_of_isBlank ((matches_blanks.mp hm).2 a ha))

theorem spells_name (hw : isName w = true) (ht : Clear tail) : Spells w tail [.name w] := by
  obtain ⟨hne, hletters, hkey⟩ := isName_iff.mp hw
  refine spells_lexeme hne (recognizes_word hne hletters) (stops_letters hne hletters ht) fun r hr n => ?_
  have hmem := hr.mem
  obtain ⟨_, _, _, hm, _⟩ := hr
  obtain rfl := rule_of_name hw hmem hm
  rfl

theorem spells_blanks (hne : w ≠ []) (hw : ∀ b ∈ w, isBlank b = true) (ht : ∀ b s, tail = b :: s → isBlank b = false) :
    Spells w tail [] := by
  refine spells_lexeme hne ⟨.blanks, mem_lexicon.mpr (by simp), matches_blanks.mpr ⟨hne, hw⟩⟩
    (stops_blanks hne hw ht) fun r hr n => ?_
  have hmem := hr.mem
  obtain ⟨_, _, _, hm, _⟩ := hr
  obtain ⟨a, w, rfl⟩ := List.exists_cons_of_ne_nil hne
  obtain rfl := rule_of_blank (hw a List.mem_cons_self) hmem hm
  rfl

theorem spells_quotation (hs : '"'.toUInt8 ∉ s) (tail : Text) :
    Spells ('"'.toUInt8 :: (s ++ ['"'.toUInt8])) tail [.quotation s] := by
  have hrec : lexicon.Recognizes ('"'.toUInt8 :: (s ++ ['"'.toUInt8])) :=
    ⟨_, mem_lexicon.mpr (.inr (.inl rfl)), matches_quotation.mpr ⟨s, rfl, hs⟩⟩
  refine spells_lexeme (List.cons_ne_nil _ _) hrec (stops_quotation s tail) fun r hr n => ?_
  have hmem := hr.mem
  obtain ⟨_, _, _, hm, _⟩ := hr
  obtain rfl := rule_of_quote hmem hm
  simp [tokenOf, Meaning.ofQuotation, Lexicon.Next.token?, word, Word.quotation]

/-- The digits of an integer are taken by the rule of integers. -/
theorem rule_of_integer (hw : Matches .integer w) (hr : r ∈ lexicon) (hm : r.pattern.Matches w) :
    r = { pattern := .integer, kind := some .int, interpret := fun l => (Meaning.ofInteger l).about "integer" l } := by
  have hstart : ∀ s, w ≠ '"'.toUInt8 :: s := by
    rintro s rfl
    exact absurd (number_bytes (.inl hw) _ List.mem_cons_self) (by decide)
  obtain ⟨s, ds, rfl, hs, hne, hds⟩ := matches_integer.mp hw
  obtain ⟨d, hd⟩ := List.exists_mem_of_ne_nil ds hne
  refine (number_of_digit (hds d hd) (List.mem_append_right s hd) hstart hr hm).resolve_right ?_
  rintro rfl
  obtain ⟨s', ds', fs, e, -⟩ := matches_decimal.mp hm
  exact integer_no_point hs hds (e ▸ by simp)

theorem spells_int (n : Int64) (ht : Clear tail) : Spells (Text.ofInt n.toInt) tail [.int n] := by
  have hdenotes := Decimal.denotes_ofInt n.toInt
  have hm := hdenotes.matches_integer
  refine spells_lexeme hdenotes.ne_nil ⟨_, mem_lexicon.mpr (.inr (.inr (.inl rfl))), hm⟩ (stops_integer hm ht)
    fun r hr k => ?_
  have hmem := hr.mem
  obtain ⟨_, _, _, hrm, _⟩ := hr
  obtain rfl := rule_of_integer hm hmem hrm
  obtain ⟨z, hz, hx⟩ := reads_integer k hm
  have hzn : z = n.toInt :=
    Option.some.inj ((Decimal.readInt?_of_denotes hz).symm.trans (Decimal.readInt?_of_denotes hdenotes))
  subst hzn
  rw [if_pos ⟨n.le_toInt, by have := n.toInt_lt; omega⟩] at hx
  obtain ⟨m, hmn, hx⟩ := hx
  rw [hx, Int64.toInt_inj.mp hmn]
  rfl

end Token

end Scriptlet

/-
  Scriptlet.Proofs.FrontEnd — every text is a program that can be compiled, or has a syntax error.

  (1) A token is never called a string, an integer or a decimal without the value that goes with it: a
      number out of range is an error token (`valued_tokenize`). So the parser always finds the value that it
      looks for.
  (2) So every fault is one of the text (`genuine_of_blames`). What is parsed has no hole, only the four operators, and
      assigns to identifiers only, so every compiler accepts it (`source_total`).
-/

import Scriptlet.Proofs.Lowering
import Scriptlet.Proofs.RoundTrip

namespace Scriptlet

namespace Token

open Lexicon (Reads)

/-! ## (1) Values -/

structure Valued (t : Token) : Prop where
  string : t.kind = .string → ∃ s, t.lexeme = '"'.toUInt8 :: (s ++ ['"'.toUInt8]) ∧ t.meaning = .text s
  int : t.kind = .int → ∃ n : Int64, Decimal.Denotes t.lexeme n.toInt ∧ t.meaning = .int n
  decimal : t.kind = .decimal → ∃ x, t.meaning = .float x

theorem valued_tokenize {src : Text} {t : Token} (h : t ∈ tokenize src) : t.Valued := by
  -- what the rule of its kind makes of the lexeme
  have reads {k : Kind} (hk : t.kind = k) (hne : k ≠ .error) :
      ∃ first, Reads first t.lexeme (some k) (.token t) := by
    obtain ⟨r, n, htakes, htoken⟩ := exists_takes h (hk ▸ hne)
    have hkind := (kind_of_tokenOf htoken).resolve_left (hk ▸ hne)
    have hmem := htakes.mem
    obtain ⟨_, _, _, hm, _⟩ := htakes
    have hreads := reads_tokenOf n hmem hm
    rw [hkind, hk, htoken] at hreads
    exact ⟨n, hreads⟩
  -- a number out of range is no number
  have inRange {k : Kind} {what reader : Text} {first : Nat} {p : Prop} (hk : t.kind = k) (hne : k ≠ .error)
      (ht : Lexicon.Next.token t = Lexicon.outOfRange what reader first t.lexeme) : p := by
    exact absurd (hk.symm.trans (congrArg Token.kind (Lexicon.Next.token.inj ht))) hne
  refine ⟨fun hk => ?_, fun hk => ?_, fun hk => ?_⟩
  · obtain ⟨n, s, hlexeme, ht⟩ := reads hk (by decide)
    exact ⟨s, hlexeme, congrArg Token.meaning (Lexicon.Next.token.inj ht)⟩
  · obtain ⟨n, z, hz, hreads⟩ := reads hk (by decide)
    rw [ite_prop_iff_or] at hreads
    obtain ⟨-, m, rfl, ht⟩ | ⟨-, ht⟩ := hreads
    · exact ⟨m, hz, congrArg Token.meaning (Lexicon.Next.token.inj ht)⟩
    · exact inRange hk (by decide) ht
  · obtain ⟨n, hreads⟩ := reads hk (by decide)
    simp only [Reads, ite_prop_iff_or] at hreads
    obtain ⟨s, ds, fs, -, -, -, -, -, ⟨-, ht⟩ | ⟨-, ht⟩⟩ := hreads
    · exact ⟨_, congrArg Token.meaning (Lexicon.Next.token.inj ht)⟩
    · exact inRange hk (by decide) ht

/-- The parser finds the value of every literal. -/
theorem Valued.exists_literal? {t : Token} (h : t.Valued) (hk : t.kind ∈ [.ident, .string, .int, .decimal]) :
    ∃ v, Parse.literal? t = some v := by
  simp only [List.mem_cons, List.not_mem_nil, or_false] at hk
  rcases hk with hk | hk | hk | hk
  · exact ⟨.ident t.lexeme, by simp [Parse.literal?, hk]⟩
  · obtain ⟨s, -, hs⟩ := h.string hk
    exact ⟨.str s, by simp [Parse.literal?, hk, hs]⟩
  · obtain ⟨n, -, hn⟩ := h.int hk
    exact ⟨.int n, by simp [Parse.literal?, hk, hn]⟩
  · obtain ⟨x, hx⟩ := h.decimal hk
    exact ⟨.float x, by simp [Parse.literal?, hk, hx]⟩

end Token

namespace Parse

/-! ## (2) Programs -/

/-- The fault is one of the text: the budget is not used up, and the parser does not miss the value of a literal. -/
def Genuine : SyntaxFault → Prop
  | .unexpected t => t.kind ∉ [.ident, .string, .int, .decimal, .lparen, .eof]
  | .expected kind t => t.kind ≠ kind
  | .tooDeep => False
  | _ => True

theorem genuine_of_blames {ts : List Token} {fault : SyntaxFault} (h : Blames ts fault) (hts : ∀ t ∈ ts, t.Valued)
    (hdeep : fault ≠ .tooDeep) : Genuine fault := by
  cases fault with
  | unexpected t =>
    obtain ⟨hhead, hparen, heof, hliteral⟩ := h
    intro hk
    have hkind : t.kind ∈ [.ident, .string, .int, .decimal] := by
      simp only [List.mem_cons, List.not_mem_nil, or_false] at hk ⊢
      tauto
    obtain ⟨v, hv⟩ := (hts t (List.mem_of_mem_head? hhead)).exists_literal? hkind
    rw [hliteral] at hv
    cases hv
  | expected kind t => exact h.2.1
  | tooDeep => exact absurd rfl hdeep
  | _ => trivial

/-- Every text has a syntax error, which is one of the text, or is a program without holes, with no operator but the four
    of the language and with nothing but identifiers assigned to, and every compiler accepts it. Every
    string, integer and decimal among the tokens has its value. -/
theorem source_total (src : Text) :
    (∀ t ∈ Token.tokenize src, t.Valued) ∧
      ((∃ e, source src = .error e ∧ Genuine e.fault) ∨
        ∃ ns, source src = .ok ns ∧
          (∀ n ∈ ns, ∀ m : Node, m.Occurs n → m.isPresent = true ∧ m.hasOperator = true ∧ m.assignsName = true) ∧
          ∀ p : Program, ∃ id q, p.compile ns = (.ok id, q)) := by
  have hvalued : ∀ t ∈ Token.tokenize src, t.Valued := fun t ht => Token.valued_tokenize ht
  refine ⟨hvalued, ?_⟩
  cases hs : source src with
  | error e =>
    refine .inl ⟨e, rfl, ?_⟩
    unfold source tokens at hs
    cases hw : wholeList (Token.tokenize src) with
    | ok ns =>
      rw [hw] at hs
      cases hs
    | error f =>
      rw [hw] at hs
      cases hs
      have hfaulty := wholeList_faulty hw
      exact genuine_of_blames hfaulty.blames (fun t ht => hvalued t (hfaulty.place.subset ht)) (hfaulty.deep trivial)
  | ok ns =>
    have hparsed : Node.everyNode (Node.isParsed fun _ => true) ns = true := source_parsed (fun _ _ _ _ => rfl) hs
    have hwhole : Node.everyNode Node.isWhole ns = true := by
      refine Node.everyNode_mono (fun n hn => ?_) hparsed
      simp only [Node.isParsed, Bool.and_eq_true] at hn
      exact hn.1.2
    refine .inr ⟨ns, rfl, fun n hn m hm => ?_, fun p => ?_⟩
    · have hcheck := Node.check_of_every (hm.every (Node.everyNode_iff.mp hparsed n hn))
      simp only [Node.isParsed, Node.isWhole, Bool.and_eq_true] at hcheck
      exact ⟨hcheck.1.2.2, hcheck.1.2.1, hcheck.1.1⟩
    · have behind : ∀ b, p.slots.length < b → p.slots.length < b := fun _ => id
      obtain ⟨q, hq, -⟩ := Lower.compile_lowered hwhole behind (Nat.lt_irrefl _)
      exact ⟨p.slots.length, q, hq⟩

end Parse

end Scriptlet

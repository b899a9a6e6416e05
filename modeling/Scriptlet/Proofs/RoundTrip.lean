/-
  Scriptlet.Proofs.RoundTrip — every node of a parsed program is read back from its text.

  (1) The names among the tokens of a source are runs of letters that are no keywords, and no string has a
      double quote in it (`formed_tokenize`).
  (2) So all nodes of a parsed program are formed (`source_formed`), and they are read back from their texts if they have
      no float, no string that quoting changes and no function of several statements (`source_of_printed`).
-/

import Scriptlet.Proofs.Rereading

namespace Scriptlet

variable {src : Text}

namespace Token

open Lexicon (Takes tokenOf)

/-! ## (1) Names and strings -/

variable {t : Token}

/-- Tokens are what the rule makes that takes their lexeme. -/
theorem exists_takes (h : t ∈ tokenize src) (hk : t.kind ≠ .error) :
    ∃ r n, lexicon.Takes r t.lexeme ∧ tokenOf r n t.lexeme = .token t := by
  obtain ⟨xs, htrace⟩ := Lexicon.exists_trace lexicon (.start src)
  rw [tokenize, htrace.tokens lexicon_isOpen, Lexicon.tokensOf] at h
  obtain ⟨⟨c, x⟩, hx, ht⟩ := List.mem_filterMap.mp h
  obtain ⟨-, hne, d, hnext⟩ := htrace.mem (Lexicon.Cursor.in_start src) hx
  have hstands := Lexicon.next_stands lexicon hne
  rw [hnext] at hstands
  cases hstands with
  | @matched n r hbest =>
    change (tokenOf r c.offset (c.rest.take n)).token? = some t at ht
    have hlexeme : t.lexeme = c.rest.take n := (Lexicon.tokenOf_token ht).1
    refine ⟨r, c.offset, hlexeme ▸ hbest.2.2.1, ?_⟩
    rw [hlexeme]
    cases hx' : tokenOf r c.offset (c.rest.take n) with
    | gap =>
      rw [hx'] at ht
      cases ht
    | token u =>
      rw [hx'] at ht
      cases ht
      rfl
    | unknown u => exact absurd hx' (tokenOf_ne_unknown r c.offset _ u)
  | unknown =>
    cases ht
    exact absurd rfl hk

theorem rule_of_ident {r : Rule} (hr : r ∈ lexicon) (hk : r.kind = some .ident) : r = .word .ident := by
  rcases mem_lexicon.mp hr with ⟨k, hkey, rfl⟩ | rfl | rfl | rfl | rfl | rfl
  · cases hk
    exact absurd hkey (by decide)
  · cases hk
  · cases hk
  · cases hk
  · rfl
  · cases hk

theorem isName_of_mem (h : t ∈ tokenize src) (hk : t.kind = .ident) : isName t.lexeme = true := by
  obtain ⟨r, n, htakes, htoken⟩ := exists_takes h (by simp [hk])
  have hkind := (kind_of_tokenOf htoken).resolve_left (by simp [hk])
  rw [hk] at hkind
  obtain rfl := rule_of_ident htakes.mem hkind
  obtain ⟨_, _, _, hm, _⟩ := id htakes
  obtain ⟨hne, hletters⟩ := Pattern.matches_word.mp hm
  refine isName_iff.mpr ⟨hne, hletters, fun k hkey e => ?_⟩
  -- a keyword is taken by its own rule
  have hfixed := takes_fixed (List.mem_append_left literals hkey)
  rw [← e] at hfixed
  have hclash := congrArg Rule.kind (htakes.unique hfixed)
  cases hclash
  exact absurd hkey (by decide)

theorem quote_not_mem {s : Text} (h : t ∈ tokenize src) (hk : t.kind = .string) (hs : t.meaning = .text s) :
    '"'.toUInt8 ∉ s := by
  obtain ⟨r, n, htakes, htoken⟩ := exists_takes h (by simp [hk])
  have hkind := (kind_of_tokenOf htoken).resolve_left (by simp [hk])
  have hmem := htakes.mem
  obtain ⟨_, _, _, hm, _⟩ := htakes
  have hreads := reads_tokenOf n hmem hm
  rw [hkind, hk, htoken] at hreads
  obtain ⟨u, hlexeme, htext⟩ := hreads
  have hmeaning : t.meaning = .text u := congrArg Token.meaning (Lexicon.Next.token.inj htext)
  obtain rfl : s = u := Meaning.text.inj (hs.symm.trans hmeaning)
  rw [hlexeme] at hm
  obtain rfl := rule_of_quote hmem hm
  obtain ⟨u, hu, hq⟩ := Pattern.matches_quotation.mp hm
  rwa [List.append_cancel_right (List.cons.inj hu).2]

/-- The identifiers and literals of a source are formed. -/
theorem formed_tokenize (src : Text) : Parse.Fine Node.isFormed (tokenize src) := by
  intro t ht v hv
  unfold Parse.literal? at hv
  split at hv
  · next hk =>
    cases hv
    exact isName_of_mem ht hk
  · next hk hs =>
    cases hv
    simpa [Node.isFormed] using quote_not_mem ht hk hs
  all_goals cases hv <;> rfl

end Token

/-- Derived nodes are formed if their identifiers and literals are. -/
theorem Node.isFormed_of_derived {n : Node} (h : n.isDerived isFormed = true) : n.isFormed = true := by
  simp only [isDerived, isParsed, Bool.and_eq_true] at h
  obtain ⟨⟨⟨⟨hassigns, hwhole⟩, hleaves⟩, hoperands⟩, htypes⟩ := h
  cases n with
  | assign l r =>
    cases l with
    | ident => rfl
    | _ => cases hassigns
  | binary op l r =>
    cases op with
    | other => cases hwhole
    | _ => exact hoperands
  | hole => cases hwhole
  | ident | int | float | str => simpa [leaves, names] using hleaves
  | call => exact hoperands
  | array | ret => rfl
  | function => simpa [leaves, names, isFormed] using hleaves
  | property => simpa [leaves, names, isFormed, hasOperands] using And.intro hoperands hleaves
  | construct => simpa [leaves, names, isFormed] using hleaves
  | «variable» => simpa [leaves, names, types, isFormed] using And.intro htypes hleaves
  | structDef =>
    simp only [leaves, names, List.map_cons, List.all_cons, Bool.and_eq_true, List.all_map, List.all_eq_true] at hleaves
    simp only [types, List.all_map, List.all_eq_true] at htypes
    simp only [isFormed, Bool.and_eq_true, List.all_eq_true]
    exact ⟨hleaves.1, fun f hf => ⟨hleaves.2 f hf, htypes f hf⟩⟩

namespace Parse

open Token (tokenize)

/-! ## (2) Programs -/

/-- All nodes of a parsed program are formed. -/
theorem source_formed {ns : List Node} (h : source src = .ok ns) : ∀ n ∈ ns, n.every Node.isFormed = true :=
  fun n hn => Node.every_mono (fun _ => Node.isFormed_of_derived) (source_good (Token.formed_tokenize src) h n hn)

/-- The text of a node that can be read is read as the node alone. -/
theorem source_legible {n : Node} (h : n.every Node.isLegible = true) : source n.source = .ok [n] := by
  have hformed : n.every Node.isFormed = true := Node.every_mono (fun v hv => by simp_all [Node.isLegible]) h
  have hwords : (tokenize n.source).map Token.word = n.words := ((Node.spelled n h).spells [] Token.clear_nil).tokenize
  have hsound : ∀ t ∈ tokenize n.source, t.kind ≠ .error := by
    intro t ht
    have hw : t.word ∈ n.words := hwords ▸ List.mem_map_of_mem ht
    have hkind := List.all_eq_true.mp (Node.words_sound n hformed) _ hw
    exact bne_iff_ne.mp hkind
  obtain ⟨e, gs, hitem⟩ := (Lookahead.rederives n h).1 (tokenize n.source) hwords
  have hscript := Lookahead.Script.item hitem (by cases e <;> decide) .nil
  rw [List.append_nil] at hscript
  unfold source tokens
  rw [Lookahead.wholeList_iff.mpr ⟨hsound, _, hscript⟩]
  rfl

/-- Printing and parsing back: the text of every node of a parsed program that has no float, no string that quoting changes
    and no function of more than one statement is parsed as a program of that node alone. -/
theorem source_of_printed {src : Text} {ns : List Node} {m n : Node} (h : source src = .ok ns) (hm : m ∈ ns)
    (hn : n.Occurs m) (hfaithful : n.every Node.isFaithful = true) : source n.source = .ok [n] := by
  have hformed := hn.every (source_formed h m hm)
  have hlegible : n.every Node.isLegible = true :=
    Node.every_of_both (fun v hv hv' => by simp [Node.isLegible, hv, hv']) n hformed hfaithful
  exact source_legible hlegible

def nestedText : Text := "f = (a, b) => \x7b return g(a.x + 2 * (b - -3), \"s\", Ball \x7b x: [1, c] \x7d) \x7d"

def nestedCall : Node :=
  .call (.ident "g")
    [.binary .add (.property (.ident "a") "x") (.binary .mul (.int 2) (.binary .sub (.ident "b") (.int (-3)))),
     .str "s", .construct "Ball" [(Text.ofString "x", .array [.int 1, .ident "c"])]]

def nestedItem : Node :=
  .assign (.ident "f") (.function [Text.ofString "a", Text.ofString "b"] [.ret (some nestedCall)])

/-- The call in the function, of which a part is printed with parentheses that the source does not have. -/
theorem source_of_printed_nested :
    source nestedText = .ok [nestedItem] ∧ nestedCall.Occurs nestedItem ∧ nestedCall.every Node.isFaithful = true ∧
      nestedCall.source = Text.ofString "g((a.x + (2 * (b - -3))), \"s\", Ball \x7b x: [1, c] \x7d)" ∧
      source nestedCall.source = .ok [nestedCall] := by
  have hsource : source nestedText = .ok [nestedItem] := rfl
  have hfaithful : nestedCall.every Node.isFaithful = true := rfl
  have hbody : nestedCall.Occurs (.ret (some nestedCall)) := .child List.mem_cons_self .root
  have hoccurs : nestedCall.Occurs nestedItem :=
    .child (List.mem_cons_of_mem _ List.mem_cons_self) (.child List.mem_cons_self hbody)
  exact ⟨hsource, hoccurs, hfaithful, rfl, source_of_printed hsource List.mem_cons_self hoccurs hfaithful⟩

-- What separates two statements is no token, and a float may be printed as an integer.
example : (source (Node.function [] [.ident "a", .ident "b"]).source).toOption.isNone = true ∧
    ((source "1.0").toOption.map fun ns => Node.sources ns) = some [Text.ofString "1"] := by
  decide +kernel

end Parse

end Scriptlet

/-
  Scriptlet.Proofs.Rereading — from the words of a node the parser reads the node.

  Elements of a list stop at the commas between them and at what closes the list, whatever they end with (`goesOn_stop`).
  So lists are put together from their elements (`list_words`), and from the words of every node that can be read the
  node is derived (`rederives`).
-/

import Scriptlet.Proofs.Printing
import Scriptlet.Proofs.Readings

namespace Scriptlet

open List (all_append mem_map all_cons map_eq_append_iff)

variable {wss : List (List Word)}

namespace Word

/-! ## Lists of words -/

def more (close : Kind) : List (List Word) → List Word
  | [] => [.fixed close]
  | ws :: wss => .fixed .comma :: listed close (ws :: wss)

theorem listed_cons (close : Kind) (ws : List Word) (wss : List (List Word)) :
    listed close (ws :: wss) = ws ++ more close wss := by
  cases wss <;> rfl

def isSound (w : Word) : Bool := w.kind != .error

theorem listed_sound {close : Kind} (hclose : (Word.fixed close).isSound = true)
    (h : ∀ ws ∈ wss, ws.all isSound = true) : (listed close wss).all isSound = true := by
  induction wss with
  | nil => simpa [listed] using hclose
  | cons ws wss ih =>
    obtain ⟨hws, hwss⟩ := List.forall_mem_cons.mp h
    rw [listed_cons, all_append, hws, Bool.true_and]
    cases wss with
    | nil => exact ih hwss
    | cons => exact ih hwss

end Word

/-- The words of a node are no errors. -/
theorem Node.words_sound : ∀ n : Node, n.every isFormed = true → n.words.all Word.isSound = true := by
  refine Node.induction_every fun n hn part => ?_
  have parts {ns : List Node} (hns : ∀ c ∈ ns, c ∈ n.children) : ∀ ws ∈ ns.map words, ws.all Word.isSound = true := by
    intro ws hws
    obtain ⟨c, hc, rfl⟩ := mem_map.mp hws
    exact part c (hns c hc)
  cases n with
  | assign l r =>
    have hl := part l (.head _)
    have hr := part r (.tail _ (.head _))
    rw [words, all_append, hl, all_cons, hr]
    rfl
  | binary op l r =>
    have hop : (Word.fixed op.kind).isSound = true := by
      cases op with
      | other => cases hn
      | _ => rfl
    have hl := part l (.head _)
    have hr := part r (.tail _ (.head _))
    rw [words, all_cons, all_append, hl, all_cons, hop, all_append, hr]
    rfl
  | construct type fs =>
    rw [words, fieldWords_eq_map]
    refine Word.listed_sound rfl fun ws hws => ?_
    obtain ⟨f, hf, rfl⟩ := mem_map.mp hws
    exact part f.2 (List.mem_map_of_mem hf)
  | array items =>
    rw [words, wordLists_eq_map]
    exact Word.listed_sound rfl (parts fun c hc => hc)
  | call callee args =>
    rw [words, wordLists_eq_map, all_append, part callee (.head _)]
    exact Word.listed_sound rfl (parts fun c hc => .tail _ hc)
  | property object x =>
    rw [words, all_append, part object (.head _)]
    rfl
  | function params body =>
    have hparams : (Word.listed .rparen (params.map fun p => [Word.name p])).all Word.isSound = true := by
      refine Word.listed_sound rfl fun ws hws => ?_
      obtain ⟨p, -, rfl⟩ := mem_map.mp hws
      rfl
    rw [words, wordLists_eq_map, all_cons, all_append, hparams]
    exact Word.listed_sound rfl (parts fun c hc => hc)
  | structDef x fs =>
    refine Word.listed_sound rfl fun ws hws => ?_
    obtain ⟨f, -, rfl⟩ := mem_map.mp hws
    rfl
  | ret v =>
    cases v with
    | none => rfl
    | some v => exact part v (.head _)
  | _ => rfl

namespace Lookahead

open Parse (kindAt Closing)
open Grammar (commas_nil)

variable {ts : List Token} {ws vs : List Word} {w : Word} {close : Kind} {t : Token} {fs : List (Text × Node)}

structure IsWord (t : Token) (w : Word) : Prop where
  kind : t.kind = w.kind
  lexeme : t.lexeme = w.lexeme
  meaning : t.meaning = w.meaning

theorem first_word (h : ts.map Token.word = w :: ws) : ∃ t us, ts = t :: us ∧ IsWord t w ∧ us.map Token.word = ws := by
  obtain ⟨t, us, rfl, rfl, hus⟩ := List.map_eq_cons_iff.mp h
  exact ⟨t, us, rfl, ⟨rfl, rfl, rfl⟩, hus⟩

theorem only_word (h : ts.map Token.word = [w]) : ∃ t, ts = [t] ∧ IsWord t w := by
  obtain ⟨t, us, rfl, ht, hus⟩ := first_word h
  exact ⟨t, by rw [List.map_eq_nil_iff.mp hus], ht⟩

/-! ## Lists of tokens -/

/-- At these tokens every item ends. -/
theorem goesOn_stop {k : Kind} (hk : k = .comma ∨ Closing k) (e : Finish) : e.goesOn k = false := by
  simp only [Closing, List.mem_cons, List.not_mem_nil, or_false] at hk
  rcases hk with rfl | rfl | rfl | rfl <;> cases e <;> decide

/-- Behind an element comes a comma with the rest of the list behind it, or the end of the list. -/
theorem more_cases (h : ts.map Token.word = Word.more close wss) :
    ∃ t us, ts = t :: us ∧ (t.kind = close ∧ ts.map Token.word = Word.listed close wss ∨
      t.kind = .comma ∧ us.map Token.word = Word.listed close wss) := by
  cases wss with
  | nil =>
    obtain ⟨t, us, rfl, ht, -⟩ := first_word h
    exact ⟨t, us, rfl, .inl ⟨ht.kind, h⟩⟩
  | cons ws wss =>
    obtain ⟨t, us, rfl, ht, hus⟩ := first_word h
    exact ⟨t, us, rfl, .inr ⟨ht.kind, hus⟩⟩

/-- A list is made of its elements, each in front of a comma or of what closes the list. -/
theorem list_words {α : Type} {L : List α → List Token → Prop} {words : α → List Word} (hnil : ∀ c, c.kind = close → L [] [c])
    (hcomma : ∀ as t ts, t.kind = .comma → L as ts → L as (t :: ts)) {as : List α}
    (hcons : ∀ a ∈ as, ∀ bs ts us, ts.map Token.word = words a → kindAt us = .comma ∨ kindAt us = close → L bs us →
      L (a :: bs) (ts ++ us)) (hts : ts.map Token.word = Word.listed close (as.map words)) : L as ts := by
  induction as generalizing ts with
  | nil =>
    obtain ⟨c, rfl, hc⟩ := only_word hts
    exact hnil c hc.kind
  | cons a as ih =>
    obtain ⟨ha, has⟩ := List.forall_mem_cons.mp hcons
    rw [List.map_cons, Word.listed_cons] at hts
    obtain ⟨us, vs, rfl, hus, hvs⟩ := map_eq_append_iff.mp hts
    obtain ⟨t, vs, rfl, ⟨ht, hvs⟩ | ⟨ht, hvs⟩⟩ := more_cases hvs
    · exact ha as us _ hus (.inr ht) (ih has hvs)
    · exact ha as us _ hus (.inl ht) (hcomma as t vs ht (ih has hvs))

theorem items_comma {vs : List Node} (ht : t.kind = .comma) (h : ∃ gs, Items close vs ts gs) :
    ∃ gs, Items close vs (t :: ts) gs := by
  obtain ⟨gs, h⟩ := h
  cases h with
  | close hcs hc => exact ⟨_, .close (hcs.cons ht) hc⟩
  | item hcs hv hstop hvs => exact ⟨_, .item (hcs.cons ht) hv hstop hvs⟩

theorem fields_comma (ht : t.kind = .comma) (h : ∃ gs, Fields fs ts gs) : ∃ gs, Fields fs (t :: ts) gs := by
  obtain ⟨gs, h⟩ := h
  cases h with
  | close hcs hc => exact ⟨_, .close (hcs.cons ht) hc⟩
  | field hcs hname hcolon hv hstop hfs => exact ⟨_, .field (hcs.cons ht) hname hcolon hv hstop hfs⟩

def Rederives (n : Node) : Prop := ∀ ts, ts.map Token.word = n.words → ∃ e gs, Item n ts e gs

def RederivesFactor (n : Node) : Prop := ∀ ts, ts.map Token.word = n.words → ∃ gs, Factor n ts gs

theorem items_words {ns : List Node} (hclose : Closing close) (h : ∀ n ∈ ns, Rederives n)
    (hts : ts.map Token.word = Word.listed close (ns.map Node.words)) : ∃ gs, Items close ns ts gs := by
  refine list_words (L := fun ns ts => ∃ gs, Items close ns ts gs) (fun c hc => ⟨_, .close commas_nil hc⟩)
    (fun _ _ _ => items_comma) (fun n hn vs ts us hts hus hvs => ?_) hts
  obtain ⟨e, gs, hv⟩ := h n hn ts hts
  obtain ⟨gs', hvs⟩ := hvs
  exact ⟨_, .item commas_nil hv (goesOn_stop (hus.imp_right (· ▸ hclose)) e) hvs⟩

theorem fields_words (h : ∀ f ∈ fs, Rederives f.2)
    (hts : ts.map Token.word = Word.listed .rbrace (fs.map fun f => .name f.1 :: .fixed .colon :: f.2.words)) :
    ∃ gs, Fields fs ts gs := by
  refine list_words (L := fun fs ts => ∃ gs, Fields fs ts gs) (fun c hc => ⟨_, .close commas_nil hc⟩)
    (fun _ _ _ => fields_comma) (fun f hf fs ts us hts hus hfs => ?_) hts
  obtain ⟨name, ts, rfl, hname, hts⟩ := first_word hts
  obtain ⟨colon, ts, rfl, hcolon, hts⟩ := first_word hts
  obtain ⟨e, gs, hv⟩ := h f hf ts hts
  obtain ⟨gs', hfs⟩ := hfs
  have hlexeme : (name.lexeme, f.2) = f := congrArg (·, f.2) hname.lexeme
  have hstop := goesOn_stop (hus.imp_right fun hk => hk ▸ (by decide : Closing .rbrace)) e
  exact hlexeme ▸ ⟨_, .field commas_nil hname.kind hcolon.kind hv hstop hfs⟩

theorem params_words {ps : List Text} (hts : ts.map Token.word = Word.listed .rparen (ps.map fun p => [.name p])) :
    ∃ gs, Params ps ts gs := by
  refine list_words (L := fun ps ts => ∃ gs, Params ps ts gs) (fun c hc => ⟨_, .close commas_nil hc⟩)
    (fun _ _ _ => params_comma) (fun p _ ps ts us hts _ hps => ?_) hts
  obtain ⟨t, rfl, ht⟩ := only_word hts
  obtain ⟨gs, hps⟩ := hps
  have hlexeme : t.lexeme = p := ht.lexeme
  exact hlexeme ▸ ⟨_, .param commas_nil ht.kind hps⟩

theorem fieldDecls_words {fs : List (Text × Text)}
    (hts : ts.map Token.word = Word.listed .rbrace (fs.map fun f => [.name f.1, .fixed .colon, .name f.2])) :
    ∃ gs, FieldDecls fs ts gs := by
  refine list_words (L := fun fs ts => ∃ gs, FieldDecls fs ts gs) (fun c hc => ⟨_, .close commas_nil hc⟩)
    (fun _ _ _ => fieldDecls_comma) (fun f _ fs ts us hts _ hfs => ?_) hts
  obtain ⟨name, ts, rfl, hname, hts⟩ := first_word hts
  obtain ⟨colon, ts, rfl, hcolon, hts⟩ := first_word hts
  obtain ⟨type, rfl, htype⟩ := only_word hts
  obtain ⟨gs, hfs⟩ := hfs
  have hlexeme : (name.lexeme, type.lexeme) = f := congrArg₂ Prod.mk hname.lexeme htype.lexeme
  exact hlexeme ▸ ⟨_, .field commas_nil hname.kind hcolon.kind htype.kind hfs⟩

theorem block_words {body : List Node} (hlen : body.length ≤ 1) (h : ∀ v ∈ body, Rederives v)
    (hts : ts.map Token.word = Word.listed .rbrace (body.map Node.words)) : ∃ gs, Block body ts gs := by
  cases body with
  | nil =>
    obtain ⟨c, rfl, hc⟩ := only_word hts
    exact ⟨_, .close hc.kind⟩
  | cons v vs =>
    obtain rfl : vs = [] := List.eq_nil_of_length_eq_zero (by simpa using hlen)
    obtain ⟨us, cs, rfl, hus, hcs⟩ := map_eq_append_iff.mp hts
    obtain ⟨c, rfl, hc⟩ := only_word hcs
    obtain ⟨e, gs, hv⟩ := h v List.mem_cons_self us hus
    have hclose : c.kind = .rbrace := hc.kind
    exact ⟨_, .item hv (goesOn_stop (.inr (show Closing c.kind from hclose ▸ by decide)) e) (.close hclose)⟩

/-! ## Nodes -/

/-- A name or a literal. -/
theorem rederives_leaf {n : Node} (hn : n.words = [w]) (hw : w.kind ≠ .lparen)
    (hv : ∀ t, IsWord t w → Parse.literal? t = some n) : RederivesFactor n := by
  intro ts hts
  obtain ⟨t, rfl, ht⟩ := only_word (hts.trans hn)
  exact ⟨_, .primary (.literal (ht.kind ▸ hw) (hv t ht))⟩

theorem rederives_binary {op : Operator} {l r : Node} (hop : op.kind ≠ .error) (hl : RederivesFactor l)
    (hr : RederivesFactor r) : RederivesFactor (.binary op l r) := by
  intro ts hts
  obtain ⟨t, us, rfl, ht, hus⟩ := first_word hts
  obtain ⟨ls, us, rfl, hls, hus⟩ := map_eq_append_iff.mp hus
  obtain ⟨o, us, rfl, ho, hus⟩ := first_word hus
  obtain ⟨rs, us, rfl, hrs, hus⟩ := map_eq_append_iff.mp hus
  obtain ⟨c, rfl, hc⟩ := only_word hus
  obtain ⟨gs, hl⟩ := hl ls hls
  obtain ⟨gs', hr⟩ := hr rs hrs
  have hsign : o.kind = op.kind := ho.kind
  have hexpr : ∃ gs, Expr (.binary op l r) (ls ++ ([o] ++ rs)) gs := by
    cases op with
    | other => exact absurd rfl hop
    | add => exact ⟨_, .sum (.factor hl) (.inl rfl) hsign (.term (.factor hr))⟩
    | sub => exact ⟨_, .sum (.factor hl) (.inr rfl) hsign (.term (.factor hr))⟩
    | mul => exact ⟨_, .term (.product hl (.inl rfl) hsign (.factor hr))⟩
    | div => exact ⟨_, .term (.product hl (.inr rfl) hsign (.factor hr))⟩
  obtain ⟨gs, hexpr⟩ := hexpr
  have hprimary := Primary.parens ht.kind hexpr hc.kind
  exact ⟨_, .primary (by simpa using hprimary)⟩

/-- From the words of a node that can be read the node is derived. -/
theorem rederives :
    ∀ n : Node, n.every Node.isLegible = true → Rederives n ∧ (n.isExpr = true → RederivesFactor n) := by
  refine Node.induction_every fun n hn part => ?_
  simp only [Node.isLegible, Bool.and_eq_true] at hn
  obtain ⟨hformed, hfaithful⟩ := hn
  have both (hfactor : RederivesFactor n) : Rederives n ∧ (n.isExpr = true → RederivesFactor n) := by
    refine ⟨fun ts hts => ?_, fun _ => hfactor⟩
    obtain ⟨gs, h⟩ := hfactor ts hts
    exact ⟨_, gs, .expr (.term (.factor h))⟩
  cases n with
  | ident x =>
    refine both (rederives_leaf rfl (by simp [Word.name]) fun t ht => ?_)
    have hkind : t.kind = .ident := ht.kind
    have hlexeme : t.lexeme = x := ht.lexeme
    simp only [Parse.literal?, hkind, hlexeme]
  | int m =>
    refine both (rederives_leaf rfl (by simp [Word.int]) fun t ht => ?_)
    have hkind : t.kind = .int := ht.kind
    have hmeaning : t.meaning = .int m := ht.meaning
    simp only [Parse.literal?, hkind, hmeaning]
  | str s =>
    refine both (rederives_leaf rfl (by simp [Word.quotation]) fun t ht => ?_)
    have hkind : t.kind = .string := ht.kind
    have hmeaning : t.meaning = .text s := ht.meaning
    simp only [Parse.literal?, hkind, hmeaning]
  | float x => cases hfaithful
  | hole => cases hformed
  | call callee args =>
    refine both fun ts hts => ?_
    rw [Node.words, Node.wordLists_eq_map] at hts
    obtain ⟨us, vs, rfl, hus, hvs⟩ := map_eq_append_iff.mp hts
    obtain ⟨t, vs, rfl, ht, hvs⟩ := first_word hvs
    obtain ⟨gs, hcallee⟩ := (part callee (.head _)).2 hformed us hus
    obtain ⟨gs', hargs⟩ := items_words (by decide) (fun v hv => (part v (.tail _ hv)).1) hvs
    exact ⟨_, .call hcallee ht.kind hargs⟩
  | property object x =>
    simp only [Node.isFormed, Bool.and_eq_true] at hformed
    refine both fun ts hts => ?_
    obtain ⟨us, vs, rfl, hus, hvs⟩ := map_eq_append_iff.mp hts
    obtain ⟨t, vs, rfl, ht, hvs⟩ := first_word hvs
    obtain ⟨u, rfl, hu⟩ := only_word hvs
    obtain ⟨gs, hobject⟩ := (part object (.head _)).2 hformed.1 us hus
    obtain rfl : u.lexeme = x := hu.lexeme
    exact ⟨_, .property hobject ht.kind hu.kind⟩
  | binary op l r =>
    have hop : op.kind ≠ .error ∧ l.isExpr = true ∧ r.isExpr = true := by
      cases op with
      | other => cases hformed
      | _ => exact ⟨by decide, by simpa [Node.isFormed] using hformed⟩
    have hl := (part l (.head _)).2 hop.2.1
    have hr := (part r (.tail _ (.head _))).2 hop.2.2
    exact both (rederives_binary hop.1 hl hr)
  | assign l r =>
    refine ⟨fun ts hts => ?_, fun he => by cases he⟩
    cases l with
    | ident x =>
      obtain ⟨t, us, rfl, ht, hus⟩ := first_word hts
      obtain ⟨u, us, rfl, hu, hus⟩ := first_word hus
      obtain ⟨e, gs, hv⟩ := (part r (.tail _ (.head _))).1 us hus
      obtain rfl : t.lexeme = x := ht.lexeme
      exact ⟨e, _, .assign ht.kind hu.kind hv⟩
    | _ => cases hformed
  | construct type fs =>
    refine ⟨fun ts hts => ?_, fun he => by cases he⟩
    rw [Node.words, Node.fieldWords_eq_map] at hts
    obtain ⟨t, us, rfl, ht, hus⟩ := first_word hts
    obtain ⟨u, us, rfl, hu, hus⟩ := first_word hus
    obtain ⟨gs, hfs⟩ := fields_words (fun f hf => (part f.2 (List.mem_map_of_mem hf)).1) hus
    obtain rfl : t.lexeme = type := ht.lexeme
    exact ⟨_, _, .construct ht.kind hu.kind hfs⟩
  | array items =>
    refine ⟨fun ts hts => ?_, fun he => by cases he⟩
    rw [Node.words, Node.wordLists_eq_map] at hts
    obtain ⟨t, us, rfl, ht, hus⟩ := first_word hts
    obtain ⟨gs, hvs⟩ := items_words (by decide) (fun v hv => (part v hv).1) hus
    exact ⟨_, _, .array ht.kind hvs⟩
  | function params body =>
    refine ⟨fun ts hts => ?_, fun he => by cases he⟩
    rw [Node.words, Node.wordLists_eq_map] at hts
    obtain ⟨t, us, rfl, ht, hus⟩ := first_word hts
    obtain ⟨ps, us, rfl, hps, hus⟩ := map_eq_append_iff.mp hus
    obtain ⟨a, us, rfl, ha, hus⟩ := first_word hus
    obtain ⟨b, us, rfl, hb, hus⟩ := first_word hus
    obtain ⟨gs, hps⟩ := params_words hps
    obtain ⟨gs', hvs⟩ := block_words (of_decide_eq_true hfaithful) (fun v hv => (part v hv).1) hus
    exact ⟨_, _, .block (.list ht.kind hps) ha.kind hb.kind hvs⟩
  | structDef x fs =>
    refine ⟨fun ts hts => ?_, fun he => by cases he⟩
    obtain ⟨t, us, rfl, ht, hus⟩ := first_word hts
    obtain ⟨u, us, rfl, hu, hus⟩ := first_word hus
    obtain ⟨b, us, rfl, hb, hus⟩ := first_word hus
    obtain ⟨gs, hfs⟩ := fieldDecls_words hus
    obtain rfl : u.lexeme = x := hu.lexeme
    exact ⟨_, _, .structDef (.inl ht.kind) hu.kind hb.kind hfs⟩
  | «variable» type x =>
    refine ⟨fun ts hts => ?_, fun he => by cases he⟩
    obtain ⟨t, us, rfl, ht, hus⟩ := first_word hts
    obtain ⟨u, rfl, hu⟩ := only_word hus
    obtain rfl : t.lexeme = type := ht.lexeme
    obtain rfl : u.lexeme = x := hu.lexeme
    exact ⟨_, _, .variable ht.kind hu.kind⟩
  | ret v =>
    refine ⟨fun ts hts => ?_, fun he => by cases he⟩
    cases v with
    | none =>
      obtain ⟨t, rfl, ht⟩ := only_word hts
      exact ⟨_, _, .ret ht.kind⟩
    | some v =>
      obtain ⟨t, us, rfl, ht, hus⟩ := first_word hts
      obtain ⟨e, gs, hv⟩ := (part v (.head _)).1 us hus
      exact ⟨e, _, .retItem ht.kind hv⟩

end Lookahead

end Scriptlet

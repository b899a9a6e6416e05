/-
  Scriptlet.Proofs.Printing — a printed node is read as its words.

  `Node.words` are the words of a node in the order in which it is printed. A node that the parser
  can make (`isFormed`), without what is not printed as it was written (`isFaithful`), is printed as text
  that is read as these words in front of everything that cannot continue its last one (`spelled`).
-/

import Scriptlet.Proofs.Encoding
import Scriptlet.Proofs.Grammar
import Scriptlet.Proofs.Spelling
import Scriptlet.Proofs.Trees

namespace Scriptlet

/-- The words of elements with commas between them, and the word that closes the list. -/
def Word.listed (close : Kind) : List (List Word) → List Word
  | [] => [.fixed close]
  | [ws] => ws ++ [.fixed close]
  | ws :: wss => ws ++ .fixed .comma :: listed close wss

namespace Node

mutual

/-- The words that the node is printed as, if they can be read. -/
def words : Node → List Word
  | .ident x => [.name x]
  | .assign l r => l.words ++ .fixed .assign :: r.words
  | .construct type fs => .name type :: .fixed .lbrace :: Word.listed .rbrace (fieldWords fs)
  | .array items => .fixed .lbracket :: Word.listed .rbracket (wordLists items)
  | .call callee args => callee.words ++ .fixed .lparen :: Word.listed .rparen (wordLists args)
  | .property object x => object.words ++ [.fixed .dot, .name x]
  | .binary op l r => .fixed .lparen :: (l.words ++ .fixed op.kind :: (r.words ++ [.fixed .rparen]))
  | .function params body =>
    .fixed .lparen :: (Word.listed .rparen (params.map fun p => [.name p]) ++
      .fixed .arrow :: .fixed .lbrace :: Word.listed .rbrace (wordLists body))
  | .structDef x fs =>
    .fixed .type :: .name x :: .fixed .lbrace ::
      Word.listed .rbrace (fs.map fun f => [.name f.1, .fixed .colon, .name f.2])
  | .variable type x => [.name type, .name x]
  | .ret none => [.fixed .return]
  | .ret (some v) => .fixed .return :: v.words
  | .int n => [.int n]
  | .str s => [.quotation s]
  | .float _ | .hole => []
termination_by structural n => n

def wordLists : List Node → List (List Word)
  | [] => []
  | n :: ns => n.words :: wordLists ns
termination_by structural ns => ns

def fieldWords : List (Text × Node) → List (List Word)
  | [] => []
  | (x, n) :: fs => (.name x :: .fixed .colon :: n.words) :: fieldWords fs
termination_by structural fs => fs

end

attribute [local simp] words source

theorem wordLists_eq_map (ns : List Node) : wordLists ns = ns.map words := by
  induction ns with
  | nil => rfl
  | cons n ns ih => rw [wordLists, ih, List.map_cons]

theorem fieldWords_eq_map (fs : List (Text × Node)) :
    fieldWords fs = fs.map fun f => .name f.1 :: .fixed .colon :: f.2.words := by
  induction fs with
  | nil => rfl
  | cons f fs ih => rw [fieldWords, ih, List.map_cons]

theorem sources_eq_map (ns : List Node) : sources ns = ns.map source := by
  induction ns with
  | nil => rfl
  | cons n ns ih => rw [sources, ih, List.map_cons]

/-! ## Nodes that can be read back -/

/-- What the parser guarantees of a node: its names are names, and its parts are what they are read as. -/
def isFormed : Node → Bool
  | .ident x => Token.isName x
  | .assign (.ident _) _ => true
  | .assign .. => false
  | .construct type fs => Token.isName type && fs.all fun f => Token.isName f.1
  | .call callee _ => callee.isExpr
  | .property object x => object.isExpr && Token.isName x
  | .binary (.other _) .. => false
  | .binary _ l r => l.isExpr && r.isExpr
  | .function params _ => params.all Token.isName
  | .structDef x fs => Token.isName x && fs.all fun f => Token.isName f.1 && Token.isName f.2
  | .variable type x => Token.isName type && Token.isName x
  | .str s => !s.contains '"'.toUInt8
  | .hole => false
  | _ => true

/-- The node is no float, no string that quoting changes and no function of several statements. -/
def isFaithful : Node → Bool
  | .float _ => false
  | .str s => s.isVerbatim
  | .function _ body => body.length ≤ 1
  | _ => true

def isLegible (n : Node) : Bool := n.isFormed && n.isFaithful

end Node

namespace Token

open Pattern (isBlank isLetter)

variable {text tail : Text} {ws vs : List Word} {x : Word} {k : Kind} {w : Text}

/-! ## Texts put together -/

def blank : Text := [' '.toUInt8]

theorem isBlank_blank : ∀ b ∈ blank, isBlank b = true := List.forall_mem_singleton.mpr (by decide)

/-- The text starts, and not with a blank. -/
def Solid (t : Text) : Prop := ∃ b s, t = b :: s ∧ isBlank b = false

theorem Solid.append (h : Solid text) (tail : Text) : Solid (text ++ tail) := by
  obtain ⟨b, s, rfl, hb⟩ := h
  exact ⟨b, s ++ tail, rfl, hb⟩

theorem solid_fixed (hk : k ∈ keywords ++ literals) : Solid k.name := by
  obtain ⟨hne, hbytes⟩ := fixed_bytes hk
  obtain ⟨b, s, hname⟩ := List.exists_cons_of_ne_nil hne
  exact ⟨b, s, hname, (hbytes b (hname ▸ List.mem_cons_self)).2.1⟩

theorem solid_name (hw : isName w = true) : Solid w := by
  obtain ⟨hne, hletters, -⟩ := isName_iff.mp hw
  obtain ⟨b, s, rfl⟩ := List.exists_cons_of_ne_nil hne
  refine ⟨b, s, rfl, ?_⟩
  by_contra hb
  exact Pattern.not_isLetter_of_isBlank (Bool.not_eq_false _ ▸ hb) (hletters b List.mem_cons_self)

theorem clear_blank (s tail : Text) : Clear (blank ++ s ++ tail) :=
  clear_cons (by decide) (by decide) (by decide) (s ++ tail)

theorem clear_fixed (hk : k ∈ literals) (hdot : k ≠ .dot) (s : Text) : Clear (k.name ++ s) := by
  have start : ∀ k ∈ literals, k ≠ .dot → ∃ b ∈ k.name.head?, isLetter b = false ∧ Text.isDigit b = false ∧
      b ≠ '.'.toUInt8 := by decide +kernel
  obtain ⟨b, hb, hl, hd, hp⟩ := start k hk hdot
  obtain ⟨n, hn⟩ := List.head?_eq_some_iff.mp hb
  rw [hn]
  exact clear_cons hl hd hp (n ++ s)

theorem clear_dot (hw : isName w = true) (s : Text) : Clear (Kind.dot.name ++ (w ++ s)) := by
  obtain ⟨hne, hletters, -⟩ := isName_iff.mp hw
  obtain ⟨c, u, rfl⟩ := List.exists_cons_of_ne_nil hne
  intro b t h
  have hname : Kind.dot.name = ['.'.toUInt8] := rfl
  rw [hname] at h
  cases h
  refine ⟨by decide, by decide, fun _ c' u' h => ?_⟩
  cases h
  by_contra hd
  exact Pattern.not_isLetter_of_isDigit (Bool.not_eq_false _ ▸ hd) (hletters c List.mem_cons_self)

theorem Spells.cons (h : Spells w (text ++ tail) [x]) (h' : Spells text tail ws) : Spells (w ++ text) tail (x :: ws) :=
  h.append h'

theorem Spells.blank (h : Spells text tail ws) (hs : Solid (text ++ tail)) : Spells (blank ++ text) tail ws := by
  have hgap : Spells Token.blank (text ++ tail) [] := by
    refine spells_blanks (List.cons_ne_nil _ _) isBlank_blank fun b s hb => ?_
    obtain ⟨b', s', hb', hsolid⟩ := hs
    rw [hb'] at hb
    cases hb
    exact hsolid
  exact hgap.append h

structure Spelled (text : Text) (ws : List Word) : Prop where
  solid : Solid text
  spells (tail : Text) : Clear tail → Spells text tail ws

theorem spelled_name (hw : isName w = true) : Spelled w [.name w] := ⟨solid_name hw, fun _ => spells_name hw⟩

theorem Spelled.append {text' : Text} (h : Spelled text ws) (hclear : ∀ tail, Clear tail → Clear (text' ++ tail))
    (h' : ∀ tail, Clear tail → Spells text' tail vs) : Spelled (text ++ text') (ws ++ vs) where
  solid := h.solid.append _
  spells tail ht := (h.spells _ (hclear tail ht)).append (h' tail ht)

theorem Spelled.cons {text' : Text} (h : Spelled text [x]) (hclear : ∀ tail, Clear tail → Clear (text' ++ tail))
    (h' : ∀ tail, Clear tail → Spells text' tail vs) : Spelled (text ++ text') (x :: vs) := h.append hclear h'

theorem Spelled.ending (hk : Ending k) (h : Spelled text ws) : Spelled (k.name ++ text) (.fixed k :: ws) where
  solid := (solid_fixed (List.mem_append_right _ hk.1)).append text
  spells tail ht := .cons (spells_ending hk _) (h.spells tail ht)

theorem Spelled.closed (hk : Ending k) (h : Spelled text ws) : Spelled (text ++ k.name) (ws ++ [.fixed k]) where
  solid := h.solid.append k.name
  spells tail _ := (h.spells _ (clear_fixed hk.1 (fun e => hk.2 (e ▸ by simp)) tail)).append (spells_ending hk tail)

/-- A literal between blanks. -/
theorem Spelled.between {text' : Text} (hk : k ∈ literals) (h : Spelled text ws) (h' : Spelled text' vs) :
    Spelled (text ++ (blank ++ (k.name ++ (blank ++ text')))) (ws ++ .fixed k :: vs) where
  solid := h.solid.append _
  spells tail ht := by
    have hright : Spells (blank ++ text') tail vs := (h'.spells tail ht).blank (h'.solid.append tail)
    have hword : Spells k.name (blank ++ text' ++ tail) [.fixed k] := spells_literal hk (.inl (by decide))
    have hsolid := (solid_fixed (List.mem_append_right keywords hk)).append (blank ++ text')
    exact (h.spells _ (clear_blank _ tail)).append ((hword.cons hright).blank (hsolid.append tail))

/-! ## Lists -/

structure Punctuation : Prop where
  opening : Text.ofString " \x7b " = blank ++ Kind.lbrace.name ++ blank
  closing : Text.ofString " \x7d" = blank ++ Kind.rbrace.name
  lparen : Text.ofString "(" = Kind.lparen.name
  rparen : Text.ofString ")" = Kind.rparen.name
  lbracket : Text.ofString "[" = Kind.lbracket.name
  rbracket : Text.ofString "]" = Kind.rbracket.name
  comma : Text.ofString ", " = Kind.comma.name ++ blank
  colon : Text.ofString ": " = Kind.colon.name ++ blank
  dot : Text.ofString "." = Kind.dot.name
  gap : Text.ofString " " = blank
  assign : Text.ofString " = " = blank ++ Kind.assign.name ++ blank
  arrow : Text.ofString ") => \x7b " = Kind.rparen.name ++ (blank ++ (Kind.arrow.name ++ (blank ++ (Kind.lbrace.name ++ blank))))
  type : Text.ofString "type " = Kind.type.name ++ blank
  «return» : Text.ofString "return" = Kind.return.name
  returned : Text.ofString "return " = Kind.return.name ++ blank

theorem punctuation : Punctuation := by constructor <;> decide +kernel

section

variable {α : Type} {f : α → Text} {g : α → List Word} {close : Kind} {closing : Text}

theorem Node.commas_cons (t u : Text) (ts : List Text) :
    Node.commas (t :: u :: ts) = t ++ (Kind.comma.name ++ (blank ++ Node.commas (u :: ts))) := by
  rw [Node.commas, Node.commas, punctuation.comma]
  simp [Text.join]

theorem solid_commas {x : α} {xs : List α} (h : Solid (f x)) : Solid (Node.commas ((x :: xs).map f)) := by
  cases xs with
  | nil => exact h
  | cons y ys =>
    rw [List.map_cons, List.map_cons, Node.commas_cons]
    exact h.append _

theorem spells_listed (xs : List α) (h : ∀ x ∈ xs, Spelled (f x) (g x)) (hclear : Clear (closing ++ tail))
    (hclosing : Spells closing tail [.fixed close]) :
    Spells (Node.commas (xs.map f) ++ closing) tail (Word.listed close (xs.map g)) := by
  induction xs with
  | nil => exact hclosing
  | cons x xs ih =>
    obtain ⟨hx, hxs⟩ := List.forall_mem_cons.mp h
    cases xs with
    | nil => exact (hx.spells _ hclear).append hclosing
    | cons y ys =>
      have hsolid : Solid (Node.commas ((y :: ys).map f)) := solid_commas (hxs y List.mem_cons_self).solid
      have hrest := (ih hxs).blank ((hsolid.append closing).append tail)
      have hcomma : Ending .comma := by decide
      rw [List.map_cons, List.map_cons, Node.commas_cons, List.append_assoc, List.append_assoc, List.append_assoc]
      refine (hx.spells _ ?_).append (Spells.cons (spells_ending hcomma _) hrest)
      exact clear_fixed hcomma.1 (by decide) _

/-- Elements between brackets or parentheses. -/
theorem spells_bracketed {opening : Kind} (ho : Ending opening) (hc : Ending close) (xs : List α)
    (h : ∀ x ∈ xs, Spelled (f x) (g x)) (tail : Text) :
    Spells (opening.name ++ (Node.commas (xs.map f) ++ close.name)) tail
      (.fixed opening :: Word.listed close (xs.map g)) := by
  have hclear := clear_fixed hc.1 (fun e => hc.2 (e ▸ by simp)) tail
  exact .cons (spells_ending ho _) (spells_listed xs h hclear (spells_ending hc tail))

/-- Elements between braces, which have blanks on their inner sides. -/
theorem spells_braced (xs : List α) (h : ∀ x ∈ xs, Spelled (f x) (g x)) (tail : Text) :
    Spells (Kind.lbrace.name ++ (blank ++ (Node.commas (xs.map f) ++ (blank ++ Kind.rbrace.name)))) tail
      (.fixed .lbrace :: Word.listed .rbrace (xs.map g)) := by
  have hopen : Ending .lbrace := by decide
  have hclose : Ending .rbrace := by decide
  refine .cons (spells_ending hopen _) ?_
  have hsolid := solid_fixed (List.mem_append_right keywords hclose.1)
  have hclosing := (spells_ending hclose tail).blank (hsolid.append tail)
  cases xs with
  | nil =>
    -- both blanks are one gap
    have hgap : Spells (blank ++ blank) (Kind.rbrace.name ++ tail) [] := by
      have hall := List.forall_mem_append.mpr ⟨isBlank_blank, isBlank_blank⟩
      refine spells_blanks (List.cons_ne_nil _ _) hall fun b s hb => ?_
      obtain ⟨b', s', hb', hnot⟩ := hsolid.append tail
      rw [hb'] at hb
      cases hb
      exact hnot
    exact hgap.append (spells_ending hclose tail)
  | cons x xs =>
    have hfirst : Solid (Node.commas ((x :: xs).map f)) := solid_commas (h x List.mem_cons_self).solid
    exact (spells_listed (x :: xs) h (clear_blank _ tail) hclosing).blank ((hfirst.append _).append tail)

end

end Token

namespace Node

open Token

/-! ## Nodes -/

theorem source_assign (l r : Node) :
    (assign l r).source = l.source ++ (blank ++ (Kind.assign.name ++ (blank ++ r.source))) := by
  rw [source, punctuation.assign]
  simp

theorem source_binary {op : Operator} (hop : op.kind ≠ .error) (l r : Node) : (binary op l r).source =
    Kind.lparen.name ++ (l.source ++ (blank ++ (op.kind.name ++ (blank ++ r.source))) ++ Kind.rparen.name) := by
  have hsymbol : Text.ofChar op.char = op.kind.name := by
    cases op with
    | other => exact absurd rfl hop
    | _ => rfl
  rw [source, punctuation.lparen, punctuation.rparen, punctuation.gap, hsymbol]
  simp

def braced (inner : Text) : Text := Kind.lbrace.name ++ (blank ++ (inner ++ (blank ++ Kind.rbrace.name)))

theorem source_construct (type : Text) (fs : List (Text × Node)) : (construct type fs).source =
    type ++ (blank ++ braced (commas (fs.map fun f => f.1 ++ (Kind.colon.name ++ (blank ++ f.2.source))))) := by
  have hfields : fieldSources fs = fs.map fun f => f.1 ++ (Kind.colon.name ++ (blank ++ f.2.source)) := by
    induction fs with
    | nil => rfl
    | cons f fs ih =>
      rw [fieldSources, ih, punctuation.colon]
      simp
  rw [source, punctuation.opening, punctuation.closing, hfields, braced]
  simp

theorem source_array (items : List Node) :
    (array items).source = Kind.lbracket.name ++ (commas (items.map source) ++ Kind.rbracket.name) := by
  rw [source, punctuation.lbracket, punctuation.rbracket, sources_eq_map, List.append_assoc]

theorem source_call (callee : Node) (args : List Node) : (call callee args).source =
    callee.source ++ (Kind.lparen.name ++ (commas (args.map source) ++ Kind.rparen.name)) := by
  rw [source, punctuation.lparen, punctuation.rparen, sources_eq_map]
  simp

theorem source_property (object : Node) (x : Text) :
    (property object x).source = object.source ++ (Kind.dot.name ++ x) := by
  rw [source, punctuation.dot, List.append_assoc]

/-- The body has at most one item, so no item is separated from another. -/
theorem source_function (params : List Text) {body : List Node} (hbody : body.length ≤ 1) :
    (function params body).source = Kind.lparen.name ++ (commas params ++ Kind.rparen.name) ++
      (blank ++ (Kind.arrow.name ++ (blank ++ braced (commas (body.map source))))) := by
  have hinner : Text.join (Text.ofString "; ") (sources body) = commas (body.map source) := by
    cases body with
    | nil => rfl
    | cons v vs =>
      cases vs with
      | nil => rfl
      | cons => simp at hbody
  rw [source, punctuation.lparen, punctuation.arrow, punctuation.closing, hinner, braced]
  simp

theorem source_structDef (x : Text) (fs : List (Text × Text)) : (structDef x fs).source =
    Kind.type.name ++ (blank ++ (x ++ (blank ++ braced (commas (fs.map fun f => f.1 ++ (Kind.colon.name ++ (blank ++ f.2))))))) := by
  rw [source, punctuation.type, punctuation.opening, punctuation.closing, punctuation.colon, braced]
  simp

/-- A brace does not start with a blank. -/
theorem solid_braced (inner : Text) : Solid (braced inner) := (solid_fixed (k := .lbrace) (by decide)).append _

variable {x : Text}

/-- A name, a colon and a value. -/
theorem spelled_field {text : Text} {ws : List Word} (hx : isName x = true) (h : Spelled text ws) :
    Spelled (x ++ (Kind.colon.name ++ (blank ++ text))) (.name x :: .fixed .colon :: ws) := by
  have hcolon : Kind.colon ∈ literals := by decide
  refine .cons (spelled_name hx) (fun tail _ => ?_) fun tail ht => ?_
  · rw [List.append_assoc]
    exact clear_fixed hcolon (by decide) _
  · have hvalue := (h.spells tail ht).blank (h.solid.append tail)
    exact .cons (spells_literal hcolon (.inl (by decide))) hvalue

theorem spelled_construct {type : Text} {fs : List (Text × Node)} (htype : isName type = true)
    (h : ∀ f ∈ fs, isName f.1 = true ∧ Spelled f.2.source f.2.words) :
    Spelled (construct type fs).source (construct type fs).words := by
  rw [source_construct, words, fieldWords_eq_map]
  refine .cons (spelled_name htype) (fun tail _ => clear_blank _ tail) fun tail _ => ?_
  refine (spells_braced fs (fun f hf => ?_) tail).blank ((solid_braced _).append tail)
  exact spelled_field (h f hf).1 (h f hf).2

theorem spelled_structDef {fs : List (Text × Text)} (hx : isName x = true)
    (h : ∀ f ∈ fs, isName f.1 = true ∧ isName f.2 = true) :
    Spelled (structDef x fs).source (structDef x fs).words := by
  rw [source_structDef, words]
  have htype : Kind.type ∈ keywords := by decide
  refine ⟨(solid_fixed (List.mem_append_left _ htype)).append _, fun tail _ => ?_⟩
  refine .cons (spells_keyword htype (clear_blank _ tail)) ?_
  have hfields := spells_braced fs (fun f hf => spelled_field (h f hf).1 (spelled_name (h f hf).2)) tail
  have hname : Spelled x [.name x] := spelled_name hx
  refine .blank (.cons (hname.spells _ (clear_blank _ tail)) ?_) ((hname.solid.append _).append tail)
  exact hfields.blank ((solid_braced _).append tail)

theorem spelled_array {items : List Node} (h : ∀ v ∈ items, Spelled v.source v.words) :
    Spelled (array items).source (array items).words := by
  have hopen : Ending .lbracket := by decide
  rw [source_array, words, wordLists_eq_map]
  refine ⟨(solid_fixed (List.mem_append_right _ hopen.1)).append _, fun tail _ => ?_⟩
  exact spells_bracketed hopen (by decide) items h tail

theorem spelled_call {callee : Node} {args : List Node} (hc : Spelled callee.source callee.words)
    (h : ∀ v ∈ args, Spelled v.source v.words) : Spelled (call callee args).source (call callee args).words := by
  have hopen : Ending .lparen := by decide
  rw [source_call, words, wordLists_eq_map]
  refine hc.append (fun tail _ => ?_) fun tail _ => spells_bracketed hopen (by decide) args h tail
  rw [List.append_assoc]
  exact clear_fixed hopen.1 (by decide) _

theorem spelled_property {object : Node} (ho : Spelled object.source object.words) (hx : isName x = true) :
    Spelled (property object x).source (property object x).words := by
  rw [source_property, words]
  refine ho.append (fun tail _ => ?_) fun tail ht => ?_
  · rw [List.append_assoc]
    exact clear_dot hx tail
  · refine .cons ?_ (spells_name hx ht)
    obtain ⟨hne, hletters, -⟩ := isName_iff.mp hx
    obtain ⟨b, s, rfl⟩ := List.exists_cons_of_ne_nil hne
    exact spells_literal (by decide) (.inr (hletters b List.mem_cons_self))

theorem spelled_binary {op : Operator} {l r : Node} (hop : op.kind ≠ .error) (hl : Spelled l.source l.words)
    (hr : Spelled r.source r.words) : Spelled (binary op l r).source (binary op l r).words := by
  have hop' : op.kind ∈ literals := by
    cases op with
    | other => exact absurd rfl hop
    | _ => decide
  have hinner := ((hl.between hop' hr).closed (k := .rparen) (by decide)).ending (k := .lparen) (by decide)
  rw [source_binary hop, words]
  simpa only [List.append_assoc, List.cons_append] using hinner

theorem spelled_function {params : List Text} {body : List Node} (hparams : ∀ p ∈ params, isName p = true)
    (hbody : body.length ≤ 1) (h : ∀ v ∈ body, Spelled v.source v.words) :
    Spelled (function params body).source (function params body).words := by
  have harrow : Ending .arrow := by decide
  have hopen : Ending .lparen := by decide
  have hclose : Ending .rparen := by decide
  rw [source_function params hbody, words, wordLists_eq_map]
  refine ⟨((solid_fixed (List.mem_append_right _ hopen.1)).append _).append _, fun tail _ => ?_⟩
  have hblock := (spells_braced body h tail).blank ((solid_braced _).append tail)
  have hsolid := solid_fixed (List.mem_append_right keywords harrow.1)
  have hright := (Token.Spells.cons (spells_ending harrow _) hblock).blank ((hsolid.append _).append tail)
  have hlist := spells_bracketed hopen hclose params fun p hp => spelled_name (hparams p hp)
  rw [List.map_id'] at hlist
  exact (hlist _).append hright

theorem spelled_variable {type : Text} (htype : isName type = true) (hx : isName x = true) :
    Spelled (Node.variable type x).source (Node.variable type x).words := by
  have hname : Spelled x [.name x] := spelled_name hx
  rw [source, punctuation.gap, List.append_assoc, words]
  refine .cons (spelled_name htype) (fun tail _ => clear_blank x tail) fun tail ht => ?_
  exact (hname.spells tail ht).blank (hname.solid.append tail)

theorem spelled_ret {v : Option Node} (h : ∀ n ∈ v, Spelled n.source n.words) :
    Spelled (ret v).source (ret v).words := by
  have hword : Kind.return ∈ keywords := by decide
  have hsolid := solid_fixed (List.mem_append_left literals hword)
  cases v with
  | none =>
    rw [source, punctuation.return, words]
    exact ⟨hsolid, fun tail ht => spells_keyword hword ht⟩
  | some n =>
    have hn : Spelled n.source n.words := h n rfl
    rw [source, punctuation.returned, List.append_assoc, words]
    refine .cons ⟨hsolid, fun tail ht => spells_keyword hword ht⟩ (fun tail _ => clear_blank _ tail)
      fun tail ht => ?_
    exact (hn.spells tail ht).blank (hn.solid.append tail)

theorem spelled_int (n : Int64) : Spelled (int n).source (int n).words := by
  refine ⟨?_, fun tail ht => spells_int n ht⟩
  have hdenotes := Decimal.denotes_ofInt n.toInt
  obtain ⟨b, s, hbs⟩ := List.exists_cons_of_ne_nil hdenotes.ne_nil
  refine ⟨b, s, hbs, not_isBlank_of_number (number_bytes (.inl hdenotes.matches_integer) b ?_)⟩
  rw [hbs]
  exact List.mem_cons_self

theorem spelled_str {s : Text} (hs : s.isVerbatim = true) (hq : '"'.toUInt8 ∉ s) :
    Spelled (str s).source (str s).words := by
  rw [source, Text.quoted_verbatim hs, words]
  exact ⟨⟨_, _, rfl, by decide⟩, fun tail _ => spells_quotation hq tail⟩

/-- A printed node is read as its words, wherever the last of them ends. -/
theorem spelled : ∀ n : Node, n.every isLegible = true → Spelled n.source n.words := by
  refine induction_every fun n hn part => ?_
  simp only [isLegible, Bool.and_eq_true] at hn
  obtain ⟨hformed, hfaithful⟩ := hn
  cases n with
  | ident x => exact spelled_name hformed
  | assign l r =>
    rw [source_assign, words]
    exact .between (by decide) (part l (.head _)) (part r (.tail _ (.head _)))
  | construct type fs =>
    simp only [isFormed, Bool.and_eq_true, List.all_eq_true] at hformed
    exact spelled_construct hformed.1 fun f hf => ⟨hformed.2 f hf, part f.2 (List.mem_map_of_mem hf)⟩
  | array items => exact spelled_array part
  | call callee args => exact spelled_call (part callee (.head _)) fun v hv => part v (.tail _ hv)
  | property object x =>
    simp only [isFormed, Bool.and_eq_true] at hformed
    exact spelled_property (part object (.head _)) hformed.2
  | binary op l r =>
    have hop : op.kind ≠ .error := by
      cases op with
      | other => cases hformed
      | _ => decide
    exact spelled_binary hop (part l (.head _)) (part r (.tail _ (.head _)))
  | function params body =>
    simp only [isFormed, List.all_eq_true] at hformed
    exact spelled_function hformed (of_decide_eq_true hfaithful) part
  | structDef x fs =>
    simp only [isFormed, Bool.and_eq_true, List.all_eq_true] at hformed
    exact spelled_structDef hformed.1 hformed.2
  | «variable» type x =>
    simp only [isFormed, Bool.and_eq_true] at hformed
    exact spelled_variable hformed.1 hformed.2
  | ret v =>
    refine spelled_ret fun c hc => part c ?_
    cases hc
    exact List.mem_singleton_self c
  | int n => exact spelled_int n
  | float x => cases hfaithful
  | str s => exact spelled_str hfaithful (by simpa [isFormed] using hformed)
  | hole => cases hformed

end Node

end Scriptlet

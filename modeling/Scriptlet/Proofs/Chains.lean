/-
  Scriptlet.Proofs.Chains — operators group to the right, products before sums.

  A chain is a factor with operators and factors behind it (`Chain`).

  (1) Its tree is said without the parser: the chain is cut at the signs of sums, each run of products is nested to the
      right, and so are the terms that result (`Chain.tree`).
  (2) The parser reads every chain as its tree, of any length, up to a token that is no operator and no suffix, and
      a chain in parentheses is a factor again (`chain_groups`). That a factor does not take the operator behind it
      for a part of itself needs no assumption.
-/

import Scriptlet.Proofs.Readings

namespace Scriptlet

namespace Lookahead

open Parse (kindAt depthBudget)

/-! ## (1) Chains and their trees -/

structure Piece where
  tokens : List Token
  node : Node
  isFactor : Parse.factor (depthBudget tokens) tokens = .ok (node, [])

structure Link where
  op : Operator
  sign : Token
  piece : Piece
  isSign : sign.kind = op.kind
  isOperator : op ∈ [.add, .sub, .mul, .div]

def Link.tokens (l : Link) : List Token := l.sign :: l.piece.tokens

def Link.cuts (l : Link) : Bool := l.op = .add || l.op = .sub

structure Chain where
  first : Piece
  links : List Link

/-- `v op₁ (w₁ op₂ (w₂ …))` -/
def nest (v : Node) : List (Operator × Node) → Node
  | [] => v
  | (op, w) :: rest => .binary op v (nest w rest)

def termNode (p : Piece) (run : List Link) : Node := nest p.node (run.map fun l => (l.op, l.piece.node))

/-- The links up to the first sign of a sum, and then each link of a sum with the links up to the next. -/
def cut : List Link → List Link × List (Link × List Link)
  | [] => ([], [])
  | l :: ls => if l.cuts then ([], (l, (cut ls).1) :: (cut ls).2) else (l :: (cut ls).1, (cut ls).2)

namespace Chain

def tokens (c : Chain) : List Token := c.first.tokens ++ c.links.flatMap Link.tokens

/-- The chain is cut at the signs of sums. Within a run, and then between the runs, operators group to the right. -/
def tree (c : Chain) : Node :=
  nest (termNode c.first (cut c.links).1) ((cut c.links).2.map fun s => (s.1.op, termNode s.1.piece s.2))

end Chain

/-! ## (2) Reading them -/

theorem Piece.derived (p : Piece) : ∃ gs, Factor p.node p.tokens gs := by
  have hreads := (Parse.reader (depthBudget p.tokens)).factor p.tokens
  rw [p.isFactor] at hreads
  obtain ⟨us, -, hus, ⟨gs, h⟩, -⟩ := hreads
  rw [List.append_nil] at hus
  exact ⟨gs, hus ▸ h⟩

theorem term_of_run (p : Piece) (run : List Link) (h : ∀ l ∈ run, l.cuts = false) :
    ∃ gs, Term (termNode p run) (p.tokens ++ run.flatMap Link.tokens) gs := by
  induction run generalizing p with
  | nil =>
    obtain ⟨gs, hp⟩ := p.derived
    exact ⟨gs, by simpa [termNode, nest] using Term.factor hp⟩
  | cons l run ih =>
    obtain ⟨hl, hrun⟩ := List.forall_mem_cons.mp h
    obtain ⟨gs, hp⟩ := p.derived
    obtain ⟨gs', hrest⟩ := ih l.piece hrun
    have hop : l.op = .mul ∨ l.op = .div := by
      have hmem := l.isOperator
      simp only [Link.cuts, Bool.or_eq_false_iff, decide_eq_false_iff_not] at hl
      simpa [hl.1, hl.2] using hmem
    have htokens : p.tokens ++ (l :: run).flatMap Link.tokens =
        p.tokens ++ ([l.sign] ++ (l.piece.tokens ++ run.flatMap Link.tokens)) := by simp [Link.tokens]
    rw [htokens]
    exact ⟨_, .product hp hop l.isSign hrest⟩

theorem expr_of_runs (p : Piece) (run : List Link) (rest : List (Link × List Link)) (hrun : ∀ l ∈ run, l.cuts = false)
    (hrest : ∀ s ∈ rest, s.1.cuts = true ∧ ∀ l ∈ s.2, l.cuts = false) :
    ∃ gs, Expr (nest (termNode p run) (rest.map fun s => (s.1.op, termNode s.1.piece s.2)))
      (p.tokens ++ run.flatMap Link.tokens ++ rest.flatMap fun s => s.1.tokens ++ s.2.flatMap Link.tokens) gs := by
  induction rest generalizing p run with
  | nil =>
    obtain ⟨gs, h⟩ := term_of_run p run hrun
    exact ⟨gs, by simpa [nest] using Expr.term h⟩
  | cons s rest ih =>
    obtain ⟨⟨hcuts, hproducts⟩, hrest⟩ := List.forall_mem_cons.mp hrest
    obtain ⟨gs, hterm⟩ := term_of_run p run hrun
    obtain ⟨gs', hexpr⟩ := ih s.1.piece s.2 hproducts hrest
    have hop : s.1.op = .add ∨ s.1.op = .sub := by
      simpa [Link.cuts] using hcuts
    have htokens : (s :: rest).flatMap (fun s => s.1.tokens ++ s.2.flatMap Link.tokens) =
        [s.1.sign] ++ (s.1.piece.tokens ++ s.2.flatMap Link.tokens ++
          rest.flatMap fun s => s.1.tokens ++ s.2.flatMap Link.tokens) := by simp [Link.tokens]
    rw [htokens]
    exact ⟨_, .sum hterm hop s.1.isSign hexpr⟩

theorem cut_spec (ls : List Link) : ls.flatMap Link.tokens =
      (cut ls).1.flatMap Link.tokens ++ ((cut ls).2.flatMap fun s => s.1.tokens ++ s.2.flatMap Link.tokens) ∧
    (∀ l ∈ (cut ls).1, l.cuts = false) ∧ ∀ s ∈ (cut ls).2, s.1.cuts = true ∧ ∀ l ∈ s.2, l.cuts = false := by
  induction ls with
  | nil => simp [cut]
  | cons l ls ih =>
    obtain ⟨htokens, hrun, hrest⟩ := ih
    unfold cut
    split
    · rename_i hl
      refine ⟨?_, List.forall_mem_nil _, List.forall_mem_cons.mpr ⟨⟨hl, hrun⟩, hrest⟩⟩
      simp [htokens]
    · rename_i hl
      refine ⟨?_, List.forall_mem_cons.mpr ⟨Bool.eq_false_iff.mpr hl, hrun⟩, hrest⟩
      simp [htokens]

theorem Chain.derived (c : Chain) : ∃ gs, Expr c.tree c.tokens gs := by
  obtain ⟨htokens, hrun, hrest⟩ := cut_spec c.links
  obtain ⟨gs, h⟩ := expr_of_runs c.first _ _ hrun hrest
  rw [List.append_assoc, ← htokens] at h
  exact ⟨gs, h⟩

theorem Finally.expr {ts : List Token} {y : Parse.Reading (Node × List Token)} {n : Nat}
    (h : Finally (fun n => Parse.expr n ts) y) (hn : depthBudget ts ≤ n) : Parse.expr n ts = y := by
  refine h.eq (fun hle => ((Parse.steady hle).expr (List.forall₂_refl ts)).settles) fun f hf => ?_
  have hends := (Parse.reader n).expr ts
  rw [hf] at hends
  exact hends.deep (by unfold depthBudget at hn; omega)

theorem Finally.factor {ts : List Token} {y : Parse.Reading (Node × List Token)} {n : Nat}
    (h : Finally (fun n => Parse.factor n ts) y) (hn : depthBudget ts ≤ n) : Parse.factor n ts = y := by
  refine h.eq (fun hle => ((Parse.steady hle).factor (List.forall₂_refl ts)).settles) fun f hf => ?_
  have hends := (Parse.reader n).factor ts
  rw [hf] at hends
  exact hends.deep (by unfold depthBudget at hn; omega)

/-- Tokens that derive a factor are one. -/
theorem Factor.read {v : Node} {ts : List Token} {gs : List Separator} (h : Factor v ts gs) :
    Parse.factor (depthBudget ts) ts = .ok (v, []) := by
  have hfinal := factor_read h [] _ (suffixes_read (by decide) v)
  rw [List.append_nil] at hfinal
  exact hfinal.factor (Nat.le_refl _)

def Piece.ofLiteral (t : Token) (v : Node) (ht : t.kind ≠ .lparen) (hv : Parse.literal? t = some v) : Piece where
  tokens := [t]
  node := v
  isFactor := Factor.read (.primary (.literal ht hv))

def Chain.grouped (c : Chain) (opening closing : Token) (ho : opening.kind = .lparen) (hc : closing.kind = .rparen) :
    Piece where
  tokens := opening :: (c.tokens ++ [closing])
  node := c.tree
  isFactor := c.derived.elim fun _ h => Factor.read (.primary (.parens ho h hc))

/-- Every chain is read as its tree: cut at the signs of sums, with the products in each part and then the parts nested to
    the right. It is read to its end, whatever token follows that is no operator and no suffix, with every budget
    that is large enough. In parentheses it is one factor, which other chains can be made with. -/
theorem chain_groups (c : Chain) :
    (∀ rest, kindAt rest ∉ exprMore → ∀ n, depthBudget (c.tokens ++ rest) ≤ n →
      Parse.expr n (c.tokens ++ rest) = .ok (c.tree, rest)) ∧
    ∀ opening closing : Token, opening.kind = .lparen → closing.kind = .rparen →
      ∃ p : Piece, p.tokens = opening :: (c.tokens ++ [closing]) ∧ p.node = c.tree := by
  obtain ⟨gs, h⟩ := c.derived
  refine ⟨fun rest hrest n hn => (expr_read h rest hrest).expr hn, fun opening closing ho hc => ?_⟩
  exact ⟨c.grouped opening closing ho hc, rfl, rfl⟩

def placeless (k : Kind) (x : Text) : Token := { kind := k, lexeme := x, span := ⟨0, 0⟩ }

def named (x : Text) : Piece := .ofLiteral (placeless .ident x) (.ident x) Kind.noConfusion rfl

/-- `a - b * (c - d + e) / f + g` -/
def sampleChain : Chain :=
  let inner : Chain := ⟨named "c", [⟨.sub, placeless .minus "-", named "d", rfl, by decide⟩,
    ⟨.add, placeless .plus "+", named "e", rfl, by decide⟩]⟩
  ⟨named "a", [⟨.sub, placeless .minus "-", named "b", rfl, by decide⟩,
    ⟨.mul, placeless .star "*", inner.grouped (placeless .lparen "(") (placeless .rparen ")") rfl rfl, rfl, by decide⟩,
    ⟨.div, placeless .slash "/", named "f", rfl, by decide⟩, ⟨.add, placeless .plus "+", named "g", rfl, by decide⟩]⟩

theorem chain_groups_sample :
    kindAt [] ∉ exprMore ∧
      Parse.expr 1000 (sampleChain.tokens ++ []) = .ok (.binary .sub (.ident "a") (.binary .add
        (.binary .mul (.ident "b") (.binary .div
          (.binary .sub (.ident "c") (.binary .add (.ident "d") (.ident "e"))) (.ident "f")))
        (.ident "g")), []) :=
  ⟨by decide, (chain_groups sampleChain).1 [] (by decide) 1000 (by decide)⟩

end Lookahead

end Scriptlet

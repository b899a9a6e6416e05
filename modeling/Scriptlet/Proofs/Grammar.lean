/-
  Scriptlet.Proofs.Grammar — which tokens stand for which tree.

  The grammar is a relation between trees and token lists (`Grammar.Item`). It knows nothing of the order in which the
  parser tries things, of lookahead or of budgets.

  Items have no terminators, and the grammar alone would allow `a b` to be two names. The parser reads as far as the
  next token lets it. The derivations in `Lookahead` say how an item ends (`Finish`), which settles at which tokens
  it goes on (`Finish.goesOn`), and an item stands in front of another one only if it stops there. They also list the
  commas between elements. Without all this they are derivations of the grammar (`Item.plain`).
-/

import Scriptlet.Syntax.Parse

namespace Scriptlet

namespace Grammar

/-! ## The grammar -/

def Commas (cs : List Token) : Prop := ∀ c ∈ cs, c.kind = .comma

inductive Params : List Text → List Token → Prop
  | close {cs : List Token} {c : Token} : Commas cs → c.kind = .rparen → Params [] (cs ++ [c])
  | param {cs ts : List Token} {p : Token} {ps : List Text} : Commas cs → p.kind = .ident → Params ps ts →
      Params (p.lexeme :: ps) (cs ++ p :: ts)

inductive FieldDecls : List (Text × Text) → List Token → Prop
  | close {cs : List Token} {c : Token} : Commas cs → c.kind = .rbrace → FieldDecls [] (cs ++ [c])
  | field {cs ts : List Token} {name colon type : Token} {fs : List (Text × Text)} : Commas cs → name.kind = .ident →
      colon.kind = .colon → type.kind = .ident → FieldDecls fs ts →
      FieldDecls ((name.lexeme, type.lexeme) :: fs) (cs ++ name :: colon :: type :: ts)

inductive StructDef : Node → List Token → Prop
  | mk {word name brace : Token} {ts : List Token} {fs : List (Text × Text)} : word.kind = .type ∨ word.kind = .struct →
      name.kind = .ident → brace.kind = .lbrace → FieldDecls fs ts →
      StructDef (.structDef name.lexeme fs) (word :: name :: brace :: ts)

inductive Head : List Text → List Token → Prop
  | name {t : Token} : t.kind = .ident → Head [t.lexeme] [t]
  | list {t : Token} {ts : List Token} {ps : List Text} : t.kind = .lparen → Params ps ts → Head ps (t :: ts)

mutual

inductive Item : Node → List Token → Prop
  | assign {name eq : Token} {ts : List Token} {v : Node} : name.kind = .ident → eq.kind = .assign → Item v ts →
      Item (.assign (.ident name.lexeme) v) (name :: eq :: ts)
  | variable {type name : Token} : type.kind = .ident → name.kind = .ident →
      Item (.variable type.lexeme name.lexeme) [type, name]
  | construct {ts : List Token} {v : Node} : Construct v ts → Item v ts
  | function {ts : List Token} {v : Node} : Function v ts → Item v ts
  | array {ts : List Token} {v : Node} : Array v ts → Item v ts
  | ret {t : Token} : t.kind = .return → Item (.ret none) [t]
  | retItem {t : Token} {ts : List Token} {v : Node} : t.kind = .return → Item v ts → Item (.ret (some v)) (t :: ts)
  | structDef {ts : List Token} {v : Node} : StructDef v ts → Item v ts
  | expr {ts : List Token} {v : Node} : Expr v ts → Item v ts

inductive Function : Node → List Token → Prop
  | block {hs ts : List Token} {arrow brace : Token} {ps : List Text} {vs : List Node} : Head ps hs →
      arrow.kind = .arrow → brace.kind = .lbrace → Block vs ts → Function (.function ps vs) (hs ++ arrow :: brace :: ts)
  | item {hs ts : List Token} {arrow : Token} {ps : List Text} {v : Node} : Head ps hs → arrow.kind = .arrow →
      Item v ts → Function (.function ps [v]) (hs ++ arrow :: ts)

inductive Block : List Node → List Token → Prop
  | close {c : Token} : c.kind = .rbrace → Block [] [c]
  | item {ts us : List Token} {v : Node} {vs : List Node} : Item v ts → Block vs us → Block (v :: vs) (ts ++ us)

inductive Construct : Node → List Token → Prop
  | mk {name brace : Token} {ts : List Token} {fs : List (Text × Node)} : name.kind = .ident → brace.kind = .lbrace →
      Fields fs ts → Construct (.construct name.lexeme fs) (name :: brace :: ts)

inductive Fields : List (Text × Node) → List Token → Prop
  | close {cs : List Token} {c : Token} : Commas cs → c.kind = .rbrace → Fields [] (cs ++ [c])
  | field {cs ts us : List Token} {name colon : Token} {v : Node} {fs : List (Text × Node)} : Commas cs →
      name.kind = .ident → colon.kind = .colon → Item v ts → Fields fs us →
      Fields ((name.lexeme, v) :: fs) (cs ++ name :: colon :: (ts ++ us))

inductive Array : Node → List Token → Prop
  | mk {bracket : Token} {ts : List Token} {vs : List Node} : bracket.kind = .lbracket → Items .rbracket vs ts →
      Array (.array vs) (bracket :: ts)

inductive Items : Kind → List Node → List Token → Prop
  | close {cs : List Token} {c : Token} {close : Kind} : Commas cs → c.kind = close → Items close [] (cs ++ [c])
  | item {cs ts us : List Token} {close : Kind} {v : Node} {vs : List Node} : Commas cs → Item v ts →
      Items close vs us → Items close (v :: vs) (cs ++ (ts ++ us))

inductive Expr : Node → List Token → Prop
  | term {ts : List Token} {v : Node} : Term v ts → Expr v ts
  | add {ts us : List Token} {op : Token} {l r : Node} : Term l ts → op.kind = .plus → Expr r us →
      Expr (.binary .add l r) (ts ++ op :: us)
  | sub {ts us : List Token} {op : Token} {l r : Node} : Term l ts → op.kind = .minus → Expr r us →
      Expr (.binary .sub l r) (ts ++ op :: us)

inductive Term : Node → List Token → Prop
  | factor {ts : List Token} {v : Node} : Factor v ts → Term v ts
  | mul {ts us : List Token} {op : Token} {l r : Node} : Factor l ts → op.kind = .star → Term r us →
      Term (.binary .mul l r) (ts ++ op :: us)
  | div {ts us : List Token} {op : Token} {l r : Node} : Factor l ts → op.kind = .slash → Term r us →
      Term (.binary .div l r) (ts ++ op :: us)

inductive Factor : Node → List Token → Prop
  | primary {ts : List Token} {v : Node} : Primary v ts → Factor v ts
  | call {ts us : List Token} {paren : Token} {v : Node} {vs : List Node} : Factor v ts → paren.kind = .lparen →
      Items .rparen vs us → Factor (.call v vs) (ts ++ paren :: us)
  | property {ts : List Token} {dot name : Token} {v : Node} : Factor v ts → dot.kind = .dot → name.kind = .ident →
      Factor (.property v name.lexeme) (ts ++ [dot, name])

inductive Primary : Node → List Token → Prop
  | ident {t : Token} : t.kind = .ident → Primary (.ident t.lexeme) [t]
  | string {t : Token} {s : Text} : t.kind = .string → t.meaning = .text s → Primary (.str s) [t]
  | int {t : Token} {n : Int64} : t.kind = .int → t.meaning = .int n → Primary (.int n) [t]
  | decimal {t : Token} {x : Binary64} : t.kind = .decimal → t.meaning = .float x → Primary (.float x) [t]
  | parens {open_ close : Token} {ts : List Token} {v : Node} : open_.kind = .lparen → Expr v ts →
      close.kind = .rparen → Primary v (open_ :: (ts ++ [close]))

end

theorem commas_nil : Commas [] := List.forall_mem_nil _

theorem Commas.cons {t : Token} {cs : List Token} (ht : t.kind = .comma) (h : Commas cs) : Commas (t :: cs) :=
  List.forall_mem_cons.mpr ⟨ht, h⟩

end Grammar

def Operator.kind : Operator → Kind
  | .add => .plus
  | .sub => .minus
  | .mul => .star
  | .div => .slash
  | .other _ => .error

namespace Lookahead

open Grammar (Commas)
open Parse (kindAt skipCommas behindClosing)

/-! ## With a look at the next token -/


structure Separator where
  before : List Token
  behind : List Token
  /-- Without it, the element before it would go on. -/
  needed : Bool

/-- The separators of a part, with the tokens on either side of the part. -/
def within (pre post : List Token) (gs : List Separator) : List Separator :=
  gs.map fun g => ⟨pre ++ g.before, g.behind ++ post, g.needed⟩

/-- The commas at the front, each with what is before and behind it. -/
def leading : List Token → List (List Token × List Token)
  | [] => []
  | t :: ts => if t.kind = .comma then ([], ts) :: (leading ts).map fun p => (t :: p.1, p.2) else []

/-- The commas behind an element, which are separators unless it is the last. One of several is not needed. -/
def between (last goesOn : Bool) (ts : List Token) : List Separator :=
  if last then [] else (leading ts).map fun p => ⟨p.1, p.2, goesOn && (leading ts).length == 1⟩

def factorMore : List Kind := [.lparen, .dot]

def termMore : List Kind := factorMore ++ [.star, .slash]

def exprMore : List Kind := termMore ++ [.plus, .minus]

inductive Finish where
  /-- With the bracket of a list or the name of a variable. -/
  | closed
  /-- With an expression that is one name. -/
  | name
  /-- With an expression in parentheses. -/
  | group
  /-- With another expression. -/
  | operand
  /-- With a return of nothing. -/
  | bare
  deriving DecidableEq, Repr

namespace Finish

def ofExpr (ts : List Token) : Finish :=
  if ts.map (·.kind) = [.ident] then .name
  else if kindAt ts = .lparen ∧ behindClosing 0 ts = some [] then .group
  else .operand

def others : Finish → List Kind
  | .name => [.assign, .ident, .lbrace, .arrow]
  | .group => [.arrow]
  | _ => []

def goesOn : Finish → Kind → Bool
  | .closed, _ => false
  | .bare, k => k ∉ [.eof, .rbrace, .rparen, .rbracket, .comma]
  | e, k => k ∈ exprMore ++ e.others

end Finish

inductive Params : List Text → List Token → List Separator → Prop
  | close {cs : List Token} {c : Token} : Commas cs → c.kind = .rparen → Params [] (cs ++ [c]) []
  | param {cs ts : List Token} {p : Token} {ps : List Text} {gs : List Separator} : Commas cs → p.kind = .ident →
      Params ps ts gs →
      Params (p.lexeme :: ps) (cs ++ ([p] ++ ts)) (within (cs ++ [p]) [] (between ps.isEmpty false ts ++ gs))

inductive FieldDecls : List (Text × Text) → List Token → List Separator → Prop
  | close {cs : List Token} {c : Token} : Commas cs → c.kind = .rbrace → FieldDecls [] (cs ++ [c]) []
  | field {cs ts : List Token} {name colon type : Token} {fs : List (Text × Text)} {gs : List Separator} : Commas cs →
      name.kind = .ident → colon.kind = .colon → type.kind = .ident → FieldDecls fs ts gs →
      FieldDecls ((name.lexeme, type.lexeme) :: fs) (cs ++ ([name, colon, type] ++ ts))
        (within (cs ++ [name, colon, type]) [] (between fs.isEmpty false ts ++ gs))

inductive Head : List Text → List Token → List Separator → Prop
  | name {t : Token} : t.kind = .ident → Head [t.lexeme] [t] []
  | list {t : Token} {ts : List Token} {ps : List Text} {gs : List Separator} : t.kind = .lparen → Params ps ts gs →
      Head ps ([t] ++ ts) (within [t] [] gs)

mutual

inductive Item : Node → List Token → Finish → List Separator → Prop
  | assign {name eq : Token} {ts : List Token} {v : Node} {e : Finish} {gs : List Separator} : name.kind = .ident →
      eq.kind = .assign → Item v ts e gs →
      Item (.assign (.ident name.lexeme) v) ([name, eq] ++ ts) e (within [name, eq] [] gs)
  | variable {type name : Token} : type.kind = .ident → name.kind = .ident →
      Item (.variable type.lexeme name.lexeme) [type, name] .closed []
  | construct {name brace : Token} {ts : List Token} {fs : List (Text × Node)} {gs : List Separator} :
      name.kind = .ident → brace.kind = .lbrace → Fields fs ts gs →
      Item (.construct name.lexeme fs) ([name, brace] ++ ts) .closed (within [name, brace] [] gs)
  | block {hs ts : List Token} {arrow brace : Token} {ps : List Text} {vs : List Node} {hg gs : List Separator} :
      Head ps hs hg → arrow.kind = .arrow → brace.kind = .lbrace → Block vs ts gs →
      Item (.function ps vs) (hs ++ ([arrow, brace] ++ ts)) .closed
        (within [] ([arrow, brace] ++ ts) hg ++ within (hs ++ [arrow, brace]) [] gs)
  | function {hs ts : List Token} {arrow : Token} {ps : List Text} {v : Node} {e : Finish} {hg gs : List Separator} :
      Head ps hs hg → arrow.kind = .arrow → Item v ts e gs →
      Item (.function ps [v]) (hs ++ ([arrow] ++ ts)) e (within [] ([arrow] ++ ts) hg ++ within (hs ++ [arrow]) [] gs)
  | array {bracket : Token} {ts : List Token} {vs : List Node} {gs : List Separator} : bracket.kind = .lbracket →
      Items .rbracket vs ts gs → Item (.array vs) ([bracket] ++ ts) .closed (within [bracket] [] gs)
  | ret {t : Token} : t.kind = .return → Item (.ret none) [t] .bare []
  | retItem {t : Token} {ts : List Token} {v : Node} {e : Finish} {gs : List Separator} : t.kind = .return →
      Item v ts e gs → Item (.ret (some v)) ([t] ++ ts) e (within [t] [] gs)
  | structDef {word name brace : Token} {ts : List Token} {fs : List (Text × Text)} {gs : List Separator} :
      word.kind = .type ∨ word.kind = .struct → name.kind = .ident → brace.kind = .lbrace → FieldDecls fs ts gs →
      Item (.structDef name.lexeme fs) ([word, name, brace] ++ ts) .closed (within [word, name, brace] [] gs)
  | expr {ts : List Token} {v : Node} {gs : List Separator} : Expr v ts gs → Item v ts (Finish.ofExpr ts) gs

inductive Block : List Node → List Token → List Separator → Prop
  | close {c : Token} : c.kind = .rbrace → Block [] [c] []
  | item {ts us : List Token} {v : Node} {vs : List Node} {e : Finish} {gs gs' : List Separator} : Item v ts e gs →
      e.goesOn (kindAt us) = false → Block vs us gs' → Block (v :: vs) (ts ++ us) (within [] us gs ++ within ts [] gs')

inductive Fields : List (Text × Node) → List Token → List Separator → Prop
  | close {cs : List Token} {c : Token} : Commas cs → c.kind = .rbrace → Fields [] (cs ++ [c]) []
  | field {cs ts us : List Token} {name colon : Token} {v : Node} {fs : List (Text × Node)} {e : Finish}
      {gs gs' : List Separator} : Commas cs → name.kind = .ident → colon.kind = .colon → Item v ts e gs →
      e.goesOn (kindAt us) = false → Fields fs us gs' →
      Fields ((name.lexeme, v) :: fs) (cs ++ ([name, colon] ++ (ts ++ us)))
        (within (cs ++ [name, colon]) us gs ++
          within (cs ++ ([name, colon] ++ ts)) [] (between fs.isEmpty (e.goesOn (kindAt (skipCommas us))) us ++ gs'))

inductive Items : Kind → List Node → List Token → List Separator → Prop
  | close {cs : List Token} {c : Token} {close : Kind} : Commas cs → c.kind = close → Items close [] (cs ++ [c]) []
  | item {cs ts us : List Token} {close : Kind} {v : Node} {vs : List Node} {e : Finish} {gs gs' : List Separator} :
      Commas cs → Item v ts e gs → e.goesOn (kindAt us) = false → Items close vs us gs' →
      Items close (v :: vs) (cs ++ (ts ++ us))
        (within cs us gs ++
          within (cs ++ ts) [] (between vs.isEmpty (e.goesOn (kindAt (skipCommas us))) us ++ gs'))

inductive Expr : Node → List Token → List Separator → Prop
  | term {ts : List Token} {v : Node} {gs : List Separator} : Term v ts gs → Expr v ts gs
  | sum {ts us : List Token} {op : Operator} {sign : Token} {l r : Node} {gs gs' : List Separator} : Term l ts gs →
      op = .add ∨ op = .sub → sign.kind = op.kind → Expr r us gs' →
      Expr (.binary op l r) (ts ++ ([sign] ++ us)) (within [] ([sign] ++ us) gs ++ within (ts ++ [sign]) [] gs')

inductive Term : Node → List Token → List Separator → Prop
  | factor {ts : List Token} {v : Node} {gs : List Separator} : Factor v ts gs → Term v ts gs
  | product {ts us : List Token} {op : Operator} {sign : Token} {l r : Node} {gs gs' : List Separator} : Factor l ts gs →
      op = .mul ∨ op = .div → sign.kind = op.kind → Term r us gs' →
      Term (.binary op l r) (ts ++ ([sign] ++ us)) (within [] ([sign] ++ us) gs ++ within (ts ++ [sign]) [] gs')

inductive Factor : Node → List Token → List Separator → Prop
  | primary {ts : List Token} {v : Node} {gs : List Separator} : Primary v ts gs → Factor v ts gs
  | call {ts us : List Token} {paren : Token} {v : Node} {vs : List Node} {gs gs' : List Separator} : Factor v ts gs →
      paren.kind = .lparen → Items .rparen vs us gs' →
      Factor (.call v vs) (ts ++ ([paren] ++ us)) (within [] ([paren] ++ us) gs ++ within (ts ++ [paren]) [] gs')
  | property {ts : List Token} {dot name : Token} {v : Node} {gs : List Separator} : Factor v ts gs → dot.kind = .dot →
      name.kind = .ident → Factor (.property v name.lexeme) (ts ++ [dot, name]) (within [] [dot, name] gs)

inductive Primary : Node → List Token → List Separator → Prop
  | literal {t : Token} {v : Node} : t.kind ≠ .lparen → Parse.literal? t = some v → Primary v [t] []
  | parens {opening closing : Token} {ts : List Token} {v : Node} {gs : List Separator} : opening.kind = .lparen →
      Expr v ts gs → closing.kind = .rparen →
      Primary v ([opening] ++ (ts ++ [closing])) (within [opening] [closing] gs)

end

inductive Script : List Node → List Token → List Separator → Prop
  | nil : Script [] [] []
  | item {ts us : List Token} {v : Node} {vs : List Node} {e : Finish} {gs gs' : List Separator} : Item v ts e gs →
      e.goesOn (kindAt us) = false → Script vs us gs' → Script (v :: vs) (ts ++ us) (within [] us gs ++ within ts [] gs')

/-! ## Without the look -/

variable {ts : List Token} {gs : List Separator}

theorem Params.plain {ps : List Text} (h : Params ps ts gs) :
    Grammar.Params ps ts := by
  induction h with
  | close hcs hc => exact .close hcs hc
  | param hcs hp _ ih => exact .param hcs hp ih

theorem FieldDecls.plain {fs : List (Text × Text)} (h : FieldDecls fs ts gs) :
    Grammar.FieldDecls fs ts := by
  induction h with
  | close hcs hc => exact .close hcs hc
  | field hcs hname hcolon htype _ ih => exact .field hcs hname hcolon htype ih

theorem Head.plain {ps : List Text} (h : Head ps ts gs) : Grammar.Head ps ts := by
  cases h with
  | name ht => exact .name ht
  | list ht hps => exact .list ht hps.plain

theorem primary_of_literal? {t : Token} {v : Node} (h : Parse.literal? t = some v) : Grammar.Primary v [t] := by
  unfold Parse.literal? at h
  split at h
  · cases h
    exact .ident ‹_›
  · cases h
    exact .string ‹_› ‹_›
  · cases h
    exact .int ‹_› ‹_›
  · cases h
    exact .decimal ‹_› ‹_›
  · cases h

mutual

theorem Item.plain {v ts e gs} : Item v ts e gs → Grammar.Item v ts
  | .assign hname heq hv => .assign hname heq hv.plain
  | .variable htype hname => .variable htype hname
  | .construct hname hbrace hfs => .construct (.mk hname hbrace hfs.plain)
  | .block hhead harrow hbrace hvs => .function (.block hhead.plain harrow hbrace hvs.plain)
  | .function hhead harrow hv => .function (.item hhead.plain harrow hv.plain)
  | .array hbracket hvs => .array (.mk hbracket hvs.plain)
  | .ret ht => .ret ht
  | .retItem ht hv => .retItem ht hv.plain
  | .structDef hword hname hbrace hfs => .structDef (.mk hword hname hbrace hfs.plain)
  | .expr h => .expr h.plain

theorem Block.plain {vs ts gs} : Block vs ts gs → Grammar.Block vs ts
  | .close hc => .close hc
  | .item hv _ hvs => .item hv.plain hvs.plain

theorem Fields.plain {fs ts gs} : Fields fs ts gs → Grammar.Fields fs ts
  | .close hcs hc => .close hcs hc
  | @Fields.field _ ts us _ _ _ _ _ _ _ hcs hname hcolon hv _ hfs =>
    @Grammar.Fields.field _ ts us _ _ _ _ hcs hname hcolon hv.plain hfs.plain

theorem Items.plain {close vs ts gs} : Items close vs ts gs → Grammar.Items close vs ts
  | .close hcs hc => .close hcs hc
  | .item hcs hv _ hvs => .item hcs hv.plain hvs.plain

theorem Expr.plain {v ts gs} : Expr v ts gs → Grammar.Expr v ts
  | .term h => .term h.plain
  | .sum hl hop hsign hr => by
    rcases hop with rfl | rfl
    · exact .add hl.plain hsign hr.plain
    · exact .sub hl.plain hsign hr.plain

theorem Term.plain {v ts gs} : Term v ts gs → Grammar.Term v ts
  | .factor h => .factor h.plain
  | .product hl hop hsign hr => by
    rcases hop with rfl | rfl
    · exact .mul hl.plain hsign hr.plain
    · exact .div hl.plain hsign hr.plain

theorem Factor.plain {v ts gs} : Factor v ts gs → Grammar.Factor v ts
  | .primary h => .primary h.plain
  | .call hv hparen hvs => .call hv.plain hparen hvs.plain
  | .property hv hdot hname => .property hv.plain hdot hname

theorem Primary.plain {v ts gs} : Primary v ts gs → Grammar.Primary v ts
  | .literal _ hv => primary_of_literal? hv
  | .parens hopen h hclose => .parens hopen h.plain hclose

end

end Lookahead

end Scriptlet

/-
  Scriptlet.Syntax.Parse — from tokens to syntax trees.

      item       = ident '=' item | ident ident | construct | function | array
                 | 'return' [item] | structDef | expr
      function   = ( ident | '(' ident* ')' ) '=>' ( '{' item* '}' | item )
      construct  = ident '{' ( ident ':' item )* '}'
      structDef  = ( 'type' | 'struct' ) ident '{' ( ident ':' ident )* '}'
      array      = '[' item* ']'
      expr       = term [ ('+' | '-') expr ]
      term       = factor [ ('*' | '/') term ]
      factor     = primary ( '(' item* ')' | '.' ident )*
      primary    = ident | string | int | decimal | '(' expr ')'

  In lists within brackets, parentheses and the braces of structs, commas may stand before
  every element and before the closing token. Every choice is made by looking at tokens ahead
  and never taken back; a failure ends the parse. Operators of one level group to the right.
-/

import Scriptlet.Syntax.Node
import Scriptlet.Token.Rules

namespace Scriptlet

inductive SyntaxFault where
  | unrecognized (lexeme : Text)
  | unexpected (found : Token)
  | expected (kind : Kind) (found : Token)
  | unexpectedEnd
  | endExpecting (kind : Kind)
  | endInList
  | unbalancedParenthesis
  | tooDeep
  deriving DecidableEq, Repr, Inhabited

namespace SyntaxFault

def describe (t : Token) : Text :=
  if t.lexeme.isEmpty then t.kind.name else t.kind.name ++ " " ++ Text.quoted t.lexeme

def message : SyntaxFault → Text
  | .unrecognized lexeme => "unrecognized input " ++ Text.quoted lexeme
  | .unexpected t => "unexpected " ++ describe t
  | .expected k t => "expected " ++ k.name ++ ", found " ++ describe t
  | .unexpectedEnd => "unexpected end of input"
  | .endExpecting k => "unexpected end of input, expected " ++ k.name
  | .endInList => "unexpected end of input in delimited list"
  | .unbalancedParenthesis => "unbalanced parenthesis"
  | .tooDeep => "program is nested too deeply"

end SyntaxFault

namespace Parse

structure Failure where
  fault : SyntaxFault
  rest : List Token
  deriving DecidableEq, Repr

abbrev Reading := Except Failure

def fail {α : Type} (fault : SyntaxFault) (rest : List Token) : Reading α := .error ⟨fault, rest⟩

def kindAt : List Token → Kind
  | [] => .eof
  | t :: _ => t.kind

def expect (kind : Kind) : List Token → Reading (Token × List Token)
  | [] => fail (.endExpecting kind) []
  | t :: rest =>
    if t.kind = kind then .ok (t, rest)
    else if t.kind = .eof then fail (.endExpecting kind) (t :: rest)
    else fail (.expected kind t) (t :: rest)

def skipCommas (ts : List Token) : List Token := ts.dropWhile (·.kind = .comma)

/-- No item may start here. -/
def endsItem (ts : List Token) : Bool :=
  match kindAt ts with
  | .eof | .rbrace | .rparen | .rbracket | .comma => true
  | _ => false

/-- The tokens behind the parenthesis that closes `depth` open ones. -/
def behindClosing (depth : Nat) : List Token → Option (List Token)
  | [] => none
  | t :: rest =>
    match t.kind with
    | .lparen => behindClosing (depth + 1) rest
    | .rparen => if depth ≤ 1 then some rest else behindClosing (depth - 1) rest
    | _ => behindClosing depth rest

def params : List Token → Reading (List Text × List Token)
  | [] => fail .endInList []
  | t :: rest =>
    match t.kind with
    | .comma => params rest
    | .rparen => .ok ([], rest)
    | _ => do
      let (p, _) ← expect .ident (t :: rest)
      let (ps, rest') ← params rest
      .ok (p.lexeme :: ps, rest')

def fieldDecls : List Token → Reading (List (Text × Text) × List Token)
  | [] => fail .endInList []
  | t :: rest =>
    match t.kind with
    | .comma => fieldDecls rest
    | .rbrace => .ok ([], rest)
    | _ => do
      let (name, _) ← expect .ident (t :: rest)
      match rest with
      | [] => fail (.endExpecting .colon) []
      | c :: rest => do
        let (_, _) ← expect .colon (c :: rest)
        match rest with
        | [] => fail (.endExpecting .ident) []
        | u :: rest => do
          let (type, _) ← expect .ident (u :: rest)
          let (fs, rest') ← fieldDecls rest
          .ok ((name.lexeme, type.lexeme) :: fs, rest')

def structDef (ts : List Token) : Reading (Node × List Token) := do
  let (name, ts) ← expect .ident ts
  let (_, ts) ← expect .lbrace ts
  let (fs, ts) ← fieldDecls ts
  .ok (.structDef name.lexeme fs, ts)

def functionHead (ts : List Token) : Reading (List Text × List Token) := do
  let (ps, ts) ← match ts with
    | t :: rest =>
      if t.kind = .ident then .ok ([t.lexeme], rest)
      else do
        let (_, rest) ← expect .lparen (t :: rest)
        params rest
    | [] => fail (.endExpecting .lparen) []
  let (_, ts) ← expect .arrow ts
  .ok (ps, ts)

/-- The literal that a token stands for. Tokens of the lexer have the value that their kind asks for (`Token.Valued`).
    Those made by hand may lack it: such a list would crash the parser, which is not modelled, and the token is
    unexpected here. -/
def literal? (t : Token) : Option Node :=
  match t.kind, t.meaning with
  | .ident, _ => some (.ident t.lexeme)
  | .string, .text s => some (.str s)
  | .int, .int n => some (.int n)
  | .decimal, .float x => some (.float x)
  | _, _ => none

mutual

/-- An item; the first argument of these functions bounds the depth of the calls. -/
def item : Nat → List Token → Reading (Node × List Token)
  | 0, ts => fail .tooDeep ts
  | n + 1, ts =>
    match ts with
    | [] => fail .unexpectedEnd []
    | t :: rest =>
      match t.kind with
      | .ident =>
        match rest with
        | [] => expr n ts
        | u :: rest' =>
          match u.kind with
          | .assign => do
            let (v, r) ← item n rest'
            .ok (.assign (.ident t.lexeme) v, r)
          | .ident => .ok (.variable t.lexeme u.lexeme, rest')
          | .lbrace => do
            let (fs, r) ← fields n rest'
            .ok (.construct t.lexeme fs, r)
          | .arrow => function n ts
          | _ => expr n ts
      | .lbracket => do
        let (vs, r) ← items n .rbracket rest
        .ok (.array vs, r)
      | .lparen =>
        match behindClosing 0 ts with
        | none => fail .unbalancedParenthesis ts
        | some behind => if kindAt behind = .arrow then function n ts else expr n ts
      | .return =>
        if endsItem rest then .ok (.ret none, rest)
        else do
          let (v, r) ← item n rest
          .ok (.ret (some v), r)
      | .type | .struct => structDef rest
      | .eof => fail .unexpectedEnd ts
      | _ => expr n ts

def function : Nat → List Token → Reading (Node × List Token)
  | 0, ts => fail .tooDeep ts
  | n + 1, ts => do
    let (ps, ts) ← functionHead ts
    match ts with
    | [] => do
      let (v, r) ← item n []
      .ok (.function ps [v], r)
    | t :: rest =>
      if t.kind = .lbrace then do
        let (body, r) ← block n rest
        .ok (.function ps body, r)
      else do
        let (v, r) ← item n (t :: rest)
        .ok (.function ps [v], r)

def block : Nat → List Token → Reading (List Node × List Token)
  | 0, ts => fail .tooDeep ts
  | n + 1, ts =>
    if kindAt ts = .rbrace then .ok ([], ts.drop 1)
    else do
      let (v, r) ← item n ts
      let (vs, r) ← block n r
      .ok (v :: vs, r)

def items : Nat → Kind → List Token → Reading (List Node × List Token)
  | 0, _, ts => fail .tooDeep ts
  | n + 1, close, ts =>
    match skipCommas ts with
    | [] => fail .endInList []
    | t :: rest =>
      if t.kind = close then .ok ([], rest)
      else do
        let (v, r) ← item n (t :: rest)
        let (vs, r) ← items n close r
        .ok (v :: vs, r)

def fields : Nat → List Token → Reading (List (Text × Node) × List Token)
  | 0, ts => fail .tooDeep ts
  | n + 1, ts =>
    match skipCommas ts with
    | [] => fail .endInList []
    | t :: rest =>
      if t.kind = .rbrace then .ok ([], rest)
      else do
        let (name, r) ← expect .ident (t :: rest)
        let (_, r) ← expect .colon r
        let (v, r) ← item n r
        let (fs, r) ← fields n r
        .ok ((name.lexeme, v) :: fs, r)

def expr : Nat → List Token → Reading (Node × List Token)
  | 0, ts => fail .tooDeep ts
  | n + 1, ts => do
    let (l, r) ← term n ts
    match kindAt r with
    | .plus => do
      let (v, r) ← expr n (r.drop 1)
      .ok (.binary .add l v, r)
    | .minus => do
      let (v, r) ← expr n (r.drop 1)
      .ok (.binary .sub l v, r)
    | _ => .ok (l, r)

def term : Nat → List Token → Reading (Node × List Token)
  | 0, ts => fail .tooDeep ts
  | n + 1, ts => do
    let (l, r) ← factor n ts
    match kindAt r with
    | .star => do
      let (v, r) ← term n (r.drop 1)
      .ok (.binary .mul l v, r)
    | .slash => do
      let (v, r) ← term n (r.drop 1)
      .ok (.binary .div l v, r)
    | _ => .ok (l, r)

def factor : Nat → List Token → Reading (Node × List Token)
  | 0, ts => fail .tooDeep ts
  | n + 1, ts => do
    let (v, r) ← primary n ts
    suffixes n v r

def suffixes : Nat → Node → List Token → Reading (Node × List Token)
  | 0, _, ts => fail .tooDeep ts
  | n + 1, v, ts =>
    match kindAt ts with
    | .lparen => do
      let (args, r) ← items n .rparen (ts.drop 1)
      suffixes n (.call v args) r
    | .dot => do
      let (name, r) ← expect .ident (ts.drop 1)
      suffixes n (.property v name.lexeme) r
    | _ => .ok (v, ts)

def primary : Nat → List Token → Reading (Node × List Token)
  | 0, ts => fail .tooDeep ts
  | n + 1, ts =>
    match ts with
    | [] => fail .unexpectedEnd []
    | t :: rest =>
      if t.kind = .lparen then do
        let (v, r) ← expr n rest
        let (_, r) ← expect .rparen r
        .ok (v, r)
      else match literal? t with
        | some v => .ok (v, rest)
        | none => if t.kind = .eof then fail .unexpectedEnd ts else fail (.unexpected t) ts

end

/-- A depth that no tree over `ts` exceeds. -/
def depthBudget (ts : List Token) : Nat := 10 * ts.length + 10

/-- The items of a program; the first argument bounds their number. -/
def program : Nat → List Token → Reading (List Node)
  | _, [] => .ok []
  | 0, ts => fail .tooDeep ts
  | n + 1, ts => do
    let (v, r) ← item (depthBudget ts) ts
    let vs ← program n r
    .ok (v :: vs)

/-- A list with an error token in it is no program, whatever stands before that token. -/
def wholeList (ts : List Token) : Reading (List Node) :=
  match ts.dropWhile (·.kind ≠ .error) with
  | [] => program ts.length ts
  | t :: rest => fail (.unrecognized t.lexeme) (t :: rest)

end Parse

structure SyntaxError where
  fault : SyntaxFault
  span : Span
  window : Text
  deriving DecidableEq, Repr, Inhabited

namespace SyntaxError

def message (e : SyntaxError) : Text :=
  "syntax error at " ++ e.span.render ++ ": " ++ e.fault.message ++ ", near `" ++ e.window ++ "`"

def windowSize : Nat := 3

/-- The source from `windowSize` tokens before the token at `pos` to as many behind it. -/
def windowAt (source : Text) (ts : List Token) (pos : Nat) : Text :=
  let last := ts.length - 1
  match ts[min (pos - windowSize) last]?, ts[min (pos + windowSize) last]? with
  | some t, some u => (t.span.extend u.span).of source
  | _, _ => []

def ofFailure (source : Text) (ts : List Token) (f : Parse.Failure) : SyntaxError where
  fault := f.fault
  span := match f.rest with
    | t :: _ => t.span
    | [] => ⟨source.length, source.length⟩
  window := windowAt source ts (ts.length - f.rest.length)

end SyntaxError

namespace Parse

def tokens (source : Text) (ts : List Token) : Except SyntaxError (List Node) :=
  (wholeList ts).mapError (SyntaxError.ofFailure source ts)

def source (text : Text) : Except SyntaxError (List Node) := tokens text (Token.tokenize text)

end Parse

end Scriptlet

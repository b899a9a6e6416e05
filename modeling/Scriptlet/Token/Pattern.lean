/-
  Scriptlet.Token.Pattern — regular patterns over bytes.

  A pattern is matched by derivatives: `p.after b` matches what is left of a match of `p`
  once `b` has been read. The constructing functions `seq` and `alt` keep a pattern that
  matches nothing literally `none`, so a match in progress is known to be hopeless at the
  first byte that makes it so.
-/

import Scriptlet.Text

namespace Scriptlet

inductive Pattern where
  | none
  | empty
  | one (accepts : UInt8 → Bool)
  | cat (p q : Pattern)
  | or (p q : Pattern)
  | star (p : Pattern)

namespace Pattern

def seq : Pattern → Pattern → Pattern
  | .none, _ => .none
  | _, .none => .none
  | .empty, q => q
  | p, .empty => p
  | p, q => .cat p q

def alt : Pattern → Pattern → Pattern
  | .none, q => q
  | p, .none => p
  | p, q => .or p q

def plus (p : Pattern) : Pattern := seq p (.star p)

def optional (p : Pattern) : Pattern := alt .empty p

def byte (c : Char) : Pattern := .one (· == c.toUInt8)

def exactly : Text → Pattern
  | [] => .empty
  | b :: r => seq (.one (· == b)) (exactly r)

/-- Matches the empty text, among others. -/
def isNullable : Pattern → Bool
  | .none => false
  | .empty => true
  | .one _ => false
  | .cat p q => p.isNullable && q.isNullable
  | .or p q => p.isNullable || q.isNullable
  | .star _ => true

/-- What is left to match once `b` has been read. -/
def after (b : UInt8) : Pattern → Pattern
  | .none => .none
  | .empty => .none
  | .one accepts => if accepts b then .empty else .none
  | .cat p q =>
    let here := seq (p.after b) q
    if p.isNullable then alt here (q.after b) else here
  | .or p q => alt (p.after b) (q.after b)
  | .star p => seq (p.after b) (.star p)

def isNone : Pattern → Bool
  | .none => true
  | _ => false

inductive Matches : Pattern → Text → Prop where
  | empty : Matches .empty []
  | one {accepts : UInt8 → Bool} {b : UInt8} : accepts b = true → Matches (.one accepts) [b]
  | cat {p q : Pattern} {s t : Text} : Matches p s → Matches q t → Matches (.cat p q) (s ++ t)
  | left {p q : Pattern} {t : Text} : Matches p t → Matches (.or p q) t
  | right {p q : Pattern} {t : Text} : Matches q t → Matches (.or p q) t
  | stop {p : Pattern} : Matches (.star p) []
  | more {p : Pattern} {s t : Text} : Matches p s → Matches (.star p) t → Matches (.star p) (s ++ t)

end Pattern

end Scriptlet

/-
  Scriptlet.Span — a run of bytes of a source.

  A span names the first byte and the one behind the last. Nothing forces its ends into
  order or into the source: `Span.of` clips them, and the length counts modulo `2 ^ 64`.
-/

import Scriptlet.Number.Binary64
import Scriptlet.Text

namespace Scriptlet

structure Span where
  first : Nat
  last : Nat
  deriving DecidableEq, Repr, Inhabited

namespace Span

/-- The number of bytes covered, modulo `2 ^ 64` where the ends are out of order. -/
def length (s : Span) : Nat := (((s.last : Int) - s.first) % 2 ^ 64).toNat

def isNull (s : Span) : Bool := s.first == 0 && s.last == 0

def extend (s t : Span) : Span := ⟨min s.first t.first, max s.last t.last⟩

def of (s : Span) (source : Text) : Text := (source.take s.last).drop s.first

def render (s : Span) : Text := "(" ++ Text.ofNat s.first ++ "…" ++ Text.ofNat s.last ++ ")"

end Span

end Scriptlet

/-
  Scriptlet.Code.Idents — the table of identifiers.

  Every name has one number, given out when the name is first seen and never again; numbers
  start at 0 and leave no gaps.
-/

import Scriptlet.Text

namespace Scriptlet

structure Idents where
  names : List Text
  nodup : names.Nodup

namespace Idents

def empty : Idents := ⟨[], .nil⟩

instance : Inhabited Idents := ⟨empty⟩

def size (t : Idents) : Nat := t.names.length

def lookup? (t : Idents) (name : Text) : Option Nat := t.names.idxOf? name

theorem not_mem_of_lookup?_eq_none {t : Idents} {name : Text} (h : t.lookup? name = none) :
    name ∉ t.names := by
  simpa [lookup?] using h

def intern (t : Idents) (name : Text) : Nat × Idents :=
  match h : t.lookup? name with
  | some id => (id, t)
  | none => (t.size, ⟨t.names ++ [name], List.nodup_append.mpr ⟨t.nodup, by simp, by
      have := not_mem_of_lookup?_eq_none h
      intro a ha b hb hab
      simp only [List.mem_singleton] at hb
      exact this (hb ▸ hab ▸ ha)⟩⟩)

/-- The name of a number; numbers not given out yet have the empty name. -/
def name (t : Idents) (id : Int) : Text :=
  match id with
  | .ofNat n => t.names.getD n []
  | .negSucc _ => []

end Idents

end Scriptlet

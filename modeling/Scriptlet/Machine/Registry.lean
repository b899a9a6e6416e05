/-
  Scriptlet.Machine.Registry — the live objects and the struct types of a machine.

  Objects get the numbers 1, 2, 3, … in the order in which they are made; no number is given
  out twice, even after an object was dropped. Types are registered by their identifier.
-/

import Scriptlet.Value

namespace Scriptlet

structure Registry where
  /-- The number of the object made last. -/
  last : Nat := 0
  objects : List Object := []
  types : List StructType := []
  deriving Repr, Inhabited

namespace Registry

def object? (r : Registry) (id : Int) : Option Object := r.objects.find? (·.id == id)

/-- Makes an object with the given fields, set one after the other. -/
def newObject (r : Registry) (ref : Ref) (type : Int) (typeName : Text) (fields : List Field) :
    Object × Registry :=
  let empty : Object := ⟨ref, r.last + 1, type, typeName, []⟩
  let o := fields.foldl (fun (o : Object) (f : Field) => o.setField f.id f.name f.value) empty
  (o, { r with last := r.last + 1, objects := r.objects ++ [o] })

def drop (r : Registry) (id : Int) : Registry := { r with objects := r.objects.filter (·.id != id) }

def type? (r : Registry) (id : Int) : Option StructType := r.types.find? (·.id == id)

def putIn (t : StructType) : List StructType → List StructType
  | [] => [t]
  | u :: us => if u.id = t.id then t :: us else u :: putIn t us

/-- Registers a type, in place of one with the same identifier. -/
def define (r : Registry) (t : StructType) : Registry := { r with types := putIn t r.types }

def sortedTypes (r : Registry) : List StructType := r.types.mergeSort fun a b => a.id ≤ b.id

end Registry

end Scriptlet

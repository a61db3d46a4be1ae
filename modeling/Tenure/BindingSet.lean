import Tenure.Ir.Value

/-!
# Sets of bindings

A set of the bindings below a width. Bindings beyond the width are never members, and sets of
different width are different.
-/

namespace Tenure

/-- A set of bindings, with one flag for each binding below its width. -/
structure BindingSet where
  flags : List Bool
deriving DecidableEq, Inhabited

namespace BindingSet

/-- The number of bindings the set can hold. -/
def width (s : BindingSet) : Nat := s.flags.length

/-- The empty set of a width. -/
def empty (width : Nat) : BindingSet := ⟨List.replicate width false⟩

/-- Membership. -/
def contains (s : BindingSet) (b : BindingId) : Bool := s.flags.getD b false

/-- Add a binding; without effect beyond the width. -/
def insert (s : BindingSet) (b : BindingId) : BindingSet := ⟨s.flags.set b true⟩

/-- Take a binding out. -/
def erase (s : BindingSet) (b : BindingId) : BindingSet := ⟨s.flags.set b false⟩

/-- Add the members of another set that lie below the width of this one. -/
def union (s t : BindingSet) : BindingSet :=
  ⟨s.flags.zipIdx.map fun (flag, b) => flag || t.contains b⟩

/-- Whether one of the bindings is a member. -/
def containsAny (s : BindingSet) (bindings : List BindingId) : Bool := bindings.any s.contains

/-- The members in ascending order. -/
def toList (s : BindingSet) : List BindingId := (List.range s.width).filter s.contains

end BindingSet

end Tenure

import Tenure.Mode

/-!
# Ownership signatures

What a function needs from each of its arguments.
-/

namespace Tenure

/-- One mode for each parameter. -/
structure Signature where
  params : List Mode
  /-- Whether the modes are final; not so when a recursive unit ran out of iterations. -/
  resolved : Bool
deriving DecidableEq, Inhabited

namespace Signature

/-- A final signature. -/
def ofModes (params : List Mode) : Signature := ⟨params, true⟩

/-- The safe assumption about a function that could not be analysed. -/
def allMoved (arity : Nat) : Signature := ⟨List.replicate arity .moved, false⟩

/-- The mode of a parameter. -/
def param? (s : Signature) (index : Nat) : Option Mode := s.params[index]?

/-- The signature as listings write it. -/
def text (s : Signature) : String := "(" ++ ", ".intercalate (s.params.map Mode.text) ++ ")"

end Signature

end Tenure

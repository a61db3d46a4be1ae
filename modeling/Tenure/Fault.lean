/-!
# Faults

The analyses run on any function, also on one whose ids point nowhere. What they look up without
having checked it ends the computation with a `Fault`. A validated function raises none of the
look-up faults.
-/

namespace Tenure

/-- Why an analysis of a function has no result. -/
inductive Fault where
  /-- A block was looked up that the function does not have. -/
  | noBlock (block : Nat)
  /-- A binding was looked up that the function does not declare. -/
  | noBinding (binding : Nat)
  /-- A region was looked up that the function does not declare. -/
  | noRegion (region : Nat)
  /-- A data-flow iteration runs for ever: it comes back to a state it has left. -/
  | unsettled
deriving DecidableEq, Inhabited

/-- The entry of a table, or the fault that says it is missing. -/
def lookup {α : Type} (table : List α) (index : Nat) (missing : Fault) : Except Fault α :=
  match table[index]? with
  | some entry => .ok entry
  | none => .error missing

/-- The settled state of an iteration, or the fault that it never settles. -/
def settled {α : Type} : Option α → Except Fault α
  | some state => .ok state
  | none => .error .unsettled

end Tenure

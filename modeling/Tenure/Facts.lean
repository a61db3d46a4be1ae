import Tenure.Liveness
import Tenure.Solution

/-!
# Facts about a function

What the checks and the planner work from: a function with its usage, its modes and its liveness.
-/

namespace Tenure

/-- A function together with the results of the analyses before it is checked. -/
structure Facts where
  func : Func
  usage : Usage
  solution : Solution
  liveness : Liveness
deriving DecidableEq, Inhabited

/-- The facts about a function in an environment. -/
def Environment.facts (env : Environment) (f : Func) : Except Fault Facts := do
  let usage := f.usage
  let liveness ← f.liveness usage
  let solution ← env.solve f usage
  return ⟨f, usage, solution, liveness⟩

/-- Whether a use ends the life of its binding's value. A field never does, and a copy only where
the programmer wrote `move`. -/
def SolvedUse.consumes (u : SolvedUse) : Bool :=
  u.resolved = .moved && u.field.isNone && (u.keyword = some .move || !u.decl.ty.isCopy)

/-- Of several findings about one use, keep the first. Here `met` are the uses reported before. -/
def keepFirst {α : Type} : List UseId → List (UseId × α) → List α
  | _, [] => []
  | met, (use, finding) :: rest =>
    if met.contains use then keepFirst met rest
    else finding :: keepFirst (use :: met) rest

end Tenure

import Tenure.Facts
import Tenure.Ir.Nesting
import Tenure.Placement.Plan

/-!
# Hints

Keywords and regions that the programmer may simplify. Hints say nothing about safety.
-/

namespace Tenure

/-- A suggestion for simpler code. -/
inductive Hint where
  /-- A parameter declared `move` that only needs to be borrowed. -/
  | unneededMove (binding : String) (needed : Mode) (span : Span)
  /-- An explicit region that frees nothing. -/
  | emptyRegion (kind : RegionKind) (span : Span)
  /-- A region nested deeper than the limit. -/
  | regionTooDeep (depth limit : Nat) (span : Span)
deriving DecidableEq, Inhabited

namespace Hint

/-- The stable code of the kind of hint. -/
def code : Hint → String
  | unneededMove .. => "W2101"
  | emptyRegion .. => "W2102"
  | regionTooDeep .. => "W2103"

/-- A short name of the kind of hint. -/
def category : Hint → String
  | unneededMove .. => "prefer-borrow"
  | emptyRegion .. => "empty-region"
  | regionTooDeep .. => "region-too-deep"

/-- The headline of a hint. -/
def message : Hint → String
  | unneededMove binding needed _ =>
    "`" ++ binding ++ "` is declared `move` but only needs " ++ needed.text
  | emptyRegion kind _ => "this " ++ kind.keyword ++ " holds no allocations"
  | regionTooDeep depth limit _ =>
    "region nested " ++ toString depth ++ " deep exceeds the limit of " ++ toString limit

/-- Where a hint is given. -/
def span : Hint → Span
  | unneededMove _ _ span => span
  | emptyRegion _ span => span
  | regionTooDeep _ _ span => span

end Hint

namespace Facts

/-- The hint about a parameter: its uses need less than the `move` of its declaration. -/
def paramHint? (facts : Facts) (p : BindingId) (decl : Binding) : Option Hint :=
  let needed := Mode.lubAll
    ((facts.solution.liveUses.filter fun u => u.binding = p).map SolvedUse.required)
  if decl.keyword = some .move && needed ≠ .moved then
    some (.unneededMove decl.name needed decl.span)
  else none

/-- The hints about a region: it frees nothing, or it is the first one of its chain beyond the
depth limit. -/
def regionHints (facts : Facts) (config : Config) (plan : Plan) (r : Region) : List Hint :=
  let depth := facts.func.regionDepth r.id
  (if r.kind.isExplicit && (plan.members r.id).isEmpty then [.emptyRegion r.kind r.span] else [])
    ++ (if depth = config.maxRegionDepth + 1 then
          [.regionTooDeep depth config.maxRegionDepth r.span]
        else [])

/-- The hints about a function, those on parameters first. -/
def hints (facts : Facts) (config : Config) (plan : Plan) : Except Fault (List Hint) := do
  if config.suggestOptimizations then
    let params ← facts.func.params.mapM fun p => do
      return facts.paramHint? p (← facts.func.binding p)
    return params.filterMap id ++ facts.func.regions.flatMap (facts.regionHints config plan)
  else return []

end Facts

end Tenure

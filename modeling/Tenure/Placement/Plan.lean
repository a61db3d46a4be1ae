import Tenure.Violation

/-!
# Placement plans

What is decided about the allocations of a function: which region frees each of them, or at which
points it is freed by itself, and where the regions free their members.
-/

namespace Tenure

/-- Where a single allocation is freed. -/
inductive FreePoint where
  /-- After a statement, or after the operands of a terminator. -/
  | after (point : Point)
  /-- On the way from one block to another. -/
  | edge (source target : BlockId)
deriving DecidableEq, Inhabited

/-- A free point as listings write it. -/
def FreePoint.text : FreePoint → String
  | after point => "after " ++ point.text
  | edge source target => "on edge " ++ BlockId.text source ++ " -> " ++ BlockId.text target

/-- Who frees an allocation. -/
inductive Placement where
  /-- A region, together with its other members. -/
  | region (id : RegionId)
  /-- The function, at these points. -/
  | individual (points : List FreePoint)
  /-- Somebody else: these uses hand it over on every path. -/
  | transferred (uses : List UseId)
deriving DecidableEq, Inhabited

/-- How control leaves a region. -/
inductive ExitKind where
  /-- To where the region falls through. -/
  | fallThrough
  /-- By a return inside an explicit region. -/
  | earlyReturn
  /-- By any other jump. -/
  | jumpOut
deriving DecidableEq, Inhabited

/-- The kind as listings write it. -/
def ExitKind.text : ExitKind → String
  | fallThrough => "fall-through"
  | earlyReturn => "early return"
  | jumpOut => "break"

/-- One way out of a region; a return has no target. -/
structure RegionExit where
  kind : ExitKind
  source : BlockId
  target : Option BlockId
deriving DecidableEq, Inhabited

/-- The members that a region frees at one of its exits. -/
structure Dealloc where
  region : RegionId
  exit : RegionExit
  allocs : List AllocId
deriving DecidableEq, Inhabited

/-- The placement of a function's allocations. -/
structure Plan where
  /-- The reachable allocation sites in program order, each once. -/
  placements : List (AllocId × Placement)
  deallocs : List Dealloc
  /-- References that outlive what they refer to. -/
  escapes : List Violation
deriving DecidableEq, Inhabited

namespace Plan

/-- Nothing to free. -/
def empty : Plan := ⟨[], [], []⟩

/-- The allocations a region frees. -/
def members (p : Plan) (r : RegionId) : List AllocId :=
  (p.placements.filter fun entry => entry.2 = .region r).map Prod.fst

/-- The bulk frees of a region. -/
def deallocsOf (p : Plan) (r : RegionId) : List Dealloc := p.deallocs.filter fun d => d.region = r

/-- Every single free with its allocation. -/
def frees (p : Plan) : List (AllocId × FreePoint) :=
  p.placements.flatMap fun (alloc, placement) =>
    match placement with
    | .individual points => points.map fun point => (alloc, point)
    | _ => []

end Plan

end Tenure

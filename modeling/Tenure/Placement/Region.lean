import Tenure.Ir.Nesting
import Tenure.Placement.Holders
import Tenure.Placement.Plan

/-!
# Choosing a region

The innermost region around an allocation that also covers the declarations of all its holders frees
it in bulk. If control can come back to the allocation without leaving the region, only an arena
around it may do so.
-/

namespace Tenure

namespace Func

/-- Whether control can come back to a block while it stays in the scope. -/
def onCycle (f : Func) (scope : List BlockId) (b : BlockId) : Bool :=
  let inside := fun c => (f.successors c).filter scope.contains
  (Graph.reach inside (f.blocks.length + 1) (inside b)).contains b

/-- The first arena of some regions. -/
def firstArena? (f : Func) : List RegionId → Except Fault (Option RegionId)
  | [] => .ok none
  | r :: rest => do
    let decl ← f.region r
    if decl.kind = .arena then return some r
    else f.firstArena? rest

/-- The ways out of a region over reachable blocks, in block order. -/
def regionExits (f : Func) (reachable : List BlockId) (r : RegionId) :
    Except Fault (List RegionExit) := do
  let decl ← f.region r
  let inside := f.blocksIn r
  return (reachable.filter inside.contains).flatMap fun source =>
    match f.blocks[source]? with
    | some block =>
      if block.isReturn then
        [⟨if decl.kind.isExplicit then .earlyReturn else .fallThrough, source, none⟩]
      else
        (block.successors.filter fun target => !inside.contains target).map fun target =>
          ⟨if decl.exit = some target then .fallThrough else .jumpOut, source, some target⟩
    | none => []

end Func

namespace Facts

/-- The innermost region around a site that covers the declarations of all holders; the body if
there is none. -/
def coveringRegion (facts : Facts) (siteRegion : RegionId) (declared : List RegionId) : RegionId :=
  let covering := (facts.func.regionAncestors siteRegion).find? fun r =>
    declared.all fun d => facts.func.regionWithin d r
  covering.getD Func.bodyRegion

/-- The region that frees an allocation in bulk, if one may. -/
def boundingRegion? (facts : Facts) (config : Config) (site : AllocSite) (holders : Holders) :
    Except Fault (Option RegionId) := do
  let block ← facts.func.block site.point.block
  let declared ← holders.all.mapM fun b => do return (← facts.func.binding b).region
  let covering := facts.coveringRegion block.region declared
  let scope := (facts.func.blocksIn covering).filter facts.solution.reachable.contains
  let chosen ←
    if facts.func.onCycle scope site.point.block then
      facts.func.firstArena? (facts.func.regionAncestors covering)
    else .ok (some covering)
  match chosen with
  | none => return none
  | some r =>
    let decl ← facts.func.region r
    return if decl.kind ≠ .body || config.implicitFunctionRegion then some r else none

end Facts

end Tenure

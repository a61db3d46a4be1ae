import Tenure.Placement.Escape
import Tenure.Placement.FreePoints
import Tenure.Placement.Region

/-!
# Placement of allocations

Each reachable allocation is freed by a region, by the function itself, or by whom it is handed to;
and no reference to a local value may leave the function.
-/

namespace Tenure.Facts

/-- The reachable allocation sites in program order. -/
def liveSites (facts : Facts) : List AllocSite :=
  facts.usage.allocations.filter fun site => facts.solution.isReachable site.point

/-- The uses of owners that hand the value over. -/
def transfers (facts : Facts) (holders : Holders) : List UseId :=
  (facts.solution.liveUses.filter fun u =>
    holders.owners.contains u.binding && facts.isTransfer u).map fun u => u.id

/-- Who frees an allocation. -/
def place (facts : Facts) (config : Config) (site : AllocSite) (holders : Holders) :
    Except Fault Placement := do
  let transfers := facts.transfers holders
  if transfers.isEmpty then
    match ← facts.boundingRegion? config site holders with
    | some r => return .region r
    | none => return .individual (← facts.freePoints site holders)
  else
    let points ← facts.freePoints site holders
    return if points.isEmpty then .transferred transfers else .individual points

/-- The placement of a site together with the escapes of references to it. -/
def planSite (facts : Facts) (config : Config) (site : AllocSite) :
    Except Fault ((AllocId × Placement) × List (UseId × Violation)) := do
  let holders ← facts.holders site
  let placement ← facts.place config site holders
  return ((site.alloc, placement), facts.escapesOf holders.refs (.allocation site.alloc) site.span)

/-- The bulk frees of a plan. Regions declared later come first. -/
def planDeallocs (facts : Facts) (plan : Plan) : Except Fault (List Dealloc) := do
  let perRegion ← facts.func.regions.reverse.mapM fun decl => do
    let allocs := plan.members decl.id
    if allocs.isEmpty then return []
    else
      let exits ← facts.func.regionExits facts.solution.reachable decl.id
      return exits.map fun exit => ⟨decl.id, exit, allocs⟩
  return perRegion.flatten

/-- The plan of a function. A site evaluated twice keeps its place and takes the later decision.
Escapes that start at one place are listed as they are found. -/
def plan (facts : Facts) (config : Config) : Except Fault Plan := do
  let sites ← facts.liveSites.mapM (facts.planSite config)
  let locals ← facts.localEscapes
  let placements := sites.foldl (fun table entry => upsert Prod.fst entry.1 table) []
  let escapes := keepFirst [] (sites.flatMap Prod.snd ++ locals)
  let placed : Plan := ⟨placements, [], Violation.sortByStart escapes⟩
  let deallocs ← facts.planDeallocs placed
  return { placed with deallocs }

end Tenure.Facts

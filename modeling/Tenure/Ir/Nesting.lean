import Tenure.Ascending
import Tenure.Ir.Func

/-!
# Nesting of regions

Walks along the parent links of regions. They also end on tables with cycles and dangling links,
because a walk over distinct declared regions has at most as many steps as there are regions.
-/

namespace Tenure.Func

/-- The parent link of a region; a region that is not declared has none. -/
def parent? (f : Func) (r : RegionId) : Option RegionId := f.regions[r]?.bind Region.parent

/-- Walk outwards for at most `steps` links, looking for a region. -/
def within (f : Func) (outer : RegionId) : Nat → RegionId → Bool
  | 0, inner => inner = outer
  | steps + 1, inner =>
    inner = outer ||
      match f.parent? inner with
      | some parent => f.within outer steps parent
      | none => false

/-- Whether `inner` is `outer` or nested somewhere inside it. -/
def regionWithin (f : Func) (inner outer : RegionId) : Bool :=
  f.within outer f.regions.length inner

/-- The number of links outwards from a region, counted up to `limit`. -/
def linksFrom (f : Func) : Nat → RegionId → Nat
  | 0, _ => 0
  | limit + 1, r =>
    match f.parent? r with
    | some parent => f.linksFrom limit parent + 1
    | none => 0

/-- The nesting depth of a region, 0 for the body. On a cycle it is one more than the number of
regions. -/
def regionDepth (f : Func) (r : RegionId) : Nat := f.linksFrom (f.regions.length + 1) r

/-- Walk outwards and collect the regions, up to the first one met before. -/
def chainFrom (f : Func) : Nat → List RegionId → RegionId → List RegionId
  | 0, _, _ => []
  | limit + 1, met, r =>
    if met.contains r then []
    else
      r :: match f.parent? r with
        | some parent => f.chainFrom limit (r :: met) parent
        | none => []

/-- A region and the regions around it, from the inside to the outside. -/
def regionAncestors (f : Func) (r : RegionId) : List RegionId :=
  f.chainFrom (f.regions.length + 1) [] r

/-- The declared ids of the blocks inside a region or a region nested in it, in ascending order. -/
def blocksIn (f : Func) (r : RegionId) : List BlockId :=
  ascending ((f.blocks.filter fun block => f.regionWithin block.region r).map Block.id)

end Tenure.Func

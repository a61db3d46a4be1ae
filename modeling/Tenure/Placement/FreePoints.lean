import Tenure.Placement.Holders
import Tenure.Placement.Plan

/-!
# Single frees

Where to free an allocation that no region frees. A forward analysis carries the set of bindings
that hold the value. The value is freed after a point where it was touched, where an owner still
holds it and where no holder is live any more; and on an edge out of a block that still owns it, if
no holder is live at the target.
-/

namespace Tenure.Facts

/-- Whether the function owns the value through one of the bindings. -/
def owns (holders : Holders) (held : BindingSet) : Bool :=
  held.toList.any fun b => holders.owners.contains b

/-- The bindings that receive the value at a point, from those that hold it before. -/
def receivers (facts : Facts) (site : AllocSite) (holders : Holders) (p : Point)
    (held : BindingSet) : List BindingId :=
  (if site.point = p then site.dest.toList else []) ++
    (facts.solution.usesAt p).filterMap fun u =>
      u.flow.bind fun (target, _) =>
        if held.contains u.binding && holders.contains target then some target else none

/-- The bindings that hold the value after a point if nothing is freed there. Consumed owners and a
redefined binding let go of it before the receivers take it. -/
def passOn (facts : Facts) (holders : Holders) (p : Point) (receivers : List BindingId)
    (held : BindingSet) : BindingSet :=
  let consumed := (facts.solution.usesAt p).filter fun u =>
    holders.owners.contains u.binding && u.consumes
  let left := consumed.foldl (fun s u => s.erase u.binding) held
  let kept :=
    match facts.usage.definitionAt p with
    | some b => if receivers.contains b then left else left.erase b
    | none => left
  receivers.foldl BindingSet.insert kept

/-- Advance over a point. The flag says that the value is freed there. -/
def heldStep (facts : Facts) (site : AllocSite) (holders : Holders) (p : Point)
    (held : BindingSet) : BindingSet × Bool :=
  let gained := facts.receivers site holders p held
  let touched := !gained.isEmpty || held.toList.any (facts.liveness.isLiveIn p)
  let next := facts.passOn holders p gained held
  let alive := next.toList.any (facts.liveness.isLiveOut p)
  if touched && !alive && owns holders next then
    (.empty facts.func.bindings.length, true)
  else (next, false)

/-- The forward analysis of the bindings that hold an allocation. -/
def heldBy (facts : Facts) (site : AllocSite) (holders : Holders) : Forward BindingSet where
  start := .empty facts.func.bindings.length
  join := BindingSet.union
  step := fun p held => (facts.heldStep site holders p held).1

/-- The bindings that hold an allocation at the ends of blocks. -/
def heldExits (facts : Facts) (site : AllocSite) (holders : Holders) :
    Except Fault (List BindingSet) := do
  let order ← facts.func.reversePostorder
  (facts.heldBy site holders).exits facts.func order (Nat.pow 2 facts.func.bindings.length)

/-- The points of a block after which the value is freed. -/
def freesIn (facts : Facts) (site : AllocSite) (holders : Holders) (exits : List BindingSet)
    (b : BlockId) : List FreePoint :=
  (((facts.heldBy site holders).trace facts.func exits b).filter fun (p, held) =>
    (facts.heldStep site holders p held).2).map fun (p, _) => .after p

/-- The edges out of a block on which the value is freed, by ascending target. -/
def freesLeaving (facts : Facts) (site : AllocSite) (holders : Holders) (exits : List BindingSet)
    (b : BlockId) : List FreePoint :=
  let analysis := facts.heldBy site holders
  let held := analysis.through (facts.func.pointsOf b) (analysis.entry facts.func exits b)
  if owns holders held then
    let targets := facts.func.blockIds.filter fun c =>
      (facts.func.successors b).contains c && !facts.liveness.anyLiveAtEntry c held.toList
    targets.map fun c => .edge b c
  else []

/-- Where an allocation is freed by itself: the points in order, then the edges in order. -/
def freePoints (facts : Facts) (site : AllocSite) (holders : Holders) :
    Except Fault (List FreePoint) := do
  let exits ← facts.heldExits site holders
  let blocks := facts.solution.reachable
  return blocks.flatMap (facts.freesIn site holders exits)
    ++ blocks.flatMap (facts.freesLeaving site holders exits)

end Tenure.Facts

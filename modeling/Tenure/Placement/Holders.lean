import Tenure.Facts

/-!
# Holders of a value

The bindings that may own a value or refer to it, found by following the flows of values from
binding to binding. What flows into a parameter belongs to the caller and is not followed.
-/

namespace Tenure

/-- A value on its way from one binding to another. -/
structure Flow where
  source : BindingId
  target : BindingId
  /-- Whether ownership goes along. -/
  owning : Bool
  point : Point
deriving DecidableEq, Inhabited

/-- The flow that a use causes. -/
def SolvedUse.flow? (u : SolvedUse) : Option Flow :=
  u.flow.map fun (target, kind) =>
    let owning :=
      match kind with
      | .own => true
      | .borrow => false
      | .byMode => u.resolved = .moved
    ⟨u.binding, target, owning, u.point⟩

/-- The bindings that may hold a value, owners and others apart. -/
structure Holders where
  owners : List BindingId
  refs : List BindingId
deriving DecidableEq, Inhabited

namespace Holders

/-- No holder at all. -/
def nobody : Holders := ⟨[], []⟩

/-- All holders. -/
def all (h : Holders) : List BindingId := h.owners ++ h.refs

/-- Whether a binding may hold the value. -/
def contains (h : Holders) (b : BindingId) : Bool := h.owners.contains b || h.refs.contains b

end Holders

namespace Facts

/-- The flows in reachable code. -/
def liveFlows (facts : Facts) : List Flow := facts.solution.liveUses.filterMap SolvedUse.flow?

/-- Whether a binding is declared and is no parameter. -/
def isLocal (facts : Facts) (b : BindingId) : Bool :=
  facts.func.bindings[b]?.any fun decl => !decl.isParam

/-- Whether a binding is a parameter. -/
def isParam (facts : Facts) (b : BindingId) : Bool :=
  facts.func.bindings[b]?.any Binding.isParam

/-- The locals that a value flows to directly. -/
def flowTargets (facts : Facts) (b : BindingId) : List BindingId :=
  (facts.liveFlows.filter fun w => w.source = b && facts.isLocal w.target).map Flow.target

/-- The locals that ownership of a value goes to directly. -/
def ownerTargets (facts : Facts) (b : BindingId) : List BindingId :=
  (facts.liveFlows.filter fun w => w.source = b && w.owning && facts.isLocal w.target).map
    Flow.target

/-- Bound on the length of a chain of flows through different bindings. -/
def flowDepth (facts : Facts) : Nat := facts.solution.uses.length + 1

/-- Follow the flows from given owners and references. A flow into a binding that is not declared is
a fault. -/
def propagate (facts : Facts) (start : Holders) : Except Fault Holders :=
  let owners := Graph.reach facts.ownerTargets facts.flowDepth start.owners
  let holders := Graph.reach facts.flowTargets facts.flowDepth start.all
  let lost := facts.liveFlows.find? fun w =>
    holders.contains w.source && facts.func.bindings.length ≤ w.target
  match lost with
  | some w => .error (.noBinding w.target)
  | none => .ok ⟨owners, holders.filter fun b => !owners.contains b⟩

/-- The bindings that may hold an allocation. -/
def holders (facts : Facts) (site : AllocSite) : Except Fault Holders :=
  match site.dest with
  | some dest => facts.propagate ⟨[dest], []⟩
  | none => .ok .nobody

end Facts

end Tenure

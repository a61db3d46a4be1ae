import Tenure.Ascending
import Tenure.Graph.Components
import Tenure.Ir.Validation

/-!
# Call graph

Functions that call each other in a circle are analysed together, as one unit. Units come in an
order in which callees stand before their callers, and each has a level above the levels of all
units that it calls: the units of one level do not depend on each other.
-/

namespace Tenure

/-- Functions that are analysed together. -/
structure AnalysisUnit where
  /-- The members in program order. -/
  functions : List FuncId
  /-- Whether a member can come back to itself. -/
  recursive : Bool
  /-- The length of the longest chain of other units below this one. -/
  level : Nat
deriving DecidableEq, Inhabited

/-- Which functions call which. -/
structure CallGraph where
  /-- Every defined function with the defined functions it calls, in program order. -/
  edges : List (FuncId × List FuncId)
deriving DecidableEq, Inhabited

/-- The call graph of a program. Callees are in ascending order, each once. -/
def Program.callGraph (p : Program) : CallGraph where
  edges := p.functions.map fun f =>
    (f.id, ascending (f.directCallees.filter p.defines))

namespace CallGraph

/-- The functions of the program in order. -/
def functions (g : CallGraph) : List FuncId := g.edges.map Prod.fst

/-- The functions that a function calls. -/
def callees (g : CallGraph) (f : FuncId) : List FuncId :=
  ((g.edges.find? fun e => e.1 = f).map Prod.snd).getD []

/-- Whether a function calls itself directly. -/
def callsItself (g : CallGraph) (f : FuncId) : Bool := (g.callees f).contains f

/-- The members of all units: the components of the graph, callees before callers. -/
def groups (g : CallGraph) : List (List FuncId) :=
  Graph.components g.callees g.edges.length g.functions

/-- The position of the unit of a function. -/
def groupOf? (groups : List (List FuncId)) (f : FuncId) : Option Nat :=
  groups.findIdx? fun members => members.contains f

/-- The level of the unit at the next position, from the units before it. -/
def levelOf (g : CallGraph) (groups : List (List FuncId)) (units : List AnalysisUnit)
    (members : List FuncId) : Nat :=
  let called := (members.flatMap g.callees).filterMap (groupOf? groups)
  let below := called.filter fun position => position ≠ units.length
  below.foldl (fun level position => max level ((units.getD position default).level + 1)) 0

/-- The unit at the next position, from the units before it. -/
def toUnit (g : CallGraph) (groups : List (List FuncId)) (units : List AnalysisUnit)
    (members : List FuncId) : AnalysisUnit where
  functions := members.mergeSort fun a b => g.functions.idxOf a ≤ g.functions.idxOf b
  recursive := 1 < members.length || members.head?.any g.callsItself
  level := g.levelOf groups units members

/-- The units, callees before callers. -/
def units (g : CallGraph) : List AnalysisUnit :=
  let groups := g.groups
  groups.foldl (fun units members => units ++ [g.toUnit groups units members]) []

/-- The units by level. -/
def levels (g : CallGraph) : List (List AnalysisUnit) :=
  let units := g.units
  let depth := units.foldl (fun depth unit => max depth (unit.level + 1)) 0
  (List.range depth).map fun level => units.filter fun unit => unit.level = level

end CallGraph

end Tenure

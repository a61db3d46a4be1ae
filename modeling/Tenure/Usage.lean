import Tenure.Ir.Func
import Tenure.Usage.Access

/-!
# Usage of a function

Every use of every binding in program order, every definition and every evaluated allocation site.
One walk over the program points records them and fills the tables that lead to the uses of a
binding, to the uses at a point and to the definition at a point. The collection never fails: dead
code is recorded like any other, and so are uses of unknown bindings, which only the table by binding
leaves out.

Points are named by the declared id of their block.
-/

namespace Tenure

/-- A recorded use. Ids count the uses of a function in program order. They are natural numbers
without a bound: counted in 32 bits, the ids of a function with more than `2 ^ 32` uses would
repeat. The same holds for the numbers of groups. -/
abbrev UseId := Nat

/-- How listings name a use. -/
def UseId.text (u : UseId) : String := s!"u{u}"

/-- One use of a binding. -/
structure Use extends Access where
  id : UseId
  point : Point
  /-- The number of the call or capture list it belongs to. -/
  group : Option Nat
  /-- Where control goes from the block of the use. -/
  successors : List BlockId
deriving DecidableEq, Inhabited

/-- An assignment that initialises a binding. -/
structure Definition where
  binding : BindingId
  point : Point
  span : Span
deriving DecidableEq, Inhabited

/-- An evaluated allocation expression and the binding it initialises. -/
structure AllocSite where
  alloc : AllocId
  dest : Option BindingId
  point : Point
  span : Span
deriving DecidableEq, Inhabited

/-- A program point of a function with what happens there. -/
structure Site where
  point : Point
  step : Step
  /-- Where control goes from the block. -/
  successors : List BlockId
deriving DecidableEq, Inhabited

/-! ## Program points with their steps -/

/-- The program points of a block. -/
def Block.sites (b : Block) : List Site :=
  b.steps.zipIdx.map fun (step, index) => ⟨⟨b.id, index⟩, step, b.successors⟩

/-- The program points of a function in program order. -/
def Func.sites (f : Func) : List Site := f.blocks.flatMap Block.sites

namespace Site

/-- The use that an access at a point makes, under an id; one of a list belongs to the group
`group`. -/
def use (s : Site) (group : Nat) (a : Access) (id : UseId) : Use :=
  { a with
    id
    point := s.point
    group := if a.isGrouped then some group else none
    successors := s.successors }

/-- The definition at a point. -/
def definition? (s : Site) : Option Definition :=
  match s.step with
  | .statement ⟨.assign dest _, span⟩ => some ⟨dest, s.point, span⟩
  | _ => none

/-- The allocation at a point. -/
def allocation? (s : Site) : Option AllocSite :=
  match s.step with
  | .statement ⟨.assign dest (.alloc alloc _), span⟩ => some ⟨alloc, some dest, s.point, span⟩
  | .statement ⟨.fieldWrite _ _ (.alloc alloc _), span⟩ => some ⟨alloc, none, s.point, span⟩
  | .statement ⟨.eval (.alloc alloc _), span⟩ => some ⟨alloc, none, s.point, span⟩
  | _ => none

end Site

/-! ## Tables by point -/

/-- A table whose keys are points, each of them once. -/
abbrev PointTable (α : Type) := List (Point × α)

namespace PointTable

variable {α : Type}

/-- The entry of a point. -/
def get? (t : PointTable α) (p : Point) : Option α := (t.find? fun e => e.1 = p).map Prod.snd

/-- Change the entry of a point, which there need not be. -/
def alter (t : PointTable α) (p : Point) (change : Option α → α) : PointTable α :=
  match t with
  | [] => [(p, change none)]
  | e :: rest => if e.1 = p then (p, change (some e.2)) :: rest else e :: alter rest p change

end PointTable

/-! ## The collected usage -/

/-- All that is recorded about the bindings of a function. -/
structure Usage where
  uses : List Use
  /-- For each declared binding the ids of its uses. -/
  byBinding : List (List UseId)
  /-- For each point with uses their ids. -/
  byPoint : PointTable (List UseId)
  definitions : List Definition
  /-- For each point with a definition the binding that is initialised there last. -/
  definedAt : PointTable BindingId
  allocations : List AllocSite
deriving DecidableEq, Inhabited

namespace Usage

/-- Nothing recorded about a number of bindings. -/
def start (bindings : Nat) : Usage where
  uses := []
  byBinding := List.replicate bindings []
  byPoint := []
  definitions := []
  definedAt := []
  allocations := []

/-- Nothing recorded. -/
def empty : Usage := start 0

/-- Record an access at a point. A binding that is not declared has no entry in the table by
binding. -/
def record (u : Usage) (s : Site) (group : Nat) (a : Access) : Usage :=
  let id := u.uses.length
  { u with
    uses := u.uses ++ [s.use group a id]
    byBinding := u.byBinding.modify a.binding (· ++ [id])
    byPoint := u.byPoint.alter s.point fun ids => ids.getD [] ++ [id] }

/-- Record a definition. -/
def define (u : Usage) (d : Definition) : Usage :=
  { u with
    definitions := u.definitions ++ [d]
    definedAt := u.definedAt.alter d.point fun _ => d.binding }

/-- Record an evaluated allocation site. -/
def allocate (u : Usage) (site : AllocSite) : Usage :=
  { u with allocations := u.allocations ++ [site] }

/-- The ids of the uses of a binding in program order. -/
def idsOf (u : Usage) (b : BindingId) : List UseId := u.byBinding.getD b []

/-- The ids of the uses at a point in the order of evaluation. -/
def idsAt (u : Usage) (p : Point) : List UseId := (u.byPoint.get? p).getD []

/-- The uses with these ids. -/
def withIds (u : Usage) (ids : List UseId) : List Use := ids.filterMap fun id => u.uses[id]?

/-- The uses of a declared binding in program order. -/
def usesOf (u : Usage) (b : BindingId) : List Use := u.withIds (u.idsOf b)

/-- The uses at a point in the order of evaluation. -/
def usesAt (u : Usage) (p : Point) : List Use := u.withIds (u.idsAt p)

/-- The binding that is initialised at a point. -/
def definitionAt (u : Usage) (p : Point) : Option BindingId := u.definedAt.get? p

/-- The point where an allocation site is evaluated first. -/
def allocationSite? (u : Usage) (alloc : AllocId) : Option AllocSite :=
  u.allocations.find? fun s => s.alloc = alloc

end Usage

/-- How far the walk over the points of a function has come. -/
structure Recorder where
  usage : Usage
  /-- The number of the next call or capture list. -/
  nextGroup : Nat
deriving DecidableEq, Inhabited

/-- Record what happens at one point. -/
def Recorder.visit (r : Recorder) (s : Site) : Recorder :=
  let used := s.step.accesses.foldl (fun u a => u.record s r.nextGroup a) r.usage
  let defined := s.definition?.elim used used.define
  { usage := s.allocation?.elim defined defined.allocate
    nextGroup := if s.step.isGrouping then r.nextGroup + 1 else r.nextGroup }

/-- The usage of a function. -/
def Func.usage (f : Func) : Usage :=
  (f.sites.foldl Recorder.visit ⟨Usage.start f.bindings.length, 0⟩).usage

end Tenure

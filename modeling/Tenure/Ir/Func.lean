import Tenure.Fault
import Tenure.Graph.Search
import Tenure.Ir.Block

/-!
# Functions

A function body: its bindings, its blocks and its regions, each in a table indexed by id. Block 0
is the entry, region 0 the region of the whole body. From the jumps between blocks come
predecessors, reachable blocks and the reverse post-order.
-/

namespace Tenure

/-- How a binding comes into being. -/
inductive BindingKind where
  | param
  | letBound
  | varBound
deriving DecidableEq, Inhabited

/-- A declared binding. -/
structure Binding where
  name : String
  ty : Ty
  kind : BindingKind
  /-- The region that declares it. -/
  region : RegionId
  keyword : Option Keyword
  span : Span
deriving DecidableEq, Inhabited

/-- Whether the caller owns the binding's storage. -/
def Binding.isParam (b : Binding) : Bool := b.kind = .param

/-- The mode a keyword on the declaration fixes. -/
def Binding.fixedMode? (b : Binding) : Option Mode := b.keyword.map Mode.ofKeyword

/-- Kinds of allocation regions. -/
inductive RegionKind where
  /-- The implicit region of a whole function. -/
  | body
  /-- A `region` block. -/
  | region
  /-- An `arena` block, whose members are freed together whenever they were made. -/
  | arena
deriving DecidableEq, Inhabited

namespace RegionKind

/-- Whether the programmer wrote the region. -/
def isExplicit : RegionKind → Bool
  | body => false
  | region | arena => true

/-- The kind as listings and messages name it. -/
def keyword : RegionKind → String
  | body => "function body"
  | region => "region"
  | arena => "arena"

end RegionKind

/-- A declared region. It carries the id it was declared under, which validation compares with its
position in the function. -/
structure Region where
  id : RegionId
  kind : RegionKind
  parent : Option RegionId
  /-- The block control falls through to at the end of the region. -/
  exit : Option BlockId
  span : Span
deriving DecidableEq, Inhabited

/-- A function body. -/
structure Func where
  id : FuncId
  name : String
  span : Span
  params : List BindingId
  bindings : List Binding
  blocks : List Block
  regions : List Region
  /-- The spans of the allocation sites. -/
  allocations : List Span
  isAsync : Bool
deriving DecidableEq, Inhabited

namespace Func

/-- The entry block. -/
def entry : BlockId := 0

/-- The region of the whole body. -/
def bodyRegion : RegionId := 0

/-- The block with this id. -/
def block (f : Func) (b : BlockId) : Except Fault Block := lookup f.blocks b (.noBlock b)

/-- The declaration of a binding. -/
def binding (f : Func) (b : BindingId) : Except Fault Binding := lookup f.bindings b (.noBinding b)

/-- The declaration of a region. -/
def region (f : Func) (r : RegionId) : Except Fault Region := lookup f.regions r (.noRegion r)

/-- The ids of the blocks. -/
def blockIds (f : Func) : List BlockId := List.range f.blocks.length

/-- The ids of the bindings. -/
def bindingIds (f : Func) : List BindingId := List.range f.bindings.length

/-- Where control may go from a block; nowhere from one that is not there. -/
def successors (f : Func) (b : BlockId) : List BlockId :=
  match f.blocks[b]? with
  | some block => block.successors
  | none => []

/-- The program points of a block, its terminator last. -/
def pointsOf (f : Func) (b : BlockId) : List Point :=
  match f.blocks[b]? with
  | some block => (List.range (block.statements.length + 1)).map (Point.mk b)
  | none => []

/-! ## Control flow -/

/-- The blocks that name `b` as a successor, by their declared ids and in block order. -/
def predecessors (f : Func) (b : BlockId) : List BlockId :=
  (f.blocks.filter fun block => block.successors.contains b).map Block.id

/-- The depth-first search of the blocks from the entry. A target that is not there has no
successors, and it is the last block of its path. -/
def blockSearch (f : Func) : Graph.Search :=
  Graph.search f.successors (f.blocks.length + 1) (if f.blocks.isEmpty then [] else [entry])

/-- The reachable blocks in reverse post-order, the entry first. A jump from a reachable block to
one that is not there is a fault. -/
def reversePostorder (f : Func) : Except Fault (List BlockId) :=
  let order := f.blockSearch.finished
  match order.find? fun b => f.blocks.length ≤ b with
  | some b => .error (.noBlock b)
  | none => .ok order

/-- The reachable blocks in ascending order. -/
def reachable (f : Func) : Except Fault (List BlockId) := do
  let order ← f.reversePostorder
  return f.blockIds.filter order.contains

end Func

end Tenure

import Tenure.BindingSet
import Tenure.Graph.Search
import Tenure.Usage

/-!
# Liveness of bindings

A binding is live at a program point if some path from there comes to a use of it before a
definition of it. Liveness is computed for every block, reachable or not: first the sets at the
entries of blocks, by sweeps against the flow until nothing changes, then the sets around every
point.
-/

namespace Tenure

/-- The bindings live before a point, from what it defines, what it uses and those live after it. -/
def BindingSet.beforePoint (after : BindingSet) (defined : Option BindingId) (uses : List Use) :
    BindingSet :=
  let kept :=
    match defined with
    | some b => after.erase b
    | none => after
  uses.foldl (fun s x => s.insert x.binding) kept

/-- The bindings live before a point, from those live after it. -/
def Usage.liveBefore (u : Usage) (p : Point) (after : BindingSet) : BindingSet :=
  after.beforePoint (u.definitionAt p) (u.usesAt p)

/-- The bindings live before point `index` of a block with points up to `last`, from those live at
its end. -/
def Usage.liveFrom (u : Usage) (b : BlockId) (last index : Nat) (atEnd : BindingSet) : BindingSet :=
  (List.range' index (last + 1 - index)).foldr (fun i s => u.liveBefore ⟨b, i⟩ s) atEnd

/-- A block as liveness sees it: its id, the index of its terminator, and where control goes. -/
structure LiveBlock where
  id : BlockId
  last : Nat
  successors : List BlockId
deriving DecidableEq, Inhabited

/-- The blocks in order. Control leaves a block along the successors of the block with its id. -/
def Func.liveBlocks (f : Func) : Except Fault (List LiveBlock) :=
  f.blocks.mapM fun block => do
    let named ← f.block block.id
    return ⟨block.id, block.statements.length, named.successors⟩

namespace LiveBlock

/-- The bindings live at the end of a block, from those live at the entries of blocks. -/
def atEnd (b : LiveBlock) (width : Nat) (entries : List BindingSet) : BindingSet :=
  b.successors.foldl (fun s c => s.union (entries.getD c (.empty width))) (.empty width)

/-- The bindings live before a point of the block. -/
def before (b : LiveBlock) (u : Usage) (width : Nat) (entries : List BindingSet) (index : Nat) :
    BindingSet :=
  u.liveFrom b.id b.last index (b.atEnd width entries)

end LiveBlock

/-- Recompute the entry of every block, the last block first. -/
def liveSweep (u : Usage) (width : Nat) (blocks : List LiveBlock) (entries : List BindingSet) :
    List BindingSet :=
  blocks.reverse.foldl (fun e b => e.set b.id (b.before u width e 0)) entries

/-- The live sets around one program point. -/
structure LivePoint where
  point : Point
  before : BindingSet
  after : BindingSet
deriving DecidableEq, Inhabited

/-- The live sets around every program point of a function. -/
structure Liveness where
  width : Nat
  points : List LivePoint
deriving DecidableEq, Inhabited

/-- The live sets around the points of a block. -/
def LiveBlock.points (b : LiveBlock) (u : Usage) (width : Nat) (entries : List BindingSet) :
    List LivePoint :=
  (List.range (b.last + 1)).map fun i =>
    ⟨⟨b.id, i⟩, b.before u width entries i, b.before u width entries (i + 1)⟩

/-- Liveness of a function. A block with an id that is not there is a fault. -/
def Func.liveness (f : Func) (u : Usage) : Except Fault Liveness := do
  let width := f.bindings.length
  let blocks ← f.liveBlocks
  let start := List.replicate f.blocks.length (BindingSet.empty width)
  let entries ← settled <|
    Graph.settle (liveSweep u width blocks) (Nat.pow 2 (width * f.blocks.length) + 1) start
  return ⟨width, blocks.flatMap fun b => b.points u width entries⟩

namespace Liveness

/-- The sets around a point. -/
def at? (l : Liveness) (p : Point) : Option LivePoint :=
  l.points.reverse.find? fun x => x.point = p

/-- The bindings live before a point; none at a point that does not exist. -/
def liveIn (l : Liveness) (p : Point) : BindingSet :=
  ((l.at? p).map LivePoint.before).getD (.empty l.width)

/-- The bindings live after a point; none at a point that does not exist. -/
def liveOut (l : Liveness) (p : Point) : BindingSet :=
  ((l.at? p).map LivePoint.after).getD (.empty l.width)

/-- Whether a binding is live before a point. -/
def isLiveIn (l : Liveness) (p : Point) (b : BindingId) : Bool := (l.liveIn p).contains b

/-- Whether a binding is live after a point. -/
def isLiveOut (l : Liveness) (p : Point) (b : BindingId) : Bool := (l.liveOut p).contains b

/-- Whether one of the bindings is live at the entry of a block. -/
def anyLiveAtEntry (l : Liveness) (b : BlockId) (bindings : List BindingId) : Bool :=
  (l.liveIn ⟨b, 0⟩).containsAny bindings

end Liveness

end Tenure

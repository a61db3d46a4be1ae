/-!
# Strongly connected components

Nodes that can reach each other form a component. One depth-first search finds all components: nodes
are numbered as they are met, and wait on a stack until their component is known. The low link of a
node is the smallest number of a waiting node that is known to be within its reach. A node that is
done with its own number as its low link closes a component, which is all of the stack down to that
node. Every component that it leads to has been closed before.
-/

namespace Tenure.Graph

/-- How far the search for components has come. Of several entries for one node the first counts. -/
structure ComponentSearch where
  /-- The numbers of the nodes met. -/
  index : List (Nat × Nat)
  /-- The low links of the nodes met. -/
  low : List (Nat × Nat)
  /-- Whether a node is on the stack. -/
  waiting : List (Nat × Bool)
  /-- The nodes whose component is not closed, the latest first. -/
  stack : List Nat
  /-- The number of the next new node. -/
  next : Nat
  /-- The closed components in order. -/
  components : List (List Nat)
deriving DecidableEq, Inhabited

namespace ComponentSearch

/-- Nothing met yet. -/
def start : ComponentSearch := ⟨[], [], [], [], 0, []⟩

/-- Whether a node has been met. -/
def isMet (s : ComponentSearch) (v : Nat) : Bool := (s.index.lookup v).isSome

/-- The number of a node. -/
def indexOf (s : ComponentSearch) (v : Nat) : Nat := (s.index.lookup v).getD 0

/-- The low link of a node. -/
def lowOf (s : ComponentSearch) (v : Nat) : Nat := (s.low.lookup v).getD 0

/-- Whether a node waits for its component. -/
def isWaiting (s : ComponentSearch) (v : Nat) : Bool := (s.waiting.lookup v).getD false

/-- Meet a new node. -/
def enter (s : ComponentSearch) (v : Nat) : ComponentSearch :=
  { s with
    index := (v, s.next) :: s.index
    low := (v, s.next) :: s.low
    waiting := (v, true) :: s.waiting
    stack := v :: s.stack
    next := s.next + 1 }

/-- Lower the low link of a node to a bound. -/
def lower (s : ComponentSearch) (v bound : Nat) : ComponentSearch :=
  { s with low := (v, min (s.lowOf v) bound) :: s.low }

/-- Take a stack apart into the nodes down to `root` and the rest. -/
def popTo (root : Nat) : List Nat → List Nat × List Nat
  | [] => ([], [])
  | v :: rest =>
    if v = root then ([v], rest)
    else
      let (taken, left) := popTo root rest
      (v :: taken, left)

/-- Close the component of a node: it is the stack down to the node. -/
def close (s : ComponentSearch) (root : Nat) : ComponentSearch :=
  let (taken, left) := popTo root s.stack
  { s with
    waiting := taken.foldl (fun waiting v => (v, false) :: waiting) s.waiting
    stack := left
    components := s.components ++ [taken] }

/-- Follow an edge from `v` to `w`, where `visit` searches from a new node. -/
def follow (visit : Nat → ComponentSearch → ComponentSearch) (v : Nat) (s : ComponentSearch)
    (w : Nat) : ComponentSearch :=
  if s.isMet w then
    if s.isWaiting w then s.lower v (s.indexOf w) else s
  else
    let below := visit w s
    below.lower v (below.lowOf w)

end ComponentSearch

/-- Search from a new node. The depth bounds the length of a path of new nodes; the number of nodes
is enough. -/
def connect (succ : Nat → List Nat) : Nat → Nat → ComponentSearch → ComponentSearch
  | 0, _, s => s
  | depth + 1, v, s =>
    let below := (succ v).foldl (ComponentSearch.follow (connect succ depth) v) (s.enter v)
    if below.lowOf v = below.indexOf v then below.close v else below

/-- The search from several roots in order. -/
def searchComponents (succ : Nat → List Nat) (depth : Nat) (roots : List Nat) : ComponentSearch :=
  roots.foldl (fun s v => if s.isMet v then s else connect succ depth v s) .start

/-- The components of all that can be reached from the roots. A component comes after those that it
leads to. -/
def components (succ : Nat → List Nat) (depth : Nat) (roots : List Nat) : List (List Nat) :=
  (searchComponents succ depth roots).components

end Tenure.Graph

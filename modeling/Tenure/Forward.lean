import Tenure.Graph.Search
import Tenure.Ir.Func

/-!
# Forward data-flow analysis

An analysis along the flow of control. A state is carried from the entry of a block through its
program points; at the entry of a block the states at the ends of its predecessors are joined. The
states at the ends of blocks are recomputed in sweeps over the blocks until a sweep changes none.
-/

namespace Tenure

/-- A forward analysis with states in `σ`. -/
structure Forward (σ : Type) where
  /-- The state before anything is known, neutral for `join`. -/
  start : σ
  join : σ → σ → σ
  /-- The state after a program point, from the state before it. -/
  step : Point → σ → σ

namespace Forward

variable {σ : Type}

/-- The state at the entry of a block, from the states at the ends of blocks. -/
def entry (a : Forward σ) (f : Func) (exits : List σ) (b : BlockId) : σ :=
  (f.predecessors b).foldl (fun s p => a.join s (exits.getD p a.start)) a.start

/-- The state after some program points in a row. -/
def through (a : Forward σ) (points : List Point) (s : σ) : σ :=
  points.foldl (fun s p => a.step p s) s

/-- Recompute the states at the ends of the blocks in order. -/
def sweep (a : Forward σ) (f : Func) (order : List BlockId) (exits : List σ) : List σ :=
  order.foldl (fun e b => e.set b (a.through (f.pointsOf b) (a.entry f e b))) exits

/-- Nothing known at the end of any block. -/
def initial (a : Forward σ) (f : Func) : List σ := List.replicate f.blocks.length a.start

/-- The states at the ends of blocks that a sweep over `order` keeps. Here `states` is the number of
states one block can have. -/
def exits [DecidableEq σ] (a : Forward σ) (f : Func) (order : List BlockId) (states : Nat) :
    Except Fault (List σ) :=
  settled <| Graph.settle (a.sweep f order) (Nat.pow states f.blocks.length + 1) (a.initial f)

/-- The program points of a block, each with the state before it. -/
def trace (a : Forward σ) (f : Func) (exits : List σ) (b : BlockId) : List (Point × σ) :=
  go (f.pointsOf b) (a.entry f exits b)
where
  /-- Pair each point with the state before it. -/
  go : List Point → σ → List (Point × σ)
    | [], _ => []
    | p :: rest, s => (p, s) :: go rest (a.step p s)

end Forward

end Tenure

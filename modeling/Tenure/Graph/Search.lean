/-!
# Depth-first search and repeated sweeps

A graph is given by the successors of each node. The search visits successors in their order and
keeps the nodes it has finished, the latest first: in that list a node stands before every node that
it reaches and that does not reach it.

The data-flow analyses repeat a sweep over a graph until it changes nothing. Over finitely many
states a repeated sweep comes to such a state within as many steps as there are states, or never.
-/

namespace Tenure.Graph

/-- How far a search has come. -/
structure Search where
  /-- The nodes met so far. -/
  seen : List Nat
  /-- The nodes whose successors have all been visited, the latest first. -/
  finished : List Nat
deriving DecidableEq, Inhabited

/-- Nothing met yet. -/
def Search.start : Search := ⟨[], []⟩

/-- Visit a node and everything new below it. The depth bounds the length of a path of new nodes;
the number of nodes is enough. -/
def visit (succ : Nat → List Nat) : Nat → Nat → Search → Search
  | 0, _, s => s
  | depth + 1, v, s =>
    if v ∈ s.seen then s
    else
      let below := (succ v).foldl (fun s w => visit succ depth w s) ⟨v :: s.seen, s.finished⟩
      ⟨below.seen, v :: below.finished⟩

/-- Search from several roots in order. -/
def search (succ : Nat → List Nat) (depth : Nat) (roots : List Nat) : Search :=
  roots.foldl (fun s v => visit succ depth v s) .start

/-- The nodes that can be reached from the roots, the roots among them. -/
def reach (succ : Nat → List Nat) (depth : Nat) (roots : List Nat) : List Nat :=
  (search succ depth roots).finished

/-! ## Repeated sweeps -/

/-- The first state that `step` keeps among `s` and its iterates, if fewer than `bound` steps lead
to it. -/
def settle {σ : Type} [DecidableEq σ] (step : σ → σ) : Nat → σ → Option σ
  | 0, _ => none
  | bound + 1, s =>
    let t := step s
    if t = s then some s else settle step bound t

end Tenure.Graph

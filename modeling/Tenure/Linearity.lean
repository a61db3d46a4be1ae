import Tenure.Facts

/-!
# Linearity

No use may come after a move of its binding on any path, unless the binding is defined in between.
The forward analysis carries for each binding a move that may have consumed it; where paths join,
the earliest such move is kept.
-/

namespace Tenure

/-- A use that consumed its binding. -/
structure Move where
  use : UseId
  span : Span
  /-- What the consuming operation needed before any keyword. -/
  required : Mode
deriving DecidableEq, Inhabited

/-- The move that a use is. -/
def SolvedUse.asMove (u : SolvedUse) : Move := ⟨u.id, u.span, u.required⟩

namespace Linearity

/-- For each binding, the move that may have consumed it. -/
abbrev MoveState := List (Option Move)

/-- The earlier of two moves. -/
def earlier : Option Move → Option Move → Option Move
  | some a, some b => if a.use ≤ b.use then some a else some b
  | some a, none => some a
  | none, b => b

/-- Record a consuming use, unless a move is recorded already. -/
def consume (s : MoveState) (u : SolvedUse) : MoveState :=
  if u.consumes then s.modify u.binding fun m => m.or (some u.asMove) else s

/-- The forward analysis of moves. A definition makes its binding whole again. -/
def moves (facts : Facts) : Forward MoveState where
  start := List.replicate facts.func.bindings.length none
  join := List.zipWith earlier
  step := fun p s =>
    let used := (facts.solution.usesAt p).foldl consume s
    match facts.usage.definitionAt p with
    | some b => used.set b none
    | none => used

/-- The moves at the ends of blocks. -/
def moveExits (facts : Facts) : Except Fault (List MoveState) := do
  let order ← facts.func.reversePostorder
  let states := Nat.pow (facts.solution.uses.length + 1) facts.func.bindings.length
  (moves facts).exits facts.func order states

/-- The report on a use whose binding may have been moved. -/
def report? (s : MoveState) (u : SolvedUse) : Option Violation :=
  (s.getD u.binding none).map fun m =>
    .useAfterMove u.decl.name u.id u.span m.use m.span m.required

/-- Every use that may follow a move of its binding. The operands at one point are all compared with
the state before the point. -/
def violations (facts : Facts) : Except Fault (List Violation) := do
  let exits ← moveExits facts
  return facts.solution.reachable.flatMap fun b =>
    ((moves facts).trace facts.func exits b).flatMap fun (p, s) =>
      (facts.solution.usesAt p).filterMap (report? s)

end Linearity

end Tenure

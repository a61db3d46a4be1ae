import Tenure.Proofs.Facts.DeadCode
import Tenure.Proofs.Forward.Correspondence
import Tenure.Proofs.Linearity

/-!
# Linearity without dead code

The move analysis of a function corresponds to that of its pruned form: where paths join it keeps
the move with the smaller number, and the order of these numbers stays. So the same moves are
reported, or none of the two analyses comes to rest (`violations_eq`).
-/

namespace Tenure

/-- The move under its new number. -/
def Move.renumber (r : Renumbering) (m : Move) : Move := { m with use := r.use m.use }

namespace Linearity

variable {facts core : Facts} {r : Renumbering} {s t : MoveState}

/-- The state under new numbers. -/
def MoveState.renumber (r : Renumbering) (s : MoveState) : MoveState :=
  s.map (Option.map (Move.renumber r))

theorem MoveState.renumber_injective (hr : r.Increasing) :
    Function.Injective (MoveState.renumber r) := by
  have hmove : Function.Injective (Move.renumber r) := by
    rintro ⟨use, span, required⟩ ⟨use', span', required'⟩ heq
    simp only [Move.renumber, Move.mk.injEq] at heq
    obtain ⟨huse, rfl, rfl⟩ := heq
    rw [hr.use.injective huse]
  exact List.map_injective_iff.mpr (Option.map_injective hmove)

theorem earlier_none (m : Option Move) : earlier m none = m := by
  cases m <;> rfl

theorem earlier_renumber (hr : r.Increasing) (m n : Option Move) :
    earlier (m.map (Move.renumber r)) (n.map (Move.renumber r)) =
      (earlier m n).map (Move.renumber r) := by
  cases m with
  | none => rfl
  | some m =>
    cases n with
    | none => rfl
    | some n =>
      have hle : r.use m.use ≤ r.use n.use ↔ m.use ≤ n.use := hr.use.le_iff_le
      simp only [Option.map_some, earlier, Move.renumber, hle]
      split <;> rfl

theorem consume_renumber (s : MoveState) (u : SolvedUse) :
    consume (s.renumber r) (u.renumber r) = (consume s u).renumber r := by
  have hconsumes : (u.renumber r).consumes = u.consumes := rfl
  rw [consume, consume, hconsumes]
  split
  · refine List.ext_getElem? fun i => ?_
    simp only [MoveState.renumber, List.getElem?_map, List.getElem?_modify, Option.map_eq_map,
      Option.map_map]
    refine Option.map_congr fun m _ => ?_
    have hbinding : (u.renumber r).binding = u.binding := rfl
    simp only [Function.comp_apply, hbinding]
    split
    · cases m <;> rfl
    · rfl
  · rfl

theorem foldl_consume_renumber (us : List SolvedUse) (s : MoveState) :
    (us.map (SolvedUse.renumber r)).foldl consume (s.renumber r) =
      (us.foldl consume s).renumber r := by
  induction us generalizing s with
  | nil => rfl
  | cons u us ih => rw [List.map_cons, List.foldl_cons, List.foldl_cons, consume_renumber, ih]

theorem moves_corresponds (h : facts.PrunedTo r core) :
    (moves core).CorrespondsTo (moves facts) facts.solution.reachable (Wide core)
      (MoveState.renumber r) where
  injective := MoveState.renumber_injective h.increasing
  shaped := moves_shaped core
  neutral {s} hs := by
    rw [Wide] at hs
    refine List.ext_getElem? fun i => ?_
    simp only [moves, List.getElem?_zipWith, List.getElem?_replicate]
    by_cases hi : i < s.length
    · simp [hi, ← hs, earlier_none]
    · simp [hi, ← hs]
  start := by
    simp [moves, MoveState.renumber, h.func, Func.prune]
  join _ _ := by
    simp only [moves, MoveState.renumber, List.zipWith_map, List.map_zipWith,
      earlier_renumber h.increasing]
  step {p s} hp _ := by
    simp only [moves, h.usesAt_eq hp, ← h.definitionAt hp, foldl_consume_renumber]
    cases core.usage.definitionAt p with
    | none => rfl
    | some b => simp only [MoveState.renumber, List.map_set, Option.map_none]

/-! ## Reports -/

theorem report?_renumber (s : MoveState) (u : SolvedUse) :
    report? (s.renumber r) (u.renumber r) = (report? s u).map (Violation.renumber r) := by
  have hget : (s.renumber r).getD u.binding none =
      (s.getD u.binding none).map (Move.renumber r) := List.getD_map s none _
  have hbinding : (u.renumber r).binding = u.binding := rfl
  rw [report?, report?, hbinding, hget, Option.map_map, Option.map_map]
  rfl

theorem moveExits_eq_core (hf : facts.func.Valid) (h : facts.PrunedTo r core) :
    moveExits facts = (moveExits core).map (List.map (MoveState.renumber r)) := by
  obtain ⟨order, horder, horder', hlive⟩ := h.exists_order hf
  rw [moveExits_eq horder, moveExits_eq horder']
  exact (moves_corresponds h).exits_eq h.func h.agrees hlive (moves_exits_isOk_iff core order)
    (moves_exits_isOk_iff facts order)

/-- Dead code makes no difference to the reports but for the numbers in them. -/
theorem violations_eq (hf : facts.func.Valid) (h : facts.PrunedTo r core) :
    violations facts = (violations core).map (List.map (Violation.renumber r)) := by
  rw [violations, violations, moveExits_eq_core hf h]
  cases hexits : moveExits core with
  | error fault => rfl
  | ok exits =>
    have hlive : (moves core).LiveExits facts.solution.reachable (Wide core) exits := by
      obtain ⟨order, -, horder', hlive⟩ := h.exists_order hf
      rw [moveExits_eq horder'] at hexits
      exact Forward.liveExits_of_exits (moves_shaped core) hlive hexits
    refine congrArg Except.ok ?_
    simp only [h.reachable, List.map_flatMap, Forward.trace_eq, List.flatMap_map]
    refine List.flatMap_congr fun b hb => ?_
    rw [h.agrees.pointsOf_eq hb]
    refine List.flatMap_congr fun p hp => ?_
    obtain rfl := Func.block_eq_of_mem_pointsOf hp
    rw [(moves_corresponds h).before_eq h.func h.agrees hlive hb, h.usesAt_eq hb,
      List.filterMap_map, List.map_filterMap]
    exact List.filterMap_congr fun u _ => report?_renumber _ u

end Linearity

end Tenure

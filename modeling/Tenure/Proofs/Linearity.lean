import Tenure.Linearity
import Tenure.Proofs.Facts

/-!
# The move analysis, binding by binding

The states of the move analysis are read at one binding `x`. A point records the first use there
that consumes `x`, unless a move is recorded already, and forgets it if it defines `x`
(`at?_moves_step`). That some move is recorded is a fact that points make and keep
(`moves_tracks`), so in settled states it says exactly that a move has come along a path.

The analysis need not settle. It has a result exactly if some sweep changes nothing
(`moveExits_isOk_iff`).
-/

namespace Tenure.Linearity

open Relation

variable {facts : Facts} {s t : MoveState} {x : BindingId} {p : Point}

/-! ## One binding of a state -/

/-- The move recorded for a binding. -/
def at? (s : MoveState) (x : BindingId) : Option Move := s.getD x none

/-- The first of some uses that consumes a binding, as a move. -/
def firstMove (us : List SolvedUse) (x : BindingId) : Option Move :=
  (us.find? fun u => u.consumes && u.binding = x).map SolvedUse.asMove

theorem firstMove_cons (u : SolvedUse) (us : List SolvedUse) :
    firstMove (u :: us) x =
      if u.consumes = true ∧ u.binding = x then some u.asMove else firstMove us x := by
  rw [firstMove, List.find?_cons]
  by_cases h : u.consumes = true ∧ u.binding = x
  · simp [h.1, h.2]
  · have hfalse : (u.consumes && decide (u.binding = x)) = false := by simpa using h
    rw [if_neg h, hfalse]
    rfl

theorem firstMove_eq_some {us : List SolvedUse} {m : Move} (h : firstMove us x = some m) :
    ∃ u ∈ us, u.consumes = true ∧ u.binding = x ∧ m = u.asMove := by
  obtain ⟨u, hu, rfl⟩ := Option.map_eq_some_iff.mp h
  have hmoves := List.find?_some hu
  simp only [Bool.and_eq_true, decide_eq_true_eq] at hmoves
  exact ⟨u, List.mem_of_find?_eq_some hu, hmoves.1, hmoves.2, rfl⟩

theorem firstMove_isSome {us : List SolvedUse} :
    (firstMove us x).isSome = true ↔ ∃ u ∈ us, u.consumes = true ∧ u.binding = x := by
  rw [firstMove, Option.isSome_map, List.find?_isSome]
  simp

theorem length_consume (u : SolvedUse) : (consume s u).length = s.length := by
  rw [consume]
  split
  · exact List.length_modify _ _ _
  · rfl

theorem length_foldl_consume (us : List SolvedUse) : (us.foldl consume s).length = s.length := by
  induction us generalizing s with
  | nil => rfl
  | cons u us ih => rw [List.foldl_cons, ih, length_consume]

theorem at?_consume (hx : x < s.length) (u : SolvedUse) :
    at? (consume s u) x =
      (at? s x).or (if u.consumes = true ∧ u.binding = x then some u.asMove else none) := by
  rw [consume]
  by_cases hu : u.consumes = true
  · rw [if_pos hu]
    by_cases hb : u.binding = x
    · subst hb
      rw [at?, Table.getD_modify_self hx, if_pos ⟨hu, rfl⟩]
      rfl
    · rw [at?, Table.getD_modify_ne hb, if_neg fun h => hb h.2, Option.or_none]
      rfl
  · rw [if_neg hu, if_neg fun h => hu h.1, Option.or_none]

theorem at?_foldl_consume (us : List SolvedUse) (hx : x < s.length) :
    at? (us.foldl consume s) x = (at? s x).or (firstMove us x) := by
  induction us generalizing s with
  | nil => exact Option.or_none.symm
  | cons u us ih =>
    rw [List.foldl_cons, ih (by rw [length_consume]; exact hx), at?_consume hx, Option.or_assoc,
      firstMove_cons]
    by_cases hu : u.consumes = true ∧ u.binding = x
    · rw [if_pos hu, if_pos hu]
      rfl
    · rw [if_neg hu, if_neg hu]
      rfl

/-! ## Steps and joins -/

/-- A state with one entry for each binding. -/
def Wide (facts : Facts) (s : MoveState) : Prop := s.length = facts.func.bindings.length

theorem moves_shaped (facts : Facts) : (moves facts).Shaped (Wide facts) where
  start := List.length_replicate
  join {s t} hs ht := by
    rw [Wide] at hs ht ⊢
    simp [moves, hs, ht]
  step {p s} hs := by
    rw [Wide] at hs ⊢
    simp only [moves]
    split
    · rw [List.length_set, length_foldl_consume, hs]
    · rw [length_foldl_consume, hs]

@[simp]
theorem at?_moves_start : at? (moves facts).start x = none := Table.getD_replicate _ x none

theorem at?_moves_join (hs : Wide facts s) (ht : Wide facts t) :
    at? ((moves facts).join s t) x = earlier (at? s x) (at? t x) :=
  Table.getD_zipWith (hs.trans ht.symm) rfl

/-- What a point does to the move recorded for one binding. -/
theorem at?_moves_step (hs : Wide facts s) (hx : x < facts.func.bindings.length) (p : Point) :
    at? ((moves facts).step p s) x =
      if facts.usage.definitionAt p = some x then none
      else (at? s x).or (firstMove (facts.solution.usesAt p) x) := by
  have hlen : x < s.length := by rw [hs]; exact hx
  simp only [moves]
  cases hdef : facts.usage.definitionAt p with
  | none => simpa using at?_foldl_consume _ hlen
  | some b =>
    by_cases hb : b = x
    · subst hb
      rw [at?, Table.getD_set_self (by rw [length_foldl_consume]; exact hlen), if_pos rfl]
    · rw [at?, Table.getD_set_ne hb, if_neg (by simpa using hb)]
      exact at?_foldl_consume _ hlen

theorem isSome_earlier (a b : Option Move) :
    (earlier a b).isSome = true ↔ a.isSome = true ∨ b.isSome = true := by
  cases a with
  | none => simp [earlier]
  | some a =>
    cases b with
    | none => simp [earlier]
    | some b =>
      rw [earlier]
      split <;> simp

theorem earlier_eq_or (a b : Option Move) : earlier a b = a ∨ earlier a b = b := by
  cases a with
  | none => exact Or.inr rfl
  | some a =>
    cases b with
    | none => exact Or.inl rfl
    | some b =>
      rw [earlier]
      split
      · exact Or.inl rfl
      · exact Or.inr rfl

/-- A point leaves a move of `x` behind: a use there consumes `x`, and the point does not define
it. -/
def MovesAt (facts : Facts) (x : BindingId) (p : Point) : Prop :=
  facts.usage.definitionAt p ≠ some x ∧
    ∃ u ∈ facts.solution.usesAt p, u.consumes = true ∧ u.binding = x

/-- A point keeps the moves of `x`: it does not define it. -/
def Keeps (facts : Facts) (x : BindingId) (p : Point) : Prop :=
  facts.usage.definitionAt p ≠ some x

/-- That a move of `x` is recorded is a fact that points make and keep. -/
theorem moves_tracks (hx : x < facts.func.bindings.length) :
    (moves facts).Tracks (Wide facts) (fun s => (at? s x).isSome = true) (MovesAt facts x)
      (Keeps facts x) where
  start := by simp
  join hs ht := by rw [at?_moves_join hs ht, isSome_earlier]
  step {p s} hs := by
    rw [at?_moves_step hs hx, MovesAt, Keeps]
    by_cases hdef : facts.usage.definitionAt p = some x
    · simp [hdef]
    · rw [if_neg hdef, Option.isSome_or, Bool.or_eq_true, firstMove_isSome]
      simp [hdef, or_comm]

/-! ## Coming to rest -/

/-- Some sweep of the move analysis changes nothing. -/
def ComesToRest (facts : Facts) : Prop :=
  ∃ order n, facts.func.reversePostorder = .ok order ∧
    (moves facts).sweep facts.func order ((moves facts).afterSweeps facts.func order n) =
      (moves facts).afterSweeps facts.func order n

/-- What may be recorded for a binding. -/
def marks (facts : Facts) : Finset (Option Move) :=
  insert none (facts.solution.uses.map fun u => some u.asMove).toFinset

theorem asMove_mem_marks {u : SolvedUse} (hu : u ∈ facts.solution.uses) :
    some u.asMove ∈ marks facts :=
  Finset.mem_insert_of_mem (List.mem_toFinset.mpr (List.mem_map.mpr ⟨u, hu, rfl⟩))

private theorem card_marks_le : (marks facts).card ≤ facts.solution.uses.length + 1 := by
  refine (Finset.card_insert_le _ _).trans (Nat.succ_le_succ ?_)
  exact (List.toFinset_card_le _).trans_eq (List.length_map _)

private theorem firstMove_mem_marks : firstMove (facts.solution.usesAt p) x ∈ marks facts := by
  cases h : firstMove (facts.solution.usesAt p) x with
  | none => exact Finset.mem_insert_self _ _
  | some m =>
    obtain ⟨u, hu, -, -, rfl⟩ := firstMove_eq_some h
    exact asMove_mem_marks (Solution.mem_usesAt.mp hu).1

/-- A state has one entry for each binding, and every move in it is one of the uses. -/
theorem moves_shaped_tables (facts : Facts) :
    (moves facts).Shaped (· ∈ Table.tables (marks facts) facts.func.bindings.length) := by
  have hiff : ∀ {s}, s ∈ Table.tables (marks facts) facts.func.bindings.length ↔
      Wide facts s ∧ ∀ x < facts.func.bindings.length, at? s x ∈ marks facts :=
    Table.mem_tables_iff_getD none
  have hwide := moves_shaped facts
  refine ⟨hiff.mpr ⟨hwide.start, fun x _ => ?_⟩, fun {s t} hs ht => ?_, fun {p s} hs => ?_⟩
  · rw [at?_moves_start]
    exact Finset.mem_insert_self _ _
  · rw [hiff] at hs ht ⊢
    refine ⟨hwide.join hs.1 ht.1, fun x hx => ?_⟩
    rw [at?_moves_join hs.1 ht.1]
    rcases earlier_eq_or (at? s x) (at? t x) with h | h
    · rw [h]
      exact hs.2 x hx
    · rw [h]
      exact ht.2 x hx
  · rw [hiff] at hs ⊢
    refine ⟨hwide.step hs.1, fun x hx => ?_⟩
    rw [at?_moves_step hs.1 hx]
    split
    · exact Finset.mem_insert_self _ _
    · have hmark := hs.2 x hx
      cases hat : at? s x with
      | none => exact firstMove_mem_marks
      | some m =>
        rw [hat] at hmark
        exact hmark

theorem moveExits_eq {order : List BlockId} (horder : facts.func.reversePostorder = .ok order) :
    moveExits facts = (moves facts).exits facts.func order
      (Nat.pow (facts.solution.uses.length + 1) facts.func.bindings.length) := by
  rw [moveExits, horder]
  rfl

theorem moves_exits_isOk_iff (facts : Facts) (order : List BlockId) :
    (∃ exits, (moves facts).exits facts.func order
      (Nat.pow (facts.solution.uses.length + 1) facts.func.bindings.length) = .ok exits) ↔
      ∃ n, (moves facts).sweep facts.func order ((moves facts).afterSweeps facts.func order n) =
        (moves facts).afterSweeps facts.func order n := by
  have hcard : (Table.tables (marks facts) facts.func.bindings.length).card ≤
      Nat.pow (facts.solution.uses.length + 1) facts.func.bindings.length :=
    (Table.card_tables_le _ _).trans (Nat.pow_le_pow_left card_marks_le _)
  exact Forward.exits_isOk_iff _ (moves_shaped_tables facts) hcard

/-- The move analysis has a result exactly if it comes to rest. -/
theorem moveExits_isOk_iff {order : List BlockId}
    (horder : facts.func.reversePostorder = .ok order) :
    (∃ exits, moveExits facts = .ok exits) ↔ ComesToRest facts := by
  rw [moveExits_eq horder, moves_exits_isOk_iff]
  constructor
  · rintro ⟨n, hn⟩
    exact ⟨order, n, horder, hn⟩
  · rintro ⟨order', n, horder', hn⟩
    obtain rfl : order' = order := Except.ok.inj (horder'.symm.trans horder)
    exact ⟨n, hn⟩

end Tenure.Linearity

import Tenure.Proofs.Exclusivity
import Tenure.Proofs.Indexed.Tables
import Tenure.Proofs.Linearity

/-!
# The checks over tables

Linearity and exclusivity with every row and every entry of a state read by index. A move is
recorded by the number of its use, so a report looks the use up again; that works because every
recorded move is one of the uses, after any number of sweeps.
-/

namespace Tenure

/-- The tables that come with the facts. -/
def Facts.tables (facts : Facts) : Tables := ⟨facts.func, facts.usage, facts.solution.uses⟩

/-- The facts are over `f`: all but the liveness are those of `f` in the environment `env`. -/
structure Facts.Over (env : Environment) (f : Func) (facts : Facts) : Prop where
  func : facts.func = f
  usage : facts.usage = f.usage
  solved : env.Solved f facts.solution

namespace Facts.Over

variable {env : Environment} {f : Func} {facts : Facts} (h : facts.Over env f)
include h

theorem sound : facts.tables.Sound := by
  obtain rfl := h.func
  refine ⟨h.usage, ?_, h.solved.decl⟩
  rw [tables, h.usage]
  exact h.solved.uses

theorem use_eq {u : SolvedUse} (hu : u ∈ facts.solution.uses) : facts.tables.use u.id = some u :=
  h.sound.use_eq hu

theorem usesAt_eq (p : Point) : facts.tables.usesAt p = some (facts.solution.usesAt p) :=
  h.sound.usesAt_eq p

theorem usesOf_eq {b : BindingId} (hb : b < facts.func.bindings.length) :
    facts.tables.usesOf b = some (facts.solution.uses.filter fun u => u.binding = b) :=
  h.sound.usesOf_eq hb

theorem allUses_eq : facts.tables.allUses = some facts.solution.uses := h.sound.allUses_eq

theorem reachable_lt (hf : f.Valid) {b : BlockId} (hb : b ∈ facts.solution.reachable) :
    b < f.blocks.length := by
  obtain ⟨order, horder, ht⟩ := Func.reversePostorder_spec hf
  exact ht.lt (((h.solved.reachable_spec horder ht).2 b).mp hb)

end Facts.Over

namespace Indexed

open Linearity Exclusivity

variable {ι : Type} {env : Environment} {f : Func} {facts : Facts}

/-! ## Linearity -/

/-- The moves after a point. -/
def moveStep (facts : Facts) (p : Point) (s : MoveState) : Option MoveState := do
  let uses ← facts.tables.usesAt p
  let used ← uses.foldlM (fun s u =>
    if u.consumes then update s u.binding fun m => m.or (some u.asMove) else some s) s
  match facts.usage.definitionAt p with
  | some b => update used b fun _ => none
  | none => return used

/-- The report on a use. A recorded move is looked up by its number. -/
def report (facts : Facts) (s : MoveState) (u : SolvedUse) : Option (Option Violation) := do
  let recorded ← s[u.binding]?
  match recorded with
  | none => return none
  | some m =>
    let moved ← facts.tables.use m.use
    return some (.useAfterMove u.decl.name u.id u.span m.use moved.span moved.required)

/-- The reports on the uses of the reachable blocks, from the moves at the ends of blocks. -/
def reports (facts : Facts) (exits : List MoveState) : Option (List Violation) := do
  let perBlock ← facts.solution.reachable.mapM fun b => do
    let trace ← (moves facts).traceBy (moveStep facts) facts.func exits b
    let perPoint ← trace.mapM fun (p, s) => do
      let uses ← facts.tables.usesAt p
      let found ← uses.mapM (report facts s)
      return found.filterMap id
    return perPoint.flatten
  return perBlock.flatten

/-- Every use that may follow a move of its binding, after a number of sweeps. -/
def linearity (facts : Facts) (sweeps : Nat) : Option (List Violation) := do
  let exits ← (moves facts).exitsOver (moveStep facts) facts.func sweeps
  reports facts exits

theorem mapM_filterMap_eq_some {α β : Type} {g : α → Option (Option β)} {result : α → Option β}
    {l : List α} (h : ∀ a ∈ l, g a = some (result a)) :
    (do
      let found ← l.mapM g
      return found.filterMap id) = some (l.filterMap result) := by
  rw [mapM_eq_some_map h, some_bind, List.filterMap_map]
  rfl

section Linearity

variable (h : facts.Over env f) (hf : f.Valid)
include h hf

theorem moveStep_reads : (moves facts).Reads (moveStep facts)
    (· ∈ Table.tables (marks facts) facts.func.bindings.length) where
  shaped := moves_shaped_tables facts
  step_eq {p s} hs := by
    obtain rfl := h.func
    replace hs : s.length = facts.func.bindings.length := (Table.mem_tables.mp hs).1
    have hused : (facts.solution.usesAt p).foldlM (fun s u =>
        if u.consumes then update s u.binding fun m => m.or (some u.asMove) else some s) s =
          some ((facts.solution.usesAt p).foldl consume s) := by
      refine foldlM_eq_some (P := fun s => s.length = facts.func.bindings.length)
        (fun s hs u hu => ⟨?_, by rw [length_consume, hs]⟩) hs
      have hlt := h.solved.binding_lt hf (Solution.mem_usesAt.mp hu).1
      rw [consume]
      split
      · exact update_eq (by rw [hs]; exact hlt) _
      · rfl
    rw [moveStep, h.usesAt_eq, some_bind, hused, some_bind]
    simp only [moves]
    cases hdef : facts.usage.definitionAt p with
    | none => rfl
    | some b =>
      refine update_const ?_ _
      rw [length_foldl_consume, hs]
      exact Func.definitionAt_lt hf (h.usage ▸ hdef)

theorem report_eq {s : MoveState}
    (hs : s ∈ Table.tables (marks facts) facts.func.bindings.length) {u : SolvedUse}
    (hu : u ∈ facts.solution.uses) : report facts s u = some (report? s u) := by
  obtain rfl := h.func
  obtain ⟨hlen, hmarks⟩ := Table.mem_tables.mp hs
  have hlt : u.binding < s.length := by
    rw [hlen]
    exact h.solved.binding_lt hf hu
  rw [report, report?, List.getElem?_eq_getElem hlt, some_bind, List.getD_eq_getElem _ _ hlt]
  have hmark := hmarks _ (List.getElem_mem hlt)
  cases hrecorded : s[u.binding] with
  | none => rfl
  | some m =>
    -- what is recorded is a use, and its number leads back to it
    rw [hrecorded, marks, Finset.mem_insert, List.mem_toFinset, List.mem_map] at hmark
    obtain ⟨v, hv, heq⟩ := hmark.resolve_left (by simp)
    obtain rfl := Option.some.inj heq
    show (facts.tables.use v.id >>= _) = _
    rw [h.use_eq hv]
    rfl

theorem reports_eq {order : List BlockId} (n : Nat) :
    reports facts ((moves facts).afterSweeps facts.func order n) =
      some (facts.solution.reachable.flatMap fun b =>
        ((moves facts).trace facts.func ((moves facts).afterSweeps facts.func order n) b).flatMap
          fun (p, s) => (facts.solution.usesAt p).filterMap (report? s)) := by
  have hreads := moveStep_reads h hf
  refine mapM_flatten_eq_some fun b hb => ?_
  have hlt : b < facts.func.blocks.length := by
    rw [h.func]
    exact h.reachable_lt hf hb
  rw [hreads.traceBy_eq (hreads.shaped.afterSweeps n) hlt, some_bind]
  refine mapM_flatten_eq_some fun (p, s) hps => ?_
  dsimp only
  rw [h.usesAt_eq, some_bind]
  refine mapM_filterMap_eq_some fun u hu => report_eq h hf ?_ (Solution.mem_usesAt.mp hu).1
  exact hreads.shaped.of_mem_trace (hreads.shaped.afterSweeps n) hps

theorem linearity_mirrors (i : ι) :
    Mirrors (fun _ => True) (fun s => linearity facts (s i)) (Linearity.violations facts) := by
  obtain rfl := h.func
  obtain ⟨order, horder, -⟩ := Func.reversePostorder_spec hf
  simp only [linearity, Linearity.violations, moveExits_eq horder]
  refine ((moveStep_reads h hf).exitsOver_mirrors hf horder _ i).bind fun exits hexits => ?_
  obtain ⟨n, rfl⟩ := hexits
  exact .const rfl (reports_eq h hf n) trivial

end Linearity

/-! ## Exclusivity -/

/-- The operands of each call, in a table by the number of the call. -/
def groupTable (live : List SolvedUse) : List (Nat × List SolvedUse) :=
  (live.filterMap fun u => u.group).map fun n => (n, live.filter fun u => u.group = some n)

/-- Every operand that an earlier operand of its call excludes. -/
def groupConflicts (facts : Facts) : Option (List (UseId × Violation)) := do
  let uses ← facts.tables.allUses
  let live := uses.filter fun u => facts.solution.isReachable u.point
  let found ← live.mapM fun later =>
    match later.group with
    | none => some none
    | some n => do
      let members ← (groupTable live).lookup n
      return (members.find? fun first => clash first later).map fun first =>
        (later.id, conflict later first.span first.resolved)
  return found.filterMap id

/-- The loans of a function. -/
def loans (facts : Facts) : Option (List Loan) := do
  let uses ← facts.tables.allUses
  return uses.filterMap (loanOf? uses)

/-- Every use at a point that a loan reaching it excludes. The use that took the loan is looked
up. -/
def loanConflictsAt (facts : Facts) (taken : List Loan) (p : Point) (s : List Bool) :
    Option (List (UseId × Violation)) := do
  let uses ← facts.tables.usesAt p
  let live := facts.liveness.liveIn p
  let active := (taken.zip s).filter fun (loan, reaches) => reaches && live.containsAny loan.aliases
  let perLoan ← active.mapM fun (loan, _) =>
    (uses.filter fun u => u.binding = loan.borrowed && u.id ≠ loan.use &&
      overlaps loan.mode u.resolved).mapM fun u => do
        let origin ← facts.tables.use loan.use
        return (u.id, conflict u origin.span loan.mode)
  return perLoan.flatten

/-- The step of the analysis of loans reads nothing by index. -/
def loanStep (facts : Facts) (taken : List Loan) (p : Point) (s : List Bool) : Option (List Bool) :=
  some ((reaching facts.usage taken).step p s)

/-- Every use that a loan excludes, from the loans that reach the ends of blocks. -/
def loanConflicts (facts : Facts) (taken : List Loan) (exits : List (List Bool)) :
    Option (List (UseId × Violation)) := do
  let perBlock ← facts.solution.reachable.mapM fun b => do
    let trace ← (reaching facts.usage taken).traceBy (loanStep facts taken) facts.func exits b
    let perPoint ← trace.mapM fun (p, s) => loanConflictsAt facts taken p s
    return perPoint.flatten
  return perBlock.flatten

/-- Every use that overlaps with an access it excludes or that excludes it, after a number of
sweeps. -/
def exclusivity (facts : Facts) (sweeps : Nat) : Option (List Violation) := do
  let grouped ← groupConflicts facts
  let taken ← loans facts
  let exits ← (reaching facts.usage taken).exitsOver (loanStep facts taken) facts.func sweeps
  let held ← loanConflicts facts taken exits
  return keepFirst [] (grouped ++ held)

theorem lookup_map_pair {α : Type} {members : Nat → α} {ns : List Nat} {n : Nat} (hn : n ∈ ns) :
    (ns.map fun n => (n, members n)).lookup n = some (members n) := by
  induction ns with
  | nil => cases hn
  | cons m ns ih =>
    rw [List.map_cons, List.lookup_cons]
    by_cases heq : n = m
    · simp [heq]
    · have hne : (n == m) = false := by simpa using heq
      rw [hne]
      exact ih ((List.mem_cons.mp hn).resolve_left heq)

section Exclusivity

variable (h : facts.Over env f) (hf : f.Valid)
include h

/-- Operands of one call are found through the table of calls. -/
theorem groupConflicts_eq :
    groupConflicts facts = some (Exclusivity.groupConflicts facts.solution) := by
  rw [groupConflicts, h.allUses_eq, some_bind]
  refine mapM_filterMap_eq_some fun later hlater => ?_
  have hgroup : ∀ first, clash first later = true →
      first.group.isSome = true ∧ first.group = later.group := by
    intro first hclash
    simp only [clash, Bool.and_eq_true, decide_eq_true_eq] at hclash
    exact ⟨hclash.1.1.1.1.2, hclash.1.1.1.2⟩
  cases hlist : later.group with
  | none =>
    have hnone : facts.solution.liveUses.find? (fun first => clash first later) = none := by
      refine List.find?_eq_none.mpr fun first _ hclash => ?_
      obtain ⟨hsome, heq⟩ := hgroup first hclash
      rw [heq, hlist] at hsome
      cases hsome
    rw [hnone]
    rfl
  | some n =>
    have hmem : n ∈ facts.solution.liveUses.filterMap fun u => u.group :=
      List.mem_filterMap.mpr ⟨later, hlater, hlist⟩
    have hfind : (facts.solution.liveUses.filter fun u => u.group = some n).find?
        (fun first => clash first later) =
          facts.solution.liveUses.find? fun first => clash first later := by
      rw [List.find?_filter]
      congr 1
      funext first
      cases hclash : clash first later with
      | false => simp
      | true => simp [(hgroup first hclash).2, hlist]
    show ((groupTable facts.solution.liveUses).lookup n >>= _) = _
    rw [groupTable, lookup_map_pair hmem, some_bind, hfind]
    rfl

theorem loans_eq : loans facts = some (Exclusivity.loans facts.solution) := by
  rw [loans, h.allUses_eq]
  rfl

/-- The use that took a loan is looked up by its number. -/
theorem use_of_loan {loan : Loan} (hloan : loan ∈ Exclusivity.loans facts.solution) :
    ∃ u, facts.tables.use loan.use = some u ∧ u.span = loan.span := by
  obtain ⟨u, hu, hsome⟩ := List.mem_filterMap.mp hloan
  refine ⟨u, ?_⟩
  rw [loanOf?] at hsome
  split at hsome
  next =>
    obtain ⟨isMutable, -, rfl⟩ := Option.map_eq_some_iff.mp hsome
    exact ⟨h.use_eq hu, rfl⟩
  next => cases hsome

theorem loanConflictsAt_eq (p : Point) (s : List Bool) :
    loanConflictsAt facts (Exclusivity.loans facts.solution) p s =
      some (Exclusivity.loanConflictsAt facts (Exclusivity.loans facts.solution) p s) := by
  rw [loanConflictsAt, h.usesAt_eq, some_bind]
  refine mapM_flatten_eq_some fun (loan, reaches) hactive => ?_
  have hloan := (List.of_mem_zip (List.mem_of_mem_filter hactive)).1
  obtain ⟨origin, horigin, hspan⟩ := use_of_loan h hloan
  refine mapM_eq_some_map fun u _ => ?_
  rw [horigin, some_bind, hspan]
  rfl

omit h in
theorem loanStep_reads (taken : List Loan) :
    (reaching facts.usage taken).Reads (loanStep facts taken) fun _ => True where
  shaped := ⟨trivial, fun _ _ => trivial, fun _ => trivial⟩
  step_eq _ := rfl

include hf

theorem loanConflicts_eq (exits : List (List Bool)) :
    loanConflicts facts (Exclusivity.loans facts.solution) exits =
      some (facts.solution.reachable.flatMap fun b =>
        ((reaching facts.usage (Exclusivity.loans facts.solution)).trace facts.func exits b).flatMap
          fun (p, s) =>
            Exclusivity.loanConflictsAt facts (Exclusivity.loans facts.solution) p s) := by
  refine mapM_flatten_eq_some fun b hb => ?_
  have hlt : b < facts.func.blocks.length := by
    rw [h.func]
    exact h.reachable_lt hf hb
  rw [(loanStep_reads _).traceBy_eq (fun _ => trivial) hlt, some_bind]
  exact mapM_flatten_eq_some fun (p, s) _ => loanConflictsAt_eq h p s

theorem exclusivity_mirrors (i : ι) :
    Mirrors (fun _ => True) (fun s => exclusivity facts (s i)) (Exclusivity.violations facts) := by
  obtain rfl := h.func
  obtain ⟨order, horder, -⟩ := Func.reversePostorder_spec hf
  simp only [exclusivity, groupConflicts_eq h, loans_eq h, some_bind, Exclusivity.violations,
    Exclusivity.loanConflicts, horder, ok_bind, bind_assoc, pure_bind]
  refine ((loanStep_reads _).exitsOver_mirrors hf horder _ i).bind fun exits _ => ?_
  refine .const rfl ?_ trivial
  rw [loanConflicts_eq h hf]
  rfl

end Exclusivity

end Indexed

end Tenure

import Tenure.Proofs.Exclusivity
import Tenure.Proofs.Liveness.Paths

/-!
# Exclusivity is checked exactly

The check works with call groups, with loans that are followed forwards, with live sets that are
computed backwards and with a search for aliases. Here its reports are described without any of
these: a use of a reachable point is reported if and only if an earlier operand of its argument list
or a loan excludes it, and then exactly once, with such an access as the culprit
(`conflictsOn_exact`).
-/

namespace Tenure.Exclusivity

open Relation

variable {env : Environment} {f : Func} {facts : Facts} {first u v : SolvedUse} {holder : BindingId}
  {mode : Mode}

/-! ## What excludes a use -/

/-- The use `first` stands before `u` in one argument list, is of the same binding and of no field
that is known to be another one, and the two overlap. -/
structure OperandExcludes (facts : Facts) (first u : SolvedUse) : Prop where
  mem : first ∈ facts.solution.uses
  earlier : first.id < u.id
  group : ∃ n, first.group = some n ∧ u.group = some n
  binding : first.binding = u.binding
  fields : ∀ a b, first.field = some a → u.field = some b → a = b
  overlap : overlaps first.resolved u.resolved = true

/-- The use takes a loan that `holder` holds, mutable or not: it makes a reference, or it is a
capture that borrows. -/
inductive Lends (v : SolvedUse) (holder : BindingId) : Bool → Prop where
  | reference {isMutable : Bool} (h : v.loan = some (.reference isMutable, some holder)) :
      Lends v holder isMutable
  | capture (h : v.loan = some (.capture, some holder)) (hborrow : v.resolved.isBorrow = true) :
      Lends v holder (v.resolved = .mutableBorrow)

/-- The mode a loan keeps its binding in. -/
def loanMode (isMutable : Bool) : Mode := if isMutable then .mutableBorrow else .immutableBorrow

/-- The value of a binding is moved on to another one by some use. -/
def MovesOn (facts : Facts) (a b : BindingId) : Prop :=
  ∃ w ∈ facts.solution.uses, w.binding = a ∧ w.flow = some (b, .own)

/-- The loan that `v` takes excludes the use `u` of the same binding. It has come along a path of at
least one step with no definition of its holder strictly between, and a binding to which the holder
may have moved the reference is live where `u` stands. -/
structure HeldLoanExcludes (facts : Facts) (v : SolvedUse) (holder : BindingId) (isMutable : Bool)
    (u : SolvedUse) : Prop where
  mem : v ∈ facts.solution.uses
  lends : Lends v holder isMutable
  borrowed : v.binding = u.binding
  other : v.id ≠ u.id
  reachable : facts.func.Reachable v.point
  path : ∃ q, facts.func.Next v.point q ∧
    ReflTransGen (fun p p' => facts.usage.definitionAt p ≠ some holder ∧ facts.func.Next p p') q
      u.point
  live : ∃ a, ReflTransGen (MovesOn facts) holder a ∧ facts.func.Live u.point a
  overlap : overlaps (loanMode isMutable) u.resolved = true

/-- An access at this span and in this mode excludes the use. -/
inductive ExcludedBy (facts : Facts) (u : SolvedUse) : Span → Mode → Prop where
  | operand {first : SolvedUse} (h : OperandExcludes facts first u) :
      ExcludedBy facts u first.span first.resolved
  | loan {v : SolvedUse} {holder : BindingId} {isMutable : Bool}
      (h : HeldLoanExcludes facts v holder isMutable u) :
      ExcludedBy facts u v.span (loanMode isMutable)

/-! ## Operands -/

theorem disjointFields_eq_false : disjointFields first u = false ↔
    ∀ a b, first.field = some a → u.field = some b → a = b := by
  rw [disjointFields]
  cases first.field <;> cases u.field <;> simp

theorem clash_iff (hfirst : first ∈ facts.solution.uses) :
    clash first u = true ↔ OperandExcludes facts first u := by
  simp only [clash, Bool.and_eq_true, decide_eq_true_eq, Bool.not_eq_true', disjointFields_eq_false,
    Option.isSome_iff_exists]
  constructor
  · rintro ⟨⟨⟨⟨⟨hearlier, n, hn⟩, hgroup⟩, hbinding⟩, hfields⟩, hoverlap⟩
    exact ⟨hfirst, hearlier, ⟨n, hn, hgroup ▸ hn⟩, hbinding, hfields, hoverlap⟩
  · rintro ⟨-, hearlier, ⟨n, hn, hun⟩, hbinding, hfields, hoverlap⟩
    exact ⟨⟨⟨⟨⟨hearlier, n, hn⟩, hn.trans hun.symm⟩, hbinding⟩, hfields⟩, hoverlap⟩

/-- Operands of one argument list are all on a path or none is. -/
theorem OperandExcludes.reachable (h : facts.Of env f) (hu : u ∈ facts.solution.uses)
    (hreach : f.Reachable u.point) (hfirst : OperandExcludes facts first u) :
    f.Reachable first.point := by
  obtain ⟨n, hn, hun⟩ := hfirst.group
  have hpoint : first.point = u.point :=
    Func.point_eq_of_group_eq (h.solved.mem_usage hfirst.mem) (h.solved.mem_usage hu) hn hun
  rw [hpoint]
  exact hreach

/-! ## Loans -/

theorem loanOf?_eq_some {uses : List SolvedUse} {loan : Loan} : loanOf? uses v = some loan ↔
    ∃ holder isMutable, Lends v holder isMutable ∧ loan = referenceLoan uses v holder isMutable := by
  constructor
  · intro h
    rw [loanOf?] at h
    split at h
    next origin holder hloan =>
      obtain ⟨isMutable, hlends, rfl⟩ := Option.map_eq_some_iff.mp h
      refine ⟨holder, isMutable, ?_, rfl⟩
      cases origin with
      | reference m =>
        obtain rfl := Option.some.inj hlends
        exact .reference hloan
      | capture =>
        rw [lends?] at hlends
        split at hlends
        next hborrow =>
          obtain rfl := Option.some.inj hlends
          exact .capture hloan hborrow
        next => simp at hlends
    next => simp at h
  · rintro ⟨holder, isMutable, hlends, rfl⟩
    cases hlends with
    | reference h =>
      rw [loanOf?, h]
      rfl
    | capture h hborrow =>
      rw [loanOf?, h]
      simp only [lends?, hborrow, if_true, Option.map_some]
      rfl

/-- The loan that a use takes excludes another use in the sense of the check exactly if it does so
along a path. -/
theorem loanExcludes_iff (hf : f.Valid) (h : facts.Of env f) (hv : v ∈ facts.solution.uses)
    {isMutable : Bool} (hlends : Lends v holder isMutable) (hu : u ∈ facts.solution.uses) :
    LoanExcludes facts (referenceLoan facts.solution.uses v holder isMutable) u ↔
      HeldLoanExcludes facts v holder isMutable u := by
  obtain rfl := h.func
  have hpoint : u.point ∈ facts.func.pointsOf u.point.block :=
    Func.exists_step?_iff.mp (Func.step?_of_mem_uses hf (h.solved.mem_usage hu))
  have hedge : Graph.Edge (ownTargets facts.solution.uses) = MovesOn facts := by
    funext a b
    exact propext mem_ownTargets
  have hlive : (facts.liveness.liveIn u.point).containsAny (ownAliases facts.solution.uses holder) =
      true ↔ ∃ a, ReflTransGen (MovesOn facts) holder a ∧ facts.func.Live u.point a := by
    rw [BindingSet.containsAny, List.any_eq_true]
    refine exists_congr fun a => ?_
    rw [mem_ownAliases, hedge, ← Func.isLiveIn_iff_live hf h.liveness hpoint]
    rfl
  constructor
  · intro hexcludes
    obtain ⟨p, q, hreach, hp, hnext, hpath⟩ := hexcludes.reaches
    have hp : v.point = p := hp
    subst hp
    exact ⟨hv, hlends, hexcludes.borrowed.symm, Ne.symm hexcludes.other, hreach, ⟨q, hnext, hpath⟩,
      hlive.mp hexcludes.live, hexcludes.overlap⟩
  · intro hexcludes
    obtain ⟨q, hnext, hpath⟩ := hexcludes.path
    refine ⟨?_, hexcludes.borrowed.symm, Ne.symm hexcludes.other,
      ⟨v.point, q, hexcludes.reachable, rfl, hnext, hpath⟩, hlive.mpr hexcludes.live,
      hexcludes.overlap⟩
    exact List.mem_filterMap.mpr ⟨v, hv, loanOf?_eq_some.mpr ⟨holder, isMutable, hlends, rfl⟩⟩

/-! ## One report for each use -/

/-- The reports of an excluded use that are about one use. -/
def conflictsOn (use : UseId) (vs : List Violation) : List Violation :=
  vs.filter fun v => v.excludedUse? = some use

/-- Of the findings about one use exactly the first is kept. -/
theorem conflictsOn_keepFirst {found : List (UseId × Violation)}
    (hfound : ∀ entry ∈ found, entry.2.excludedUse? = some entry.1) (met : List UseId)
    (use : UseId) :
    conflictsOn use (keepFirst met found) =
      if use ∈ met then [] else ((found.find? fun entry => entry.1 = use).map Prod.snd).toList := by
  induction found generalizing met with
  | nil => simp [keepFirst, conflictsOn]
  | cons entry rest ih =>
    obtain ⟨use', v⟩ := entry
    have hv : v.excludedUse? = some use' := hfound _ List.mem_cons_self
    have ih := ih fun entry hentry => hfound entry (List.mem_cons_of_mem _ hentry)
    rw [keepFirst]
    by_cases hmet : use' ∈ met
    · rw [if_pos (by simpa using hmet), ih met]
      by_cases huse : use ∈ met
      · simp [huse]
      · have hne : use' ≠ use := fun heq => huse (heq ▸ hmet)
        simp [huse, hne]
    · rw [if_neg (by simpa using hmet)]
      have hcons : conflictsOn use (v :: keepFirst (use' :: met) rest) =
          (if use' = use then [v] else []) ++ conflictsOn use (keepFirst (use' :: met) rest) := by
        by_cases heq : use' = use <;> simp [conflictsOn, hv, heq]
      rw [hcons, ih]
      by_cases heq : use' = use
      · subst heq
        simp [hmet]
      · simp [heq, Ne.symm heq]

/-! ## Exactness -/

/-- Before repetitions are dropped, the findings are about reachable uses that some access excludes,
and there is one about each such use. -/
theorem violations_eq_keepFirst (hf : f.Valid) (h : facts.Of env f) :
    ∃ found, violations facts = .ok (keepFirst [] found) ∧
      (∀ use finding, (use, finding) ∈ found → ∃ u ∈ facts.solution.uses, f.Reachable u.point ∧
        use = u.id ∧ ∃ span mode, ExcludedBy facts u span mode ∧ finding = conflict u span mode) ∧
      ∀ u ∈ facts.solution.uses, f.Reachable u.point → ∀ span mode, ExcludedBy facts u span mode →
        ∃ finding, (u.id, finding) ∈ found := by
  obtain ⟨held, hheld, hiff⟩ := loanConflicts_spec hf h
  refine ⟨groupConflicts facts.solution ++ held, ?_, ?_, ?_⟩
  · rw [violations, hheld]
    rfl
  · intro use finding hmem
    rcases List.mem_append.mp hmem with hmem | hmem
    · obtain ⟨later, hlater, first, hfirst, hclash, rfl, rfl⟩ := mem_groupConflicts hmem
      obtain ⟨hlater, hreach⟩ := (h.solved.mem_liveUses hf).mp hlater
      have hexcludes := (clash_iff ((h.solved.mem_liveUses hf).mp hfirst).1).mp hclash
      exact ⟨later, hlater, hreach, rfl, _, _, .operand hexcludes, rfl⟩
    · obtain ⟨u, hu, hreach, rfl, loan, hloan, rfl⟩ := (hiff _ _).mp hmem
      obtain ⟨v, hv, htaken⟩ := List.mem_filterMap.mp hloan.taken
      obtain ⟨holder, isMutable, hlends, rfl⟩ := loanOf?_eq_some.mp htaken
      have hexcludes := (loanExcludes_iff hf h hv hlends hu).mp hloan
      exact ⟨u, hu, hreach, rfl, _, _, .loan hexcludes, rfl⟩
  · intro u hu hreach span mode hexcluded
    cases hexcluded with
    | operand hexcludes =>
      have hfirst := (h.solved.mem_liveUses hf).mpr
        ⟨hexcludes.mem, hexcludes.reachable h hu hreach⟩
      obtain ⟨finding, hmem⟩ := exists_groupConflict hfirst
        ((h.solved.mem_liveUses hf).mpr ⟨hu, hreach⟩) ((clash_iff hexcludes.mem).mpr hexcludes)
      exact ⟨finding, List.mem_append_left _ hmem⟩
    | loan hexcludes =>
      have hloan := (loanExcludes_iff hf h hexcludes.mem hexcludes.lends hu).mpr hexcludes
      exact ⟨_, List.mem_append_right _ ((hiff _ _).mpr ⟨u, hu, hreach, rfl, _, hloan, rfl⟩)⟩

/-- For a valid function the check has a result, and its reports are exact. A reachable use is
reported once if an earlier operand of its argument list or a loan excludes it, with such an access
as the culprit, and is not reported otherwise. -/
theorem conflictsOn_exact (env : Environment) (f : Func)
    (hvalid : env.program.validateFunction f = .ok ()) :
    ∃ facts vs, env.facts f = .ok facts ∧ violations facts = .ok vs ∧
      ∀ u ∈ facts.solution.uses, f.Reachable u.point →
        ((∃ first, OperandExcludes facts first u) ∨
            (∃ v holder isMutable, HeldLoanExcludes facts v holder isMutable u) →
          ∃ span mode, ExcludedBy facts u span mode ∧
            conflictsOn u.id vs = [conflict u span mode]) ∧
        (¬ ((∃ first, OperandExcludes facts first u) ∨
            ∃ v holder isMutable, HeldLoanExcludes facts v holder isMutable u) →
          conflictsOn u.id vs = []) := by
  have hf := Program.valid_of_validateFunction hvalid
  obtain ⟨facts, hfacts⟩ := env.facts_isOk hf
  have h := Environment.of_facts hfacts
  obtain ⟨found, hvs, hsound, hcomplete⟩ := violations_eq_keepFirst hf h
  refine ⟨facts, _, hfacts, hvs, fun u hu hreach => ?_⟩
  have hkeys : ∀ entry ∈ found, entry.2.excludedUse? = some entry.1 := by
    rintro ⟨use, finding⟩ hmem
    obtain ⟨w, -, -, rfl, span, mode, -, rfl⟩ := hsound use finding hmem
    rfl
  rw [conflictsOn_keepFirst hkeys [] u.id, if_neg List.not_mem_nil]
  cases hfind : found.find? fun entry => entry.1 = u.id with
  | some entry =>
    obtain ⟨use, finding⟩ := entry
    obtain ⟨w, hw, -, hid, span, mode, hexcluded, rfl⟩ :=
      hsound use finding (List.mem_of_find?_eq_some hfind)
    have huse : use = u.id := by simpa using List.find?_some hfind
    obtain rfl := h.solved.eq_of_id_eq hw hu (hid.symm.trans huse)
    refine ⟨fun _ => ⟨span, mode, hexcluded, rfl⟩, fun hnone => absurd ?_ hnone⟩
    cases hexcluded with
    | operand hexcludes => exact Or.inl ⟨_, hexcludes⟩
    | loan hexcludes => exact Or.inr ⟨_, _, _, hexcludes⟩
  | none =>
    refine ⟨fun hsome => ?_, fun _ => rfl⟩
    obtain ⟨span, mode, hexcluded⟩ : ∃ span mode, ExcludedBy facts u span mode := by
      rcases hsome with ⟨first, hexcludes⟩ | ⟨v, holder, isMutable, hexcludes⟩
      · exact ⟨_, _, .operand hexcludes⟩
      · exact ⟨_, _, .loan hexcludes⟩
    obtain ⟨finding, hmem⟩ := hcomplete u hu hreach span mode hexcluded
    have hne := List.find?_eq_none.mp hfind _ hmem
    simp at hne

/-- Takes a reference to `x` into `h` and then, round after round, updates `x` and looks at `h`. -/
def lentLoop : Func where
  id := 0
  name := "watch"
  span := ⟨0, 40⟩
  params := [0]
  bindings := [
    ⟨"x", .named "Data", .param, 0, none, ⟨1, 2⟩⟩,
    ⟨"h", .ref (.named "Data"), .letBound, 0, none, ⟨3, 4⟩⟩]
  blocks := [
    ⟨0, 0, [⟨.assign 1 (.ref (.binding ⟨0, none, ⟨11, 12⟩⟩) false), ⟨10, 12⟩⟩],
      some ⟨.goto 1, ⟨13, 14⟩⟩⟩,
    ⟨1, 0,
      [⟨.eval (.call (.foreign "update") [.binding ⟨0, none, ⟨16, 17⟩⟩]), ⟨15, 17⟩⟩,
        ⟨.eval (.call (.foreign "inspect") [.binding ⟨1, none, ⟨19, 20⟩⟩]), ⟨18, 20⟩⟩],
      some ⟨.branch (.constant (.bool true)) 1 2, ⟨21, 22⟩⟩⟩,
    ⟨2, 0, [], some ⟨.ret none, ⟨30, 36⟩⟩⟩]
  regions := [⟨0, .body, none, none, ⟨0, 40⟩⟩]
  allocations := []
  isAsync := false

/-- The update is excluded in every round and reported once. -/
theorem conflictsOn_lentLoop :
    lendingEnv.program.validateFunction lentLoop = .ok () ∧
    ∃ facts vs, lendingEnv.facts lentLoop = .ok facts ∧ violations facts = .ok vs ∧
      ∃ u ∈ facts.solution.uses, lentLoop.Reachable u.point ∧
        (∃ span mode, ExcludedBy facts u span mode ∧
          conflictsOn u.id vs = [conflict u span mode]) ∧
        conflictsOn u.id vs =
          [.conflictingBorrow "x" 1 ⟨16, 17⟩ .mutableBorrow ⟨11, 12⟩ .immutableBorrow] := by
  have hvalid : lendingEnv.program.validateFunction lentLoop = .ok () := by decide +kernel
  have hrun : (lendingEnv.facts lentLoop >>= fun facts => violations facts >>= fun vs =>
      pure (facts.solution.uses[1]?.map fun u => (u.id, u.point), conflictsOn 1 vs)) =
        .ok (some (1, ⟨1, 0⟩),
          [.conflictingBorrow "x" 1 ⟨16, 17⟩ .mutableBorrow ⟨11, 12⟩ .immutableBorrow]) := by
    decide +kernel
  have hreach : lentLoop.Reachable ⟨1, 0⟩ := by
    have hentry : lentLoop.blocks[0]? = some (lentLoop.blocks.head (by decide)) := rfl
    exact .tail (.single (.within hentry (by decide))) (.jump hentry (by decide))
  obtain ⟨facts, vs, hfacts, hvs, hexact⟩ := conflictsOn_exact lendingEnv lentLoop hvalid
  rw [hfacts, ok_bind, hvs, ok_bind, pure_eq_ok, Prod.mk.injEq] at hrun
  obtain ⟨hget, hreports⟩ := hrun
  obtain ⟨u, hu, hueq⟩ := Option.map_eq_some_iff.mp hget
  obtain ⟨hid, hpoint⟩ := Prod.mk.inj hueq
  rw [← hid] at hreports
  have hmem := List.mem_of_getElem? hu
  obtain ⟨hsome, hnone⟩ := hexact u hmem (hpoint ▸ hreach)
  refine ⟨hvalid, facts, vs, hfacts, hvs, u, hmem, hpoint ▸ hreach, ?_, hid ▸ hreports⟩
  refine hsome (by_contra fun hexcluded => ?_)
  rw [hnone hexcluded] at hreports
  exact List.cons_ne_nil _ _ hreports.symm

end Tenure.Exclusivity

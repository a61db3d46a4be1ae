import Tenure.Proofs.Exclusivity

/-!
# Loans whose reference is handed on

A reference may be handed on from binding to binding after it was taken. The exclusivity check
follows a loan by the binding that took the reference first: it counts every binding that may get
the reference as an alias, wherever control is, but it drops the loan where the first holder is
defined again, though the reference may have been handed on before.

So a use that a carried loan excludes is reported if the first holder is not defined again on the
way, and in general exactly if there is some way on which it is not, or another reason
(`isReported_carried_iff`).
-/

namespace Tenure.Exclusivity

open Relation

/-! ## References on their way -/

/-- The statement at `p` takes a reference and initialises the binding `holder` with it. -/
def TakesLoan (f : Func) (p : Point) (holder : BindingId) (isMutable : Bool) : Prop :=
  ∃ op span, f.step? p = some (.statement ⟨.assign holder (.ref op isMutable), span⟩)

/-- The statement at `p` hands the value of `a` on to `b`. -/
def HandsOn (f : Func) (p : Point) (a b : BindingId) : Prop :=
  ∃ o span, o.binding = a ∧ f.step? p = some (.statement ⟨.assign b (.use (.binding o)), span⟩)

/-- The binding that is defined at a point. -/
def defines? (f : Func) (p : Point) : Option BindingId := (f.step? p).bind Step.dest?

/-- The reference that was taken at `start` into `holder` has come to the point `q`, past the points
listed, and is now held by a binding. It stays where it is at points that do not define its binding,
or is handed on. -/
inductive Carried (f : Func) (start : Point) (holder : BindingId) :
    List Point → Point → BindingId → Prop where
  | take {q : Point} (hstart : f.Reachable start) (hnext : f.Next start q) :
      Carried f start holder [] q holder
  | keep {passed : List Point} {p q : Point} {a : BindingId} (h : Carried f start holder passed p a)
      (hkeep : defines? f p ≠ some a) (hnext : f.Next p q) :
      Carried f start holder (passed ++ [p]) q a
  | hop {passed : List Point} {p q : Point} {a b : BindingId}
      (h : Carried f start holder passed p a) (hhop : HandsOn f p a b) (hnext : f.Next p q) :
      Carried f start holder (passed ++ [p]) q b

variable {env : Environment} {f : Func} {facts : Facts} {start q : Point} {holder a b : BindingId}
  {passed : List Point}

theorem Carried.reachable (h : Carried f start holder passed q a) :
    f.Reachable start ∧ f.Reachable q := by
  induction h with
  | take hstart hnext => exact ⟨hstart, hstart.next hnext⟩
  | keep _ _ hnext ih => exact ⟨ih.1, ih.2.next hnext⟩
  | hop _ _ hnext ih => exact ⟨ih.1, ih.2.next hnext⟩

/-- If the first holder is not defined on the way, the loan has come along. -/
theorem Carried.reaches (h : Carried f start holder passed q a)
    (hkept : ∀ p ∈ passed, defines? f p ≠ some holder) :
    f.Reaches (fun p => start = p) (fun p => defines? f p ≠ some holder) q := by
  induction h with
  | take hstart hnext => exact ⟨start, _, hstart, rfl, hnext, ReflTransGen.refl⟩
  | keep h _ hnext ih =>
    refine Func.Reaches.next h.reachable.2 (Or.inr ⟨hkept _ (by simp), ih fun p hp => ?_⟩) hnext
    exact hkept p (by simp [hp])
  | hop h _ hnext ih =>
    refine Func.Reaches.next h.reachable.2 (Or.inr ⟨hkept _ (by simp), ih fun p hp => ?_⟩) hnext
    exact hkept p (by simp [hp])

/-! ## Aliases -/

/-- Handing a value on is a flow that the aliases follow. -/
theorem HandsOn.edge (hf : f.Valid) (h : facts.Of env f) {p : Point} (hhop : HandsOn f p a b) :
    Graph.Edge (ownTargets facts.solution.uses) a b := by
  obtain ⟨o, span, rfl, hstep⟩ := hhop
  have haccesses := h.solved.map_toAccess_usesAt hf hstep
  obtain ⟨w, hw, hflow⟩ := List.map_eq_singleton_iff.mp haccesses
  have hmem : w ∈ facts.solution.usesAt p := by simp [hw]
  refine mem_ownTargets.mpr ⟨w, (Solution.mem_usesAt.mp hmem).1, ?_, ?_⟩
  · exact congrArg Access.binding hflow
  · exact congrArg Access.flow hflow

/-- Whoever holds the reference is an alias of the first holder. -/
theorem Carried.mem_ownAliases (hf : f.Valid) (h : facts.Of env f)
    (hcarried : Carried f start holder passed q a) :
    a ∈ ownAliases facts.solution.uses holder := by
  rw [Exclusivity.mem_ownAliases]
  induction hcarried with
  | take => exact ReflTransGen.refl
  | keep _ _ _ ih => exact ih
  | hop _ hhop _ ih => exact ih.tail (hhop.edge hf h)

/-! ## The loan of a reference -/

theorem loanOf?_of_takesLoan (hf : f.Valid) (h : facts.Of env f) {v : SolvedUse}
    (hv : v ∈ facts.solution.uses) {isMutable : Bool}
    (htakes : TakesLoan f v.point holder isMutable) :
    loanOf? facts.solution.uses v =
      some (referenceLoan facts.solution.uses v holder isMutable) := by
  obtain ⟨op, span, hstep⟩ := htakes
  have hmem : v.toAccess ∈ (facts.solution.usesAt v.point).map (·.toAccess) :=
    List.mem_map_of_mem (Solution.mem_usesAt.mpr ⟨hv, rfl⟩)
  rw [h.solved.map_toAccess_usesAt hf hstep] at hmem
  obtain ⟨access, -, haccess⟩ := List.mem_map.mp hmem
  have hloan : v.loan = some (.reference isMutable, some holder) :=
    (congrArg Access.loan haccess).symm
  rw [loanOf?, hloan]
  rfl

/-- The loans taken by one use are one loan. -/
theorem eq_of_mem_loans (h : facts.Of env f) {v : SolvedUse} (hv : v ∈ facts.solution.uses)
    {loan loan' : Loan} (hloan : loan ∈ loans facts.solution) (huse : loan.use = v.id)
    (hof : loanOf? facts.solution.uses v = some loan') : loan = loan' := by
  obtain ⟨w, hw, hwloan⟩ := List.mem_filterMap.mp hloan
  have hid : w.id = loan.use := by
    rw [loanOf?] at hwloan
    split at hwloan
    next =>
      obtain ⟨_, -, rfl⟩ := Option.map_eq_some_iff.mp hwloan
      rfl
    next => simp at hwloan
  obtain rfl := h.solved.eq_of_id_eq hw hv (hid.trans huse)
  exact Option.some.inj (hwloan.symm.trans hof)

/-! ## Exactness -/

/-- The use `v` takes a reference that is carried to the use `u` of the same binding. There the
binding `a` that holds the reference is live, and the loan and the use overlap. -/
structure CarriedUse (facts : Facts) (v u : SolvedUse) (holder : BindingId) (isMutable : Bool)
    (passed : List Point) (a : BindingId) : Prop where
  loan_mem : v ∈ facts.solution.uses
  use_mem : u ∈ facts.solution.uses
  takes : TakesLoan facts.func v.point holder isMutable
  carried : Carried facts.func v.point holder passed u.point a
  live : facts.liveness.isLiveIn u.point a = true
  borrowed : u.binding = v.binding
  other : u.id ≠ v.id
  overlap : overlaps (if isMutable then .mutableBorrow else .immutableBorrow) u.resolved = true

/-- The loan of a carried reference excludes the use exactly if it has come along some path on which
the first holder is not defined again. -/
theorem CarriedUse.loanExcludes_iff (hf : f.Valid) (h : facts.Of env f) {v u : SolvedUse}
    {isMutable : Bool} (hu : CarriedUse facts v u holder isMutable passed a) :
    LoanExcludes facts (referenceLoan facts.solution.uses v holder isMutable) u ↔
      f.Reaches (fun p => v.point = p) (fun p => defines? f p ≠ some holder) u.point := by
  obtain rfl := h.func
  have hkeep : (fun p => facts.usage.definitionAt p ≠ some holder) =
      fun p => defines? facts.func p ≠ some holder := by
    funext p
    rw [h.usage, Func.definitionAt_eq hf]
    rfl
  have htaken : referenceLoan facts.solution.uses v holder isMutable ∈ loans facts.solution :=
    List.mem_filterMap.mpr ⟨v, hu.loan_mem, loanOf?_of_takesLoan hf h hu.loan_mem hu.takes⟩
  have hlive : (facts.liveness.liveIn u.point).containsAny
      (ownAliases facts.solution.uses holder) = true :=
    List.any_eq_true.mpr ⟨a, hu.carried.mem_ownAliases hf h, hu.live⟩
  rw [← hkeep]
  exact ⟨fun hexcludes => hexcludes.reaches,
    fun hreaches => ⟨htaken, hu.borrowed, hu.other, hreaches, hlive, hu.overlap⟩⟩

/-- For a valid function the check has a result. A use that a carried reference excludes is reported
if the first holder of the reference is not defined again on the way. In general it is reported
exactly if an earlier operand of its call excludes it, if it can be reached from where the reference
was taken without a definition of the first holder, or if another loan excludes it. -/
theorem isReported_carried_iff (env : Environment) (f : Func)
    (hvalid : env.program.validateFunction f = .ok ()) :
    ∃ facts vs, env.facts f = .ok facts ∧ violations facts = .ok vs ∧
      ∀ v u holder isMutable passed a, CarriedUse facts v u holder isMutable passed a →
        ((∀ p ∈ passed, defines? f p ≠ some holder) → IsReported u vs) ∧
        (IsReported u vs ↔
          (∃ first ∈ facts.solution.liveUses, clash first u = true) ∨
          f.Reaches (fun p => v.point = p) (fun p => defines? f p ≠ some holder) u.point ∨
          ∃ loan, loan.use ≠ v.id ∧ LoanExcludes facts loan u) := by
  have hf := Program.valid_of_validateFunction hvalid
  obtain ⟨facts, hfacts⟩ := env.facts_isOk hf
  have h := Environment.of_facts hfacts
  obtain ⟨vs, hvs, hreported⟩ := isReported_iff hf h
  refine ⟨facts, vs, hfacts, hvs, fun v u holder isMutable passed a hu => ?_⟩
  have hcarried : Carried f v.point holder passed u.point a := h.func ▸ hu.carried
  have hiff : IsReported u vs ↔ (∃ first ∈ facts.solution.liveUses, clash first u = true) ∨
      f.Reaches (fun p => v.point = p) (fun p => defines? f p ≠ some holder) u.point ∨
      ∃ loan, loan.use ≠ v.id ∧ LoanExcludes facts loan u := by
    rw [hreported u hu.use_mem hcarried.reachable.2, ← hu.loanExcludes_iff hf h]
    refine or_congr_right ⟨?_, ?_⟩
    · rintro ⟨loan, hloan⟩
      -- the only loan that `v` takes is that of the reference
      by_cases huse : loan.use = v.id
      · have htakes : TakesLoan f v.point holder isMutable := h.func ▸ hu.takes
        have hsame := eq_of_mem_loans h hu.loan_mem hloan.taken huse
          (loanOf?_of_takesLoan hf h hu.loan_mem htakes)
        exact Or.inl (hsame ▸ hloan)
      · exact Or.inr ⟨loan, huse, hloan⟩
    · rintro (hloan | ⟨loan, -, hloan⟩)
      · exact ⟨_, hloan⟩
      · exact ⟨loan, hloan⟩
  exact ⟨fun hkept => hiff.mpr (Or.inr (Or.inl (hcarried.reaches hkept))), hiff⟩

/-- Takes a reference to `x` into `h`, hands it on to `a`, takes another one into `h`, updates `x`
and then looks at `a`. -/
def reusedHolder : Func where
  id := 0
  name := "reuse"
  span := ⟨0, 40⟩
  params := [0, 1]
  bindings := [
    ⟨"x", .named "Data", .param, 0, none, ⟨1, 2⟩⟩,
    ⟨"y", .named "Data", .param, 0, none, ⟨3, 4⟩⟩,
    ⟨"h", .ref (.named "Data"), .varBound, 0, none, ⟨5, 6⟩⟩,
    ⟨"a", .ref (.named "Data"), .letBound, 0, none, ⟨7, 8⟩⟩]
  blocks := [
    ⟨0, 0,
      [⟨.assign 2 (.ref (.binding ⟨0, none, ⟨11, 12⟩⟩) false), ⟨10, 12⟩⟩,
        ⟨.assign 3 (.use (.binding ⟨2, none, ⟨14, 15⟩⟩)), ⟨13, 15⟩⟩,
        ⟨.assign 2 (.ref (.binding ⟨1, none, ⟨17, 18⟩⟩) false), ⟨16, 18⟩⟩,
        ⟨.eval (.call (.foreign "update") [.binding ⟨0, none, ⟨20, 21⟩⟩]), ⟨19, 21⟩⟩,
        ⟨.eval (.call (.foreign "inspect") [.binding ⟨3, none, ⟨23, 24⟩⟩]), ⟨22, 24⟩⟩],
      some ⟨.ret none, ⟨30, 36⟩⟩⟩]
  regions := [⟨0, .body, none, none, ⟨0, 40⟩⟩]
  allocations := []
  isAsync := false

private theorem reusedHolder_carried :
    Carried reusedHolder ⟨0, 0⟩ 2 [⟨0, 1⟩, ⟨0, 2⟩] ⟨0, 3⟩ 3 := by
  have hnext : ∀ i < 5, reusedHolder.Next ⟨0, i⟩ ⟨0, i + 1⟩ := fun i hi => .within rfl hi
  have htake : Carried reusedHolder ⟨0, 0⟩ 2 [] ⟨0, 1⟩ 2 :=
    .take ReflTransGen.refl (hnext 0 (by decide))
  have hhop : HandsOn reusedHolder ⟨0, 1⟩ 2 3 := ⟨⟨2, none, ⟨14, 15⟩⟩, ⟨13, 15⟩, rfl, rfl⟩
  exact (htake.hop hhop (hnext 1 (by decide))).keep (by decide) (hnext 2 (by decide))

/-- The update of `x` is not reported, although `a` still holds the reference to `x`. -/
theorem reusedHolder_not_reported :
    lendingEnv.program.validateFunction reusedHolder = .ok () ∧
    ∃ facts vs, lendingEnv.facts reusedHolder = .ok facts ∧ violations facts = .ok vs ∧
      ∃ v u, CarriedUse facts v u 2 false [⟨0, 1⟩, ⟨0, 2⟩] 3 ∧ ¬ IsReported u vs ∧
        defines? reusedHolder ⟨0, 2⟩ = some 2 ∧
        ¬ reusedHolder.Reaches (fun p => v.point = p) (fun p => defines? reusedHolder p ≠ some 2)
          u.point := by
  have hvalid : lendingEnv.program.validateFunction reusedHolder = .ok () := by
    decide +kernel
  have hrun : (lendingEnv.facts reusedHolder >>= fun facts =>
      violations facts >>= fun vs => pure (vs, facts.liveness.isLiveIn ⟨0, 3⟩ 3)) =
        .ok ([], true) := by
    decide +kernel
  have huses : (lendingEnv.facts reusedHolder >>= fun facts =>
      pure (facts.solution.uses.map fun u => (u.id, u.point, u.binding, u.resolved))) =
        .ok [(0, ⟨0, 0⟩, 0, .immutableBorrow), (1, ⟨0, 1⟩, 2, .moved),
          (2, ⟨0, 2⟩, 1, .immutableBorrow), (3, ⟨0, 3⟩, 0, .mutableBorrow),
          (4, ⟨0, 4⟩, 3, .immutableBorrow)] := by
    decide +kernel
  obtain ⟨facts, vs, hfacts, hvs, hiff⟩ := isReported_carried_iff lendingEnv reusedHolder hvalid
  rw [hfacts, ok_bind, hvs, ok_bind, pure_eq_ok, Prod.mk.injEq] at hrun
  rw [hfacts, ok_bind, pure_eq_ok] at huses
  obtain ⟨rfl, hlive⟩ := hrun
  have hget : ∀ i : Nat, facts.solution.uses[i]?.map
      (fun u => (u.id, u.point, u.binding, u.resolved)) = _ := fun i => by
    rw [← List.getElem?_map, huses]
  obtain ⟨v, hv, hveq⟩ := Option.map_eq_some_iff.mp (hget 0)
  obtain ⟨u, hu, hueq⟩ := Option.map_eq_some_iff.mp (hget 3)
  simp only [Prod.mk.injEq] at hveq hueq
  obtain ⟨hvid, hvpoint, hvbinding, -⟩ := hveq
  obtain ⟨huid, hupoint, hubinding, hresolved⟩ := hueq
  have hfunc := (Environment.of_facts hfacts).func
  have hcarried : CarriedUse facts v u 2 false [⟨0, 1⟩, ⟨0, 2⟩] 3 := by
    refine ⟨List.mem_of_getElem? hv, List.mem_of_getElem? hu, ?_, ?_, ?_, ?_, ?_, ?_⟩
    · rw [hfunc, hvpoint]
      exact ⟨.binding ⟨0, none, ⟨11, 12⟩⟩, ⟨10, 12⟩, rfl⟩
    · rw [hfunc, hvpoint, hupoint]
      exact reusedHolder_carried
    · rw [hupoint]
      exact hlive
    · rw [hubinding, hvbinding]
    · rw [huid, hvid]
      decide
    · rw [hresolved]
      decide
  have hnot : ¬ IsReported u [] := fun ⟨w, hw, _⟩ => List.not_mem_nil hw
  refine ⟨hvalid, facts, [], hfacts, hvs, v, u, hcarried, hnot, by decide, fun hreaches => ?_⟩
  exact hnot ((hiff v u 2 false _ 3 hcarried).2.mpr (Or.inr (Or.inl hreaches)))

end Tenure.Exclusivity

import Tenure.Linearity
import Tenure.Proofs.Exclusivity
import Tenure.Proofs.Placement.Planned

/-!
# Which escapes are reported

A plan lists an escape exactly for the spans of those uses that let a reference to a local or to an
allocation out of the function (`exists_escape_iff`). A binding refers to a local if a chain of
flows leads to it from the holder of a borrow or of a borrowing closure. Into a parameter only the
plain use of a binding is recorded as stored, so a reference that a field write makes itself goes
unnoticed (`stored_reference_reported_iff`).
-/

namespace Tenure.Facts

open Relation

variable {env : Environment} {f : Func} {facts : Facts} {config : Config} {plan : Plan}
  {u : SolvedUse} {x holder : BindingId}

/-! ## References -/

/-- Somewhere in reachable code `holder` takes a reference to the local `x`: by a borrow expression,
or as a closure that borrows what it captures. -/
inductive Lends (facts : Facts) (x holder : BindingId) : Prop where
  | reference {p : Point} {op : Operand} {o : Occurrence} {isMutable : Bool} {span : Span}
      (hp : facts.func.Reachable p)
      (hstep : facts.func.step? p = some (.statement ⟨.assign holder (.ref op isMutable), span⟩))
      (ho : op.occurrence? = some o) (hx : o.binding = x) (hlocal : facts.isLocal x = true)
  | capture {p : Point} {function : Option FuncId} {captures : List Operand} {span : Span}
      {u : SolvedUse} (hp : facts.func.Reachable p)
      (hstep : facts.func.step? p =
        some (.statement ⟨.assign holder (.closure function captures), span⟩))
      (hu : u ∈ facts.solution.usesAt p) (hx : u.binding = x)
      (hborrows : u.resolved.isBorrow = true) (hlocal : facts.isLocal x = true)

/-- The binding may hold a reference to a local. -/
def RefersToLocal (facts : Facts) (b : BindingId) : Prop :=
  ∃ x holder, facts.Lends x holder ∧ ReflTransGen (Graph.Edge facts.flowTargets) holder b

/-- The binding may hold a reference to an allocation of the function. -/
def RefersToAlloc (facts : Facts) (b : BindingId) : Prop :=
  ∃ site ∈ facts.usage.allocations, facts.func.Reachable site.point ∧
    ∃ holders, facts.holders site = .ok holders ∧ b ∈ holders.refs

/-- The use lets a reference out of the function. -/
structure Escapes (facts : Facts) (u : SolvedUse) : Prop where
  live : u ∈ facts.solution.liveUses
  route : ∃ route, facts.escapeRoute? u = some route
  refers : facts.RefersToLocal u.binding ∨ facts.RefersToAlloc u.binding

theorem localLoan?_eq_some : facts.localLoan? u = some holder ↔ facts.isLocal u.binding = true ∧
    ((∃ isMutable, u.loan = some (.reference isMutable, some holder)) ∨
      u.loan = some (.capture, some holder) ∧ u.resolved.isBorrow = true) := by
  unfold localLoan?
  split
  next isMutable target hloan =>
    by_cases hlocal : facts.isLocal u.binding = true <;> simp [hloan, hlocal]
  next target hloan =>
    by_cases hlocal : facts.isLocal u.binding = true <;>
      by_cases hborrows : u.resolved.isBorrow = true <;> simp [hloan, hlocal, hborrows]
  next hloan => simp [hloan]

/-- A loan is taken where the code says so. -/
theorem lends_iff (hf : f.Valid) (h : facts.Of env f) : facts.Lends x holder ↔
    ∃ u ∈ facts.solution.liveUses, u.binding = x ∧ facts.localLoan? u = some holder := by
  obtain rfl := h.func
  constructor
  · intro hlends
    cases hlends with
    | @reference p op o isMutable span hp hstep ho hx hlocal =>
      have hmem : { Access.plain o (.reference isMutable) op.field? with
          loan := some (.reference isMutable, some holder)
          flow := some (holder, .borrow) } ∈
            (facts.solution.usesAt p).map (·.toAccess) := by
        rw [h.solved.map_toAccess_usesAt hf hstep]
        refine List.mem_map.mpr ⟨_, ?_, rfl⟩
        simp [Access.ofOperand, ho]
      obtain ⟨u, hu, haccess⟩ := List.mem_map.mp hmem
      obtain ⟨hused, rfl⟩ := Solution.mem_usesAt.mp hu
      have hbinding : u.binding = o.binding := congrArg Access.binding haccess
      have hloan : u.loan = some (.reference isMutable, some holder) :=
        congrArg Access.loan haccess
      refine ⟨u, (h.solved.mem_liveUses hf).mpr ⟨hused, hp⟩, hbinding.trans hx, ?_⟩
      rw [localLoan?_eq_some, hbinding, hx]
      exact ⟨hlocal, Or.inl ⟨isMutable, hloan⟩⟩
    | @capture p function captures span u hp hstep hu hx hborrows hlocal =>
      have hfate : (Rvalue.closure function captures).Fate (some holder) u.toAccess :=
        Rvalue.fate_of_mem_accesses (h.solved.mem_accesses hf hstep hu)
      obtain ⟨hused, rfl⟩ := Solution.mem_usesAt.mp hu
      refine ⟨u, (h.solved.mem_liveUses hf).mpr ⟨hused, hp⟩, hx, ?_⟩
      rw [localLoan?_eq_some, hx]
      exact ⟨hlocal, Or.inr ⟨hfate.loan, hborrows⟩⟩
  · rintro ⟨u, hu, rfl, hloan⟩
    obtain ⟨hused, hreach⟩ := (h.solved.mem_liveUses hf).mp hu
    have hat : u ∈ facts.solution.usesAt u.point := Solution.mem_usesAt.mpr ⟨hused, rfl⟩
    obtain ⟨step, hstep⟩ := Func.step?_of_mem_uses hf (h.solved.mem_usage hused)
    have hmem := h.solved.mem_accesses hf hstep hat
    obtain ⟨hlocal, ⟨isMutable, hloan⟩ | ⟨hloan, hborrows⟩⟩ := localLoan?_eq_some.mp hloan
    · obtain ⟨value, span, rfl, horigin⟩ := Step.loan_eq_some hmem hloan
      obtain ⟨op, rfl⟩ := Rvalue.eq_ref_of_loanOrigin? horigin
      obtain ⟨op', hop, o, ho, hbinding⟩ :=
        @Rvalue.operand_of_mem_accesses (.ref op isMutable) (some holder) _ hmem
      obtain rfl := List.mem_singleton.mp hop
      exact .reference hreach hstep ho hbinding.symm hlocal
    · obtain ⟨value, span, rfl, horigin⟩ := Step.loan_eq_some hmem hloan
      obtain ⟨function, captures, rfl⟩ := Rvalue.eq_closure_of_loanOrigin? horigin
      exact .capture hreach hstep hat rfl hborrows hlocal

/-! ## Findings -/

theorem mem_escapesOf {refs : List BindingId} {subject : EscapeSubject} {origin : Span} {id : UseId}
    {v : Violation} : (id, v) ∈ facts.escapesOf refs subject origin ↔
      ∃ u ∈ facts.solution.liveUses, u.binding ∈ refs ∧ ∃ route, facts.escapeRoute? u = some route ∧
        id = u.id ∧ v = .regionEscape subject route u.span origin := by
  unfold escapesOf
  rw [List.mem_filterMap]
  refine exists_congr fun u => and_congr_right fun _ => ?_
  by_cases hu : u.binding ∈ refs
  · simp [hu, eq_comm]
  · simp [hu]

theorem escapes_eq_ok (hplan : facts.plan config = .ok plan) :
    ∃ sites locals, facts.liveSites.mapM (facts.planSite config) = .ok sites ∧
      facts.localEscapes = .ok locals ∧
      plan.escapes = Violation.sortByStart (keepFirst [] (sites.flatMap Prod.snd ++ locals)) := by
  simp only [Facts.plan, bind_eq_ok, pure_eq_ok] at hplan
  obtain ⟨sites, hsites, locals, hlocals, deallocs, -, rfl⟩ := hplan
  exact ⟨sites, locals, hsites, hlocals, rfl⟩

/-- The references among the holders of an allocation. -/
def siteRefs (facts : Facts) (site : AllocSite) : List BindingId :=
  match facts.holders site with
  | .ok holders => holders.refs
  | .error _ => []

/-- The escapes, allocation by allocation and then reference by reference. A use may occur in it
several times. -/
def findings (facts : Facts) : List (UseId × Violation) :=
  (facts.liveSites.flatMap fun site =>
    facts.escapesOf (facts.siteRefs site) (.allocation site.alloc) site.span) ++
      facts.solution.liveUses.flatMap facts.loanEscapes

section Findings

variable (hf : f.Valid) (h : facts.Of env f)
include hf h

/-- A plan lists the first finding about each use. -/
theorem escapes_eq (hplan : facts.plan config = .ok plan) :
    plan.escapes = Violation.sortByStart (keepFirst [] facts.findings) := by
  obtain ⟨sites, locals, hsites, hlocals, hescapes⟩ := escapes_eq_ok hplan
  obtain rfl := Except.ok.inj ((localEscapes_eq h hf).symm.trans hlocals)
  have hsnd : sites.map Prod.snd = facts.liveSites.map fun site =>
      facts.escapesOf (facts.siteRefs site) (.allocation site.alloc) site.span := by
    refine map_of_mapM_eq_ok hsites fun site _ entry hplanned => ?_
    simp only [planSite, bind_eq_ok, pure_eq_ok] at hplanned
    obtain ⟨holders, hholders, placement, -, rfl⟩ := hplanned
    rw [siteRefs, hholders]
  rw [hescapes, findings, List.flatMap_def, hsnd, ← List.flatMap_def]

theorem escapes_sorted (hplan : facts.plan config = .ok plan) :
    plan.escapes.Pairwise fun a b => a.primarySpan.start ≤ b.primarySpan.start := by
  rw [escapes_eq hf h hplan]
  exact Violation.sortByStart_sorted _

/-- A finding is made for a use that lets a reference out, and names its route and its span. -/
theorem escapes_of_finding {id : UseId} {v : Violation} (hv : (id, v) ∈ facts.findings) :
    ∃ u, facts.Escapes u ∧ u.id = id ∧ ∃ subject route origin,
      facts.escapeRoute? u = some route ∧ v = .regionEscape subject route u.span origin := by
  rcases List.mem_append.mp hv with hv | hv
  · obtain ⟨site, hlive, hv⟩ := List.mem_flatMap.mp hv
    obtain ⟨holders, hholders⟩ := holders_isOk hf h site
    rw [siteRefs, hholders] at hv
    obtain ⟨hsite, hreach⟩ := (mem_liveSites hf h).mp hlive
    obtain ⟨u, hu, href, route, hroute, rfl, rfl⟩ := mem_escapesOf.mp hv
    refine ⟨u, ⟨hu, ⟨route, hroute⟩, Or.inr ⟨site, ?_, ?_, holders, hholders, href⟩⟩, rfl,
      _, _, _, hroute, rfl⟩
    · rw [h.usage]
      exact hsite
    · rw [h.func]
      exact hreach
  · obtain ⟨loan, hloan, hv⟩ := List.mem_flatMap.mp hv
    unfold loanEscapes at hv
    split at hv
    next holder hholder =>
      obtain ⟨u, hu, href, route, hroute, rfl, rfl⟩ := mem_escapesOf.mp hv
      have hlends : facts.Lends loan.binding holder :=
        (lends_iff hf h).mpr ⟨loan, hloan, rfl, hholder⟩
      refine ⟨u, ⟨hu, ⟨route, hroute⟩, Or.inl ⟨_, holder, hlends, ?_⟩⟩, rfl, _, _, _, hroute, rfl⟩
      exact mem_reach_flowTargets.mp href
    next => simp at hv

/-- A use that lets a reference out has a finding. -/
theorem exists_finding (hu : facts.Escapes u) : ∃ v, (u.id, v) ∈ facts.findings := by
  obtain ⟨hlive, ⟨route, hroute⟩, ⟨x, holder, hlends, hchain⟩ | ⟨site, hsite, hreach, holders,
    hholders, href⟩⟩ := hu
  · obtain ⟨loan, hloan, -, hholder⟩ := (lends_iff hf h).mp hlends
    refine ⟨.regionEscape (.localBinding loan.decl.name) route u.span loan.span,
      List.mem_append_right _ (List.mem_flatMap.mpr ⟨loan, hloan, ?_⟩)⟩
    unfold loanEscapes
    rw [hholder]
    exact mem_escapesOf.mpr
      ⟨u, hlive, mem_reach_flowTargets.mpr hchain, route, hroute, rfl, rfl⟩
  · rw [h.usage] at hsite
    rw [h.func] at hreach
    refine ⟨.regionEscape (.allocation site.alloc) route u.span site.span, List.mem_append_left _
      (List.mem_flatMap.mpr ⟨site, (mem_liveSites hf h).mpr ⟨hsite, hreach⟩, ?_⟩)⟩
    rw [siteRefs, hholders]
    exact mem_escapesOf.mpr ⟨u, hlive, href, route, hroute, rfl, rfl⟩

end Findings

/-- The plan lists an escape with a span exactly if a use with this span lets a reference out. -/
theorem exists_escape_iff (hf : f.Valid) (h : facts.Of env f) (hplan : facts.plan config = .ok plan)
    (span : Span) :
    (∃ subject route origin, .regionEscape subject route span origin ∈ plan.escapes) ↔
      ∃ u, facts.Escapes u ∧ u.span = span := by
  rw [escapes_eq hf h hplan]
  simp only [Violation.mem_sortByStart]
  constructor
  · rintro ⟨subject, route, origin, hmem⟩
    obtain ⟨id, hfinding⟩ := mem_of_mem_keepFirst hmem
    obtain ⟨u, hu, -, subject', route', origin', -, heq⟩ := escapes_of_finding hf h hfinding
    obtain ⟨-, -, hspan, -⟩ := Violation.regionEscape.inj heq
    exact ⟨u, hu, hspan.symm⟩
  · rintro ⟨u, hu, rfl⟩
    obtain ⟨v, hfinding⟩ := exists_finding hf h hu
    -- of several findings about the use one is kept, and all of them name its span
    obtain ⟨kept, hkept, hmem⟩ := exists_mem_keepFirst List.not_mem_nil hfinding
    obtain ⟨w, hw, hid, subject, route, origin, -, rfl⟩ := escapes_of_finding hf h hkept
    obtain rfl := h.solved.eq_of_id_eq (List.mem_of_mem_filter hw.live)
      (List.mem_of_mem_filter hu.live) hid
    exact ⟨subject, route, origin, hmem⟩

/-! ## Stores into parameters -/

/-- What a field write lets out is the plain value that it stores. -/
theorem stored_of_route (hf : f.Valid) (h : facts.Of env f) {p : Point} {target : Occurrence}
    {field : String} {value : Rvalue} {span : Span}
    (hstep : f.step? p = some (.statement ⟨.fieldWrite target field value, span⟩))
    (hu : u ∈ facts.solution.usesAt p) {route : EscapeRoute}
    (hroute : facts.escapeRoute? u = some route) :
    ∃ o, value = .use (.binding o) ∧ u.binding = o.binding := by
  have hnone : u.kind ≠ .returned → u.kind ≠ .suspended → u.storedInto = none → False := by
    intro hreturned hsuspended hstored
    unfold escapeRoute? at hroute
    split at hroute
    · exact hreturned ‹_›
    · exact hsuspended ‹_›
    · simp [storesIntoCaller, hstored] at hroute
  rcases StatementKind.mem_accesses_fieldWrite (h.solved.mem_accesses hf hstep hu) with
    ha | ⟨o, rfl, ha⟩ | ⟨-, hfate⟩
  · have hkind : u.kind = .fieldWrite := congrArg Access.kind ha
    exact (hnone (by simp [hkind]) (by simp [hkind]) (congrArg Access.storedInto ha)).elim
  · exact ⟨o, rfl, congrArg Access.binding ha⟩
  · exact (hnone hfate.inside.1 hfate.inside.2 hfate.storedInto).elim

/-- A plain value that is stored into a parameter goes out to the caller. -/
theorem exists_route_of_stored (hf : f.Valid) (h : facts.Of env f) {p : Point}
    {target o : Occurrence} {field : String} {span : Span}
    (hstep : f.step? p = some (.statement ⟨.fieldWrite target field (.use (.binding o)), span⟩))
    (hparam : facts.isParam target.binding = true) :
    ∃ u ∈ facts.solution.usesAt p, u.binding = o.binding ∧
      facts.escapeRoute? u = some .callerStore := by
  have hmem : { Access.plain o .argument none with
      flow := some (target.binding, .byMode), storedInto := some target.binding } ∈
        (facts.solution.usesAt p).map (·.toAccess) := by
    rw [h.solved.map_toAccess_usesAt hf hstep]
    exact List.mem_append_left _ (List.mem_singleton.mpr rfl)
  obtain ⟨u, hu, ha⟩ := List.mem_map.mp hmem
  have hkind : u.kind = .argument := congrArg Access.kind ha
  have hstored : u.storedInto = some target.binding := congrArg Access.storedInto ha
  refine ⟨u, hu, congrArg Access.binding ha, ?_⟩
  simp [escapeRoute?, hkind, storesIntoCaller, hstored, hparam]

/-- An accepted function has a plan exactly if for each reachable allocation that is not left to a
region the analysis of single frees comes to rest. Take a plan and a reachable field write into a
parameter. Then the plan lists an escape with the span of a use at the field write, if and only if
the stored value is the plain use of a binding that refers to a local or to an allocation, or
another use elsewhere lets a reference out and shares its span with a use at the field write.

So a reference that is stored by way of a binding is always reported, however many bindings it has
passed. A reference that the field write itself makes is not. -/
theorem stored_reference_reported_iff (env : Environment) (f : Func) (config : Config)
    (hvalid : env.program.validateFunction f = .ok ()) :
    ∃ facts, env.facts f = .ok facts ∧
      ((∃ plan, facts.plan config = .ok plan) ↔
        ∀ site ∈ f.usage.allocations, f.Reachable site.point → ∀ holders,
          facts.holders site = .ok holders →
            facts.LeftToRegion config site holders ∨ facts.ComesToRest site holders) ∧
      ∀ plan, facts.plan config = .ok plan → ∀ p target field value span, f.Reachable p →
        f.step? p = some (.statement ⟨.fieldWrite target field value, span⟩) →
        facts.isParam target.binding = true →
        ((∃ u ∈ facts.solution.usesAt p, ∃ subject route origin,
            .regionEscape subject route u.span origin ∈ plan.escapes) ↔
          (∃ o, value = .use (.binding o) ∧
            (facts.RefersToLocal o.binding ∨ facts.RefersToAlloc o.binding)) ∨
          ∃ w, facts.Escapes w ∧ w.point ≠ p ∧ ∃ u ∈ facts.solution.usesAt p, w.span = u.span) := by
  obtain ⟨hvalid', facts, hfacts, h⟩ := env.facts_of_validateFunction hvalid
  have hf := Func.valid_of_validate hvalid'
  refine ⟨facts, hfacts, plan_isOk_iff hvalid' h config, ?_⟩
  intro plan hplan p target field value span hp hstep hparam
  simp only [exists_escape_iff hf h hplan]
  constructor
  · rintro ⟨u, hu, w, hw, hspan⟩
    by_cases hpoint : w.point = p
    · left
      obtain ⟨route, hroute⟩ := hw.route
      have hat : w ∈ facts.solution.usesAt p :=
        Solution.mem_usesAt.mpr ⟨List.mem_of_mem_filter hw.live, hpoint⟩
      obtain ⟨o, hvalue, hbinding⟩ := stored_of_route hf h hstep hat hroute
      exact ⟨o, hvalue, hbinding ▸ hw.refers⟩
    · exact Or.inr ⟨w, hw, hpoint, u, hu, hspan⟩
  · rintro (⟨o, rfl, hrefers⟩ | ⟨w, hw, -, u, hu, hspan⟩)
    · obtain ⟨u, hu, hbinding, hroute⟩ := exists_route_of_stored hf h hstep hparam
      obtain ⟨hused, rfl⟩ := Solution.mem_usesAt.mp hu
      have hlive : u ∈ facts.solution.liveUses := (h.solved.mem_liveUses hf).mpr ⟨hused, hp⟩
      exact ⟨u, hu, u, ⟨hlive, ⟨_, hroute⟩, hbinding ▸ hrefers⟩, rfl⟩
    · exact ⟨u, hu, w, hw, hspan⟩

/-- Stores a reference to a local into a field of its parameter. -/
def directStore : Func where
  id := 0
  name := "attach"
  span := ⟨0, 40⟩
  params := [0]
  bindings := [⟨"p", .named "Data", .param, 0, none, ⟨1, 2⟩⟩,
    ⟨"x", .named "Data", .letBound, 0, none, ⟨2, 3⟩⟩]
  blocks := [
    ⟨0, 0,
      [⟨.assign 1 (.use (.constant (.int 1))), ⟨5, 6⟩⟩,
        ⟨.fieldWrite ⟨0, none, ⟨7, 8⟩⟩ "next" (.ref (.binding ⟨1, none, ⟨12, 13⟩⟩) false),
          ⟨7, 13⟩⟩],
      some ⟨.ret none, ⟨30, 36⟩⟩⟩]
  regions := [⟨0, .body, none, none, ⟨0, 40⟩⟩]
  allocations := []
  isAsync := false

/-- No check finds a fault in the function, and the plan lists no escape: the caller is left with a
reference to a local. -/
theorem directStore_not_reported :
    (Environment.ofForeigns []).program.validateFunction directStore = .ok () ∧
    ∃ facts plan, (Environment.ofForeigns []).facts directStore = .ok facts ∧
      facts.solution.conflicts = [] ∧ Linearity.violations facts = .ok [] ∧
      Exclusivity.violations facts = .ok [] ∧ facts.plan .default = .ok plan ∧
      directStore.step? ⟨0, 1⟩ = some (.statement ⟨.fieldWrite ⟨0, none, ⟨7, 8⟩⟩ "next"
        (.ref (.binding ⟨1, none, ⟨12, 13⟩⟩) false), ⟨7, 13⟩⟩) ∧
      facts.isParam 0 = true ∧ facts.isLocal 1 = true ∧
      ¬ ∃ u ∈ facts.solution.usesAt ⟨0, 1⟩, ∃ subject route origin,
        .regionEscape subject route u.span origin ∈ plan.escapes := by
  have hvalid : (Environment.ofForeigns []).program.validateFunction directStore = .ok () := by
    decide +kernel
  have hclean : ((Environment.ofForeigns []).facts directStore >>= fun facts =>
      pure (facts.solution.conflicts, Linearity.violations facts, Exclusivity.violations facts)) =
        .ok ([], .ok [], .ok []) := by decide +kernel
  have hrun : ((Environment.ofForeigns []).facts directStore >>= fun facts =>
      pure (facts.isParam 0, facts.isLocal 1,
        facts.solution.uses.all fun u => (facts.escapeRoute? u).isNone)) =
      .ok (true, true, true) := by decide +kernel
  have hnoSite : directStore.usage.allocations = [] := by decide +kernel
  obtain ⟨facts, hfacts, hplanned, hreported⟩ :=
    stored_reference_reported_iff (.ofForeigns []) directStore .default hvalid
  rw [hfacts, ok_bind] at hclean hrun
  rw [pure_eq_ok, Prod.mk.injEq, Prod.mk.injEq] at hclean hrun
  obtain ⟨hconflicts, hlinear, hexclusive⟩ := hclean
  obtain ⟨hparam, hlocal, hroutes⟩ := hrun
  obtain ⟨plan, hplan⟩ := hplanned.mpr (by simp [hnoSite])
  refine ⟨hvalid, facts, plan, hfacts, hconflicts, hlinear, hexclusive, hplan, rfl, hparam,
    hlocal, ?_⟩
  rw [hreported plan hplan ⟨0, 1⟩ ⟨0, none, ⟨7, 8⟩⟩ "next" _ _
    (.next .refl (.within rfl (by decide))) rfl hparam]
  rintro (⟨o, hvalue, -⟩ | ⟨w, hw, -⟩)
  · cases hvalue
  · obtain ⟨route, hroute⟩ := hw.route
    have hnone := List.all_eq_true.mp hroutes w (List.mem_of_mem_filter hw.live)
    simp [hroute] at hnone

end Tenure.Facts

import Tenure.Proofs.Analysis.Run
import Tenure.Proofs.Exclusivity
import Tenure.Proofs.Placement.Escapes

/-!
# Where violations come from

A solution lists a conflict for each live use that a keyword grants too little. The violations of a
finished function are what was found while it was solved, these conflicts, and what the checks and
the plan add; each source has its own kinds of violations. So an unstable signature is reported for
a function only if it was found while its unit was solved (`SolvedFunc.unstableSignature_mem`), and
a function without violations has no conflict of keywords (`SolvedFunc.clean_of_finish`).
-/

namespace Tenure

/-! ## Conflicts of keywords -/

namespace Environment

variable {env : Environment} {f : Func} {u : Usage} {s : Solution} {a : Access} {decl : Binding}
  {v : Violation}

theorem mem_conflicts (h : env.solve f u = .ok s) :
    v ∈ s.conflicts ↔ ∃ x ∈ s.liveUses, env.conflict? x.toAccess x.decl = some v := by
  simp only [solve, bind_eq_ok, pure_eq_ok] at h
  obtain ⟨reachable, -, uses, -, annotated, hannotated, params, -, rfl⟩ := h
  obtain ⟨order, exits, -, -, hentered⟩ := annotateRunning_eq_ok hannotated
  obtain ⟨running, hrunning⟩ := enterRunning_eq uses _
  obtain rfl := hentered.trans hrunning
  simp [Solution.liveUses, Solution.isReachable, List.mem_filter]

theorem category_of_conflict? (h : env.conflict? a decl = some v) :
    v.category = "override-conflict" := by
  rw [conflict?, Option.or_eq_some_iff] at h
  rcases h with h | ⟨-, h⟩
  · rw [useConflict?] at h
    split at h
    · dsimp only at h
      split at h
      · rw [← Option.some.inj h]
        rfl
      · cases h
    · cases h
  · rw [declarationConflict?] at h
    split at h
    · dsimp only at h
      split at h
      · cases h
      · rw [← Option.some.inj h]
        rfl
    · cases h

/-- Without a conflict a use has at most what the keyword of its binding grants. -/
theorem resolvedMode_within_of_conflict? (h : env.conflict? a decl = none) {k : Mode}
    (hk : decl.fixedMode? = some k) : (env.resolvedMode a decl).within k = true := by
  have hdecl := (Option.or_eq_none_iff.mp h).2
  rw [declarationConflict?, hk] at hdecl
  by_contra hnot
  simp [hnot] at hdecl

end Environment

/-! ## What the checks and the plan report -/

namespace Facts

variable {facts : Facts} {v : Violation} {vs : List Violation}

theorem useAfterMove_of_mem (h : Linearity.violations facts = .ok vs) (hv : v ∈ vs) :
    v.category = "use-after-move" := by
  simp only [Linearity.violations, bind_eq_ok, pure_eq_ok] at h
  obtain ⟨exits, -, rfl⟩ := h
  simp only [List.mem_flatMap, List.mem_filterMap, Linearity.report?, Option.map_eq_some_iff] at hv
  obtain ⟨b, -, entry, -, x, -, move, -, rfl⟩ := hv
  rfl

theorem conflictingBorrow_of_mem (h : Exclusivity.violations facts = .ok vs) (hv : v ∈ vs) :
    v.category = "conflicting-borrow" := by
  simp only [Exclusivity.violations, Exclusivity.loanConflicts, bind_eq_ok, pure_eq_ok] at h
  obtain ⟨held, ⟨order, -, exits, -, rfl⟩, rfl⟩ := h
  obtain ⟨id, hfound⟩ := mem_of_mem_keepFirst hv
  rcases List.mem_append.mp hfound with hgroup | hloan
  · simp only [Exclusivity.groupConflicts, List.mem_filterMap, Option.map_eq_some_iff] at hgroup
    obtain ⟨later, -, first, -, heq⟩ := hgroup
    obtain ⟨-, rfl⟩ := Prod.mk.inj heq
    rfl
  · simp only [Exclusivity.loanConflictsAt, List.mem_flatMap, List.mem_map] at hloan
    obtain ⟨b, -, entry, -, loan, -, x, -, heq⟩ := hloan
    obtain ⟨-, rfl⟩ := Prod.mk.inj heq
    rfl

theorem regionEscape_of_mem {config : Config} {plan : Plan} (h : facts.plan config = .ok plan)
    (hv : v ∈ plan.escapes) : v.category = "region-escape" := by
  obtain ⟨sites, locals, hsites, hlocals, hescapes⟩ := escapes_eq_ok h
  rw [hescapes, Violation.mem_sortByStart] at hv
  obtain ⟨id, hfound⟩ := mem_of_mem_keepFirst hv
  have hescape : ∀ {refs subject origin}, (id, v) ∈ facts.escapesOf refs subject origin →
      v.category = "region-escape" := by
    intro refs subject origin hmem
    obtain ⟨x, -, -, route, -, -, rfl⟩ := mem_escapesOf.mp hmem
    rfl
  rcases List.mem_append.mp hfound with hsite | hlocal
  · obtain ⟨entry, hentry, hmem⟩ := List.mem_flatMap.mp hsite
    obtain ⟨site, -, hplanned⟩ := mem_of_mapM_eq_ok hsites hentry
    simp only [planSite, bind_eq_ok, pure_eq_ok] at hplanned
    obtain ⟨holders, -, placement, -, rfl⟩ := hplanned
    exact hescape hmem
  · simp only [localEscapes, bind_eq_ok, pure_eq_ok] at hlocals
    obtain ⟨perLoan, hperLoan, rfl⟩ := hlocals
    obtain ⟨found, hloan, hmem⟩ := List.mem_flatten.mp hlocal
    obtain ⟨x, -, hx⟩ := mem_of_mapM_eq_ok hperLoan hloan
    split at hx
    next holder _ =>
      simp only [bind_eq_ok, pure_eq_ok] at hx
      obtain ⟨held, -, rfl⟩ := hx
      exact hescape hmem
    next =>
      obtain rfl := Except.ok.inj hx
      cases hmem

end Facts

/-! ## Finished functions -/

namespace SolvedFunc

variable {m : SolvedFunc} {config : Config} {r : FuncAnalysis}

/-- A violation was found while the function was solved, or is a conflict of the solution, or of a
kind that the checks and the plan report. -/
theorem mem_violations (h : m.finish config = .ok r) {v : Violation} (hv : v ∈ r.violations) :
    v ∈ m.found ∨ v ∈ m.solution.conflicts ∨
      v.category ∈ ["use-after-move", "conflicting-borrow", "region-escape"] := by
  simp only [finish, bind_eq_ok, pure_eq_ok] at h
  obtain ⟨liveness, -, linear, hlinear, exclusive, hexclusive, plan, hplan, hints, -, rfl⟩ := h
  simp only [Violation.mem_sortByStart, List.mem_append] at hv
  rcases hv with (((hfound | hconflict) | hv) | hv) | hv
  · exact .inl hfound
  · exact .inr (.inl hconflict)
  · exact .inr (.inr (by simp [Facts.useAfterMove_of_mem hlinear hv]))
  · exact .inr (.inr (by simp [Facts.conflictingBorrow_of_mem hexclusive hv]))
  · exact .inr (.inr (by simp [Facts.regionEscape_of_mem hplan hv]))

/-- Nothing that was found on the way is lost. -/
theorem clean_of_finish (h : m.finish config = .ok r) (hclean : r.violations = []) :
    m.found = [] ∧ m.solution.conflicts = [] := by
  simp only [finish, bind_eq_ok, pure_eq_ok] at h
  obtain ⟨liveness, -, linear, -, exclusive, -, plan, -, hints, -, rfl⟩ := h
  have hlength := congrArg List.length hclean
  simp only [(Violation.sortByStart_perm _).length_eq, List.length_append, List.length_nil]
    at hlength
  exact ⟨List.eq_nil_of_length_eq_zero (by omega), List.eq_nil_of_length_eq_zero (by omega)⟩

/-- An unstable signature that is reported was found while the unit was solved. -/
theorem unstableSignature_mem (h : m.finish config = .ok r)
    (hconflicts : ∀ v ∈ m.solution.conflicts, v.category = "override-conflict") {name : String}
    {cycle : List String} {iterations : Nat} {span : Span}
    (hv : .unstableSignature name cycle iterations span ∈ r.violations) :
    .unstableSignature name cycle iterations span ∈ m.found := by
  rcases mem_violations h hv with hfound | hconflict | hkind
  · exact hfound
  · have hcategory := hconflicts _ hconflict
    simp [Violation.category] at hcategory
  · simp [Violation.category] at hkind

end SolvedFunc

end Tenure

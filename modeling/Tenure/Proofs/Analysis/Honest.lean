import Tenure.Proofs.Analysis.Findings
import Tenure.Proofs.Analysis.Least
import Tenure.Proofs.Analysis.Stopped

/-!
# Published signatures are honest

A caller is told what a function needs from each parameter, and a function without violations does
not take more (`Program.published_honest`). The mode of a parameter has three sources. Without a
keyword it is the least upper bound of the reachable uses. With one, a use that takes more is
reported as a conflict. In a recursive unit it is what was assumed last, which the uses stay below
once the rounds have converged, and if they have not, this is reported.
-/

namespace Tenure

/-! ## Solutions -/

namespace Environment

variable {env : Environment} {f : Func} {s : Solution} {b : BindingId}

/-- A solution without conflicts has a signature that the reachable uses of parameters stay
below. -/
theorem resolved_within_signature (hs : env.solve f f.usage = .ok s) (hf : f.Valid)
    (hclean : s.conflicts = []) {i : Nat} (hb : f.params[i]? = some b) :
    ∃ m, s.signature.params[i]? = some m ∧
      ∀ x ∈ s.uses, x.binding = b → f.Reachable x.point → x.resolved.within m = true := by
  have hsolved := solved_of_solve hs
  obtain ⟨decl, m, hdecl, hm, hmode⟩ := solve_param hs hb
  refine ⟨m, hm, fun x hx hxb hreach => ?_⟩
  obtain rfl : decl = x.decl := by
    have hxdecl := hsolved.decl x hx
    rw [hxb] at hxdecl
    exact Option.some.inj (hdecl.symm.trans hxdecl)
  have hlive := (hsolved.mem_liveUses hf).mpr ⟨hx, hreach⟩
  rw [hsolved.resolved x hx]
  cases hfixed : x.decl.fixedMode? with
  | some k =>
    rw [hmode.fixed k hfixed]
    apply resolvedMode_within_of_conflict? _ hfixed
    cases hconflict : env.conflict? x.toAccess x.decl with
    | none => rfl
    | some v =>
      have hv := (mem_conflicts hs).mpr ⟨x, hlive, hconflict⟩
      rw [hclean] at hv
      cases hv
  | none =>
    apply (hmode.least hfixed m).mp m.within_refl x.toUse
    exact ⟨hsolved.mem_usage hx, hxb, s.reachable, hsolved.reachable,
      List.contains_iff_mem.mp ((hsolved.isReachable_iff hf hx).mpr hreach)⟩

end Environment

namespace Program

variable {p : Program} {config : Config} {known : FuncId → Option Signature} {u : AnalysisUnit}
  {solved : List SolvedFunc} {m : SolvedFunc}

/-- A member of a unit for which no unstable signature was found is solved within its signature. -/
theorem exists_solve_within (hu : u ∈ p.callGraph.units)
    (h : p.solveUnit config known u = .ok solved) (hm : m ∈ solved) (hfound : m.found = []) :
    ∃ env s, Environment.solve env m.func m.func.usage = .ok s ∧
      m.solution = { s with signature := m.solution.signature } ∧
      s.signature.Within m.solution.signature := by
  by_cases hrec : u.recursive = true
  · rw [solveUnit, if_pos hrec] at h
    have hnodup := members_nodup hu
    obtain ⟨start, last, ⟨assumed, solutions, converged⟩, -, hrun, hreport⟩ :=
      solveTogether_eq_ok hnodup h
    obtain rfl : converged = true := by
      rw [hreport m hm] at hfound
      cases converged with
      | true => rfl
      | false => cases hfound
    obtain ⟨sig, s, hsig, hsolve, hsolution⟩ := hrun.solution m hm
    have hmember : m.func ∈ p.members u := hrun.funcs ▸ List.mem_map_of_mem hm
    have hwithin := hrun.within hnodup hmember hsig hsolve
    refine ⟨_, s, hsolve, ?_, ?_⟩
    · rw [hsolution]
    · rw [hsolution]
      exact hwithin
  · rw [solveUnit, if_neg hrec] at h
    obtain ⟨f, -, hf⟩ := mem_of_mapM_eq_ok h hm
    obtain ⟨rfl, hsolve⟩ := solveAlone_eq_ok hf
    exact ⟨_, m.solution, hsolve, rfl, .refl _⟩

end Program

/-! ## Published signatures -/

/-- The mode grants a function all that it does with a binding, where it can be reached. -/
structure FuncAnalysis.Covered (r : FuncAnalysis) (f : Func) (b : BindingId) (granted : Mode) :
    Prop where
  within : ∀ x ∈ r.solution.uses, x.binding = b → f.Reachable x.point →
    x.resolved.within granted = true
  /-- What is not taken over is not consumed. -/
  kept : granted ≠ .moved → ∀ x ∈ r.solution.uses, x.binding = b → f.Reachable x.point →
    x.consumes = false
  /-- What is borrowed immutably at most is not used exclusively. -/
  shared : granted.within .immutableBorrow = true → ∀ x ∈ r.solution.uses, x.binding = b →
    f.Reachable x.point → x.resolved.isExclusive = false

theorem FuncAnalysis.covered_of_within {r : FuncAnalysis} {f : Func} {b : BindingId} {granted : Mode}
    (h : ∀ x ∈ r.solution.uses, x.binding = b → f.Reachable x.point →
      x.resolved.within granted = true) : r.Covered f b granted := by
  refine ⟨h, fun hne x hx hxb hreach => ?_, fun hshared x hx hxb hreach => ?_⟩
  · have hwithin := h x hx hxb hreach
    have hmoved : x.resolved ≠ .moved := by
      intro heq
      rw [heq] at hwithin
      exact hne (Mode.within_antisymm (by cases granted <;> rfl) hwithin)
    simp [SolvedUse.consumes, hmoved]
  · have hwithin := Mode.within_trans (h x hx hxb hreach) hshared
    cases hmode : x.resolved with
    | unused => rfl
    | immutableBorrow => rfl
    | mutableBorrow =>
      rw [hmode] at hwithin
      cases hwithin
    | moved =>
      rw [hmode] at hwithin
      cases hwithin

namespace Program

variable {p : Program} {config : Config}

/-- A function without violations does with its parameters only what its published signature grants,
in every run, stopped or not. -/
theorem published_honest (hp : (p.functions.map Func.id).Nodup) {stop : Nat → Bool} {a : Analysis}
    (ha : p.analyze config stop = .ok a) {r : FuncAnalysis} (hr : r ∈ a.functions)
    (hclean : r.hasErrors = false) :
    ∃ f ∈ p.functions, f.id = r.function ∧
      r.solution.uses.map SolvedUse.toUse = f.usage.uses ∧
      ∃ sig, a.signature? r.function = some sig ∧ sig.params.length = f.params.length ∧
        ∀ (i : Nat) b, f.params[i]? = some b → ∃ granted, sig.params[i]? = some granted ∧
          r.Covered f b granted := by
  have hnone : r.violations = [] := by simpa [FuncAnalysis.hasErrors] using hclean
  obtain ⟨hsig, f, hf, hanalysis⟩ := (analysisOf_of_analyze hp ha).1 r hr
  refine ⟨f, hf, hanalysis.function_eq.symm, ?_⟩
  rcases hanalysis with hmalformed | ⟨u, hu, solved, hsolved, m, hm, rfl, hfinish⟩
  · obtain ⟨d, -, rfl⟩ := malformed?_eq_some.mp hmalformed
    cases hnone
  · obtain ⟨hfound, hconflicts⟩ := SolvedFunc.clean_of_finish hfinish hnone
    obtain ⟨env, s, hsolve, hsolution, hwithin⟩ := exists_solve_within hu hsolved hm hfound
    have hvalid := valid_of_mem_members (func_mem_members hu hsolved hm)
    have hkept := (SolvedFunc.finish_eq_ok hfinish).2.1
    have huses : r.solution.uses = s.uses := by rw [hkept, hsolution]
    have hsclean : s.conflicts = [] := by rwa [hsolution] at hconflicts
    obtain ⟨hlength, hmodes⟩ := List.forall₂_iff_get.mp hwithin
    refine ⟨?_, r.solution.signature, hsig, ?_, fun i b hb => ?_⟩
    · rw [huses]
      exact (Environment.solved_of_solve hsolve).uses
    · rw [hkept, ← Environment.length_signature hsolve]
      exact hlength.symm
    · obtain ⟨needed, hneeded, hresolved⟩ :=
        Environment.resolved_within_signature hsolve hvalid hsclean hb
      obtain ⟨hlt, rfl⟩ := List.getElem?_eq_some_iff.mp hneeded
      have hlt' : i < m.solution.signature.params.length := hlength ▸ hlt
      refine ⟨m.solution.signature.params[i], ?_, FuncAnalysis.covered_of_within ?_⟩
      · rw [hkept]
        exact List.getElem?_eq_getElem hlt'
      · intro x hx hxb hreach
        rw [huses] at hx
        exact Mode.within_trans (hresolved x hx hxb hreach) (hmodes i hlt hlt')

/-- A function that calls itself takes over the argument it marks with `move` and no other: the first
one it neither consumes nor uses exclusively. -/
theorem again_published_honest :
    ∃ a r, selfCall.analyze .default (fun _ => false) = .ok a ∧ r ∈ a.functions ∧
      r.function = 0 ∧ r.hasErrors = false ∧
      a.signature? 0 = some (.ofModes [.immutableBorrow, .moved]) ∧
      (∃ x ∈ r.solution.uses, x.binding = 0) ∧
      r.Covered again 0 .immutableBorrow ∧ r.Covered again 1 .moved := by
  have hresult : (selfCall.analyze .default (fun _ => false) >>= fun a =>
      pure (a.signature? 0, a.functions.map fun r =>
        (r.function, r.hasErrors, decide (∃ x ∈ r.solution.uses, x.binding = 0)))) =
      .ok (some (.ofModes [.immutableBorrow, .moved]), [(0, false, true)]) := by decide +kernel
  obtain ⟨a, ha, hresult⟩ := bind_eq_ok.mp hresult
  obtain ⟨hsig, hfunctions⟩ := Prod.mk.inj (pure_eq_ok.mp hresult)
  obtain ⟨r, hr⟩ := List.map_eq_singleton_iff.mp hfunctions
  have hmem : r ∈ a.functions := hr.1 ▸ List.mem_singleton_self r
  obtain ⟨hzero, hrest⟩ := Prod.mk.inj hr.2
  obtain ⟨hclean, huses⟩ := Prod.mk.inj hrest
  obtain ⟨f, hf, -, -, sig, hsig', -, hcovered⟩ :=
    published_honest (by decide +kernel) ha hmem hclean
  obtain rfl : f = again := List.mem_singleton.mp hf
  rw [hzero] at hsig'
  obtain rfl := Option.some.inj (hsig.symm.trans hsig')
  obtain ⟨first, hfirst, hcovered₀⟩ := hcovered 0 0 rfl
  obtain ⟨second, hsecond, hcovered₁⟩ := hcovered 1 1 rfl
  obtain rfl := Option.some.inj hfirst
  obtain rfl := Option.some.inj hsecond
  exact ⟨a, r, ha, hmem, hzero, hclean, hsig, of_decide_eq_true huses, hcovered₀, hcovered₁⟩

end Program

end Tenure

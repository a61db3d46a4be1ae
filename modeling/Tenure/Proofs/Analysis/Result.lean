import Tenure.Proofs.Analysis.Run

/-!
# The result of a run

The result of a run can be told without the run: `Program.Describes` says which analysis each
function has, against signatures that explain each other. Every run over the units in any order of
each level has this result or none (`Program.analyzeUnits_eq_ok_iff`), so it does not depend on the
order. Because the signatures explain each other, the result is a fixed point: solved again against
the published signatures, a function gets the modes it has.
-/

namespace Tenure

namespace Program

/-- The analysis of a function: it is reported as malformed, or solved with its unit and finished. -/
def AnalysisOf (p : Program) (config : Config) (known : FuncId → Option Signature) (f : Func)
    (r : FuncAnalysis) : Prop :=
  p.malformed? f = some r ∨ ∃ u ∈ p.callGraph.units, ∃ solved,
    p.solveUnit config known u = .ok solved ∧ ∃ m ∈ solved, m.func = f ∧ m.finish config = .ok r

/-- The result of a program, from signatures that explain each other. -/
structure Describes (p : Program) (config : Config) (known : FuncId → Option Signature)
    (a : Analysis) : Prop where
  file : a.file = p.file
  functions : List.Forall₂ (p.AnalysisOf config known) p.functions a.functions
  signatures : a.signatures = (p.functions.map Func.id).filterMap fun f => (known f).map (Prod.mk f)
  skipped : a.skipped = []

variable {p : Program} {config : Config} {known : FuncId → Option Signature}

/-! ## A result is unique -/

theorem AnalysisOf.function_eq {f : Func} {r : FuncAnalysis} (h : p.AnalysisOf config known f r) :
    r.function = f.id := by
  rcases h with h | ⟨u, -, solved, -, m, -, rfl, hfinish⟩
  · obtain ⟨d, -, rfl⟩ := malformed?_eq_some.mp h
    rfl
  · exact (SolvedFunc.finish_eq_ok hfinish).1

/-- The analysis of a solved function is how it is finished. -/
theorem AnalysisOf.finish_eq {u : AnalysisUnit} {solved : List SolvedFunc} {m : SolvedFunc}
    {r : FuncAnalysis} (h : p.AnalysisOf config known m.func r) (hu : u ∈ p.callGraph.units)
    (hsolved : p.solveUnit config known u = .ok solved) (hm : m ∈ solved) :
    m.finish config = .ok r := by
  obtain ⟨hmem, -, hvalid⟩ := mem_members.mp (func_mem_members hu hsolved hm)
  rcases h with h | ⟨v, hv, solved', hsolved', m', hm', hfunc, hfinish⟩
  · obtain ⟨d, hd, -⟩ := malformed?_eq_some.mp h
    cases hd.symm.trans hvalid
  · have hmem' := (mem_members.mp (func_mem_members hv hsolved' hm')).1
    rw [hfunc] at hmem'
    obtain rfl := CallGraph.unit_unique hu hmem hv hmem'
    obtain rfl := Except.ok.inj (hsolved.symm.trans hsolved')
    obtain rfl : m' = m :=
      List.inj_on_of_nodup_map (solved_nodup hu hsolved) hm' hm (congrArg Func.id hfunc)
    exact hfinish

/-- The check of a function that has an analysis was not stopped. -/
theorem AnalysisOf.validateFunction_ne_fault {f : Func} {r : FuncAnalysis}
    (h : p.AnalysisOf config known f r) (cause : Fault) :
    p.validateFunction f ≠ .error (.fault cause) := by
  intro hfault
  rcases h with h | ⟨u, hu, solved, hsolved, m, hm, rfl, -⟩
  · obtain ⟨d, hd, -⟩ := malformed?_eq_some.mp h
    cases hd.symm.trans hfault
  · obtain ⟨-, -, hvalid⟩ := mem_members.mp (func_mem_members hu hsolved hm)
    cases hvalid.symm.trans hfault

theorem AnalysisOf.unique {f : Func} {r r' : FuncAnalysis} (h : p.AnalysisOf config known f r)
    (h' : p.AnalysisOf config known f r') : r = r' := by
  rcases h with hmalformed | ⟨u, hu, solved, hsolved, m, hm, rfl, hfinish⟩
  · rcases h' with hmalformed' | ⟨u, hu, solved, hsolved, m, hm, rfl, hfinish⟩
    · exact Option.some.inj (hmalformed.symm.trans hmalformed')
    · exact Except.ok.inj ((AnalysisOf.finish_eq (.inl hmalformed) hu hsolved hm).symm.trans hfinish)
  · exact Except.ok.inj (hfinish.symm.trans (h'.finish_eq hu hsolved hm))

theorem Describes.unique {a a' : Analysis} (h : p.Describes config known a)
    (h' : p.Describes config known a') : a = a' := by
  have hfunctions : a.functions = a'.functions := by
    refine List.ext_getElem (h.functions.length_eq.symm.trans h'.functions.length_eq)
      fun i hi hi' => ?_
    have hlt : i < p.functions.length := h.functions.length_eq ▸ hi
    exact ((List.forall₂_iff_get.mp h.functions).2 i hlt hi).unique
      ((List.forall₂_iff_get.mp h'.functions).2 i hlt hi')
  have hfile := h.file.trans h'.file.symm
  have hsignatures := h.signatures.trans h'.signatures.symm
  have hskipped := h.skipped.trans h'.skipped.symm
  cases a
  cases a'
  simp_all

theorem get?_filterMap (known : FuncId → Option Signature) (ids : List FuncId) (c : FuncId) :
    SignatureMap.get? (ids.filterMap fun f => (known f).map (Prod.mk f)) c =
      if c ∈ ids then known c else none := by
  induction ids with
  | nil => rfl
  | cons f ids ih =>
    by_cases hcf : c = f
    · subst hcf
      rw [List.filterMap_cons, if_pos List.mem_cons_self]
      cases hknown : known c with
      | some sig => simp [SignatureMap.get?]
      | none =>
        rw [Option.map_none, ih, hknown]
        exact ite_self none
    · rw [List.filterMap_cons]
      simp only [List.mem_cons, hcf, false_or, ← ih]
      cases known f with
      | none => rfl
      | some sig => simp [SignatureMap.get?, Ne.symm hcf]

/-- The published signatures are those that explain each other. -/
theorem Describes.signature?_eq {a : Analysis} (h : p.Describes config known a)
    (hk : p.Signed config known) : a.signature? = known := by
  funext c
  rw [Analysis.signature?, h.signatures, get?_filterMap]
  split
  next => rfl
  next hnot => exact (hk.undefined c fun hdefines => hnot (mem_map_id.mpr hdefines)).symm

/-! ## Runs have the result -/

variable {order : List AnalysisUnit} {s : RunState}

/-- The malformed functions and the accepted ones, unit by unit, are all functions. -/
theorem malformed_accepted_perm (hp : (p.functions.map Func.id).Nodup) (hc : p.Checkable)
    (hperm : order.Perm p.callGraph.units) :
    ((p.functions.filterMap p.malformed?).map FuncAnalysis.function ++
      order.flatMap fun u => u.functions.filter p.accepts).Perm (p.functions.map Func.id) := by
  have hflat : (order.flatMap fun u => u.functions.filter p.accepts) =
      (order.flatMap AnalysisUnit.functions).filter p.accepts := by
    rw [List.filter_flatMap]
  have hunits := hperm.flatMap_right AnalysisUnit.functions
  rw [hflat]
  refine (List.perm_ext_iff_of_nodup ?_ hp).mpr fun c => ?_
  · refine List.nodup_append'.mpr ⟨(p.map_function_malformed p.functions).nodup hp,
      (hunits.nodup_iff.mpr (CallGraph.units_functions_nodup p)).filter _, fun c hmal hacc => ?_⟩
    exact ((mem_malformed hp hc).mp hmal).2 (List.mem_filter.mp hacc).2
  · rw [List.mem_append, mem_malformed hp hc, List.mem_filter, hunits.mem_iff,
      CallGraph.mem_units_functions, mem_map_id]
    tauto

section Follows

variable (hp : (p.functions.map Func.id).Nodup) (hc : p.Checkable)
  (hperm : order.Perm p.callGraph.units) (h : s.Follows p config known order)
include hp hc hperm h

/-- Each function is published exactly once. -/
theorem finished_perm :
    (s.finished.map FuncAnalysis.function).Perm (p.functions.map Func.id) := by
  obtain ⟨lists, hlists, hfinished⟩ := h.finished
  rw [hfinished, List.map_append, map_function_flatten (fun v hv => hperm.mem_iff.mp hv) hlists]
  exact malformed_accepted_perm hp hc hperm

theorem exists_analysisOf {f : Func} (hf : f ∈ p.functions) :
    ∃ r ∈ s.finished, p.AnalysisOf config known f r := by
  obtain ⟨lists, hlists, hfinished⟩ := h.finished
  rw [hfinished]
  cases hvalid : p.validateFunction f with
  | error rejection =>
    cases rejection with
    | fault cause => exact absurd hvalid (hc f hf cause)
    | defect d =>
      have hmalformed := malformed?_eq_some.mpr ⟨d, hvalid, rfl⟩
      exact ⟨_, List.mem_append_left _ (List.mem_filterMap.mpr ⟨f, hf, hmalformed⟩),
        .inl hmalformed⟩
  | ok _ =>
    have hfunc := function?_of_mem hp hf
    obtain ⟨u, hu, hfu⟩ := CallGraph.unit_of_defines (defines_iff.mpr ⟨f, hfunc⟩)
    obtain ⟨rs, hrs, hunit⟩ := isOk_of_mapM_eq_ok hlists (hperm.mem_iff.mpr hu)
    have hunit' := hunit
    rw [unitAnalyses, bind_eq_ok] at hunit
    obtain ⟨solved, hsolved, hfinish⟩ := hunit
    obtain ⟨m, hm, rfl⟩ := exists_mem_solved hu hsolved (mem_members.mpr ⟨hfu, hfunc, hvalid⟩)
    obtain ⟨r, hr, hmr⟩ := isOk_of_mapM_eq_ok hfinish hm
    exact ⟨r, List.mem_append_right _ (List.mem_flatten.mpr ⟨rs, hrs, hr⟩),
      .inr ⟨u, hu, solved, hsolved, m, hm, rfl, hmr⟩⟩

/-- What is collected after all units were run. -/
theorem collect_describes : p.Describes config known (p.collect s) where
  file := rfl
  functions := by
    have hnodup : (s.finished.map FuncAnalysis.function).Nodup :=
      (finished_perm hp hc hperm h).nodup_iff.mpr hp
    have hfind : ∀ f ∈ p.functions, ∃ r, (s.finished.find? fun a => a.function = f.id) = some r ∧
        p.AnalysisOf config known f r := by
      intro f hf
      obtain ⟨r, hr, hanalysis⟩ := exists_analysisOf hp hc hperm h hf
      exact ⟨r, (Table.find?_key_iff hnodup).mpr ⟨hr, hanalysis.function_eq⟩, hanalysis⟩
    rw [collect]
    dsimp only
    generalize p.functions = fs at hfind
    induction fs with
    | nil => exact .nil
    | cons f fs ih =>
      obtain ⟨r, hr, hanalysis⟩ := hfind f List.mem_cons_self
      rw [List.filterMap_cons, hr]
      exact .cons hanalysis (ih fun g hg => hfind g (List.mem_cons_of_mem f hg))
  signatures := by
    rw [collect, SignatureTable.snapshot_eq, h.ids]
    refine List.filterMap_congr fun f hf => ?_
    have hdefines := mem_map_id.mp hf
    obtain ⟨u, hu, hfu⟩ := CallGraph.unit_of_defines hdefines
    obtain ⟨sig, hknown, hslot⟩ :=
      h.final f hdefines fun _ => ⟨u, hperm.mem_iff.mpr hu, hfu⟩
    rw [hknown, SignatureTable.get?_eq_some_iff.mpr hslot]
  skipped := by
    rw [collect, h.skipped]
    simp

end Follows

/-! ## Orders -/

/-- A run without a stop comes to a state after some units. -/
def Reaches (p : Program) (config : Config) (units : List AnalysisUnit) (s : RunState) : Prop :=
  (p.startRun >>= p.runUnits config (fun _ => false) units) = .ok s

theorem analyzeUnits_eq_ok {a : Analysis} :
    p.analyzeUnits config (fun _ => false) order = .ok a ↔
      ∃ s, p.Reaches config order s ∧ p.collect s = a := by
  simp only [analyzeUnits, Reaches, bind_eq_ok, pure_eq_ok]
  constructor
  · rintro ⟨started, hstart, s, hs, rfl⟩
    exact ⟨s, ⟨started, hstart, hs⟩, rfl⟩
  · rintro ⟨s, ⟨started, hstart, hs⟩, rfl⟩
    exact ⟨started, hstart, s, hs, rfl⟩

section Ordered

variable (hp : (p.functions.map Func.id).Nodup) (hk : p.Signed config known)
  (hordered : p.Ordered order)
include hp hk hordered

theorem follows_of_reaches (h : p.Reaches config order s) :
    p.Checkable ∧ s.Follows p config known order := by
  rcases startRun_spec hp with ⟨hc, hstart⟩ | ⟨-, cause, hstart⟩
  · rw [Reaches, hstart, ok_bind] at h
    exact ⟨hc, ((follows_start hp hc hk).runUnits_eq hp hc hk hordered).2 s h⟩
  · rw [Reaches, hstart] at h
    cases h

theorem exists_reaches (hc : p.Checkable) {lists : List (List FuncAnalysis)}
    (hlists : order.mapM (p.unitAnalyses config known) = .ok lists) :
    ∃ s, p.Reaches config order s := by
  rcases startRun_spec hp with ⟨-, hstart⟩ | ⟨hnot, -⟩
  · unfold Reaches
    rw [hstart, ok_bind, ((follows_start hp hc hk).runUnits_eq hp hc hk hordered).1, hlists]
    exact ⟨_, rfl⟩
  · exact absurd hc hnot

/-- A run over units in order is stopped by faults only. -/
theorem eq_fault_of_analyzeUnits {halt : Halt}
    (h : p.analyzeUnits config (fun _ => false) order = .error halt) :
    ∃ cause, halt = .fault cause := by
  rcases startRun_spec hp with ⟨hc, hstart⟩ | ⟨-, cause, hstart⟩
  · rw [analyzeUnits, hstart, ok_bind,
      ((follows_start hp hc hk).runUnits_eq hp hc hk hordered).1] at h
    cases hlists : order.mapM (p.unitAnalyses config known) with
    | ok lists =>
      rw [hlists] at h
      cases h
    | error cause =>
      rw [hlists] at h
      exact ⟨cause, (Except.error.inj h).symm⟩
  · rw [analyzeUnits, hstart] at h
    exact ⟨cause, (Except.error.inj h).symm⟩

end Ordered

/-- A program has a result if no check is stopped by a fault and every solved function is
finished. -/
structure Completes (p : Program) (config : Config) (known : FuncId → Option Signature) : Prop where
  checkable : p.Checkable
  finishes : ∀ u ∈ p.callGraph.units, ∀ solved, p.solveUnit config known u = .ok solved →
    ∀ m ∈ solved, ∃ r, m.finish config = .ok r

theorem Describes.completes {a : Analysis} (h : p.Describes config known a) :
    p.Completes config known := by
  have hanalysis : ∀ f ∈ p.functions, ∃ r, p.AnalysisOf config known f r := by
    intro f hf
    obtain ⟨i, hi, rfl⟩ := List.mem_iff_getElem.mp hf
    exact ⟨_, (List.forall₂_iff_get.mp h.functions).2 i hi (h.functions.length_eq ▸ hi)⟩
  refine ⟨fun f hf cause hfault => ?_, fun u hu solved hsolved m hm => ?_⟩
  · obtain ⟨r, hr⟩ := hanalysis f hf
    exact hr.validateFunction_ne_fault cause hfault
  · have hmember := mem_members.mp (func_mem_members hu hsolved hm)
    obtain ⟨r, hr⟩ := hanalysis m.func (mem_of_function? hmember.2.1)
    exact ⟨r, hr.finish_eq hu hsolved hm⟩

theorem Completes.exists_lists (h : p.Completes config known)
    (horder : ∀ u ∈ order, u ∈ p.callGraph.units) :
    ∃ lists, order.mapM (p.unitAnalyses config known) = .ok lists := by
  refine mapM_isOk fun u hu => ?_
  obtain ⟨solved, hsolved⟩ := p.solveUnit_isOk config known u
  rw [unitAnalyses, hsolved, ok_bind]
  exact mapM_isOk (h.finishes u (horder u hu) solved hsolved)

/-- A run over all units in order has a result exactly if the program completes, and no other than
the one that is described without the run. -/
theorem analyzeUnits_eq_ok_iff (hp : (p.functions.map Func.id).Nodup) (hk : p.Signed config known)
    (hordered : p.Ordered order) (hperm : order.Perm p.callGraph.units) {a : Analysis} :
    p.analyzeUnits config (fun _ => false) order = .ok a ↔ p.Describes config known a := by
  have hdescribes : ∀ {s}, p.Reaches config order s → p.Describes config known (p.collect s) := by
    intro s hs
    obtain ⟨hc, hfollows⟩ := follows_of_reaches hp hk hordered hs
    exact collect_describes hp hc hperm hfollows
  rw [analyzeUnits_eq_ok]
  constructor
  · rintro ⟨s, hs, rfl⟩
    exact hdescribes hs
  · intro h
    obtain ⟨lists, hlists⟩ := h.completes.exists_lists fun u hu => hperm.mem_iff.mp hu
    obtain ⟨s, hs⟩ := exists_reaches hp hk hordered h.completes.checkable hlists
    exact ⟨s, hs, (hdescribes hs).unique h⟩

/-- Any order of the units of each level keeps callees before callers. -/
theorem ordered_of_levels {levels : List (List AnalysisUnit)}
    (h : List.Forall₂ List.Perm levels p.callGraph.levels) :
    p.Ordered levels.flatten ∧ levels.flatten.Perm p.callGraph.units := by
  have hperm : levels.flatten.Perm p.callGraph.units :=
    (List.Perm.flatten_congr h).trans (CallGraph.levels_perm p)
  have hlevel : ∀ i (hi : i < levels.length), ∀ u ∈ levels[i], u.level = i := by
    intro i hi u hu
    have hi' : i < p.callGraph.levels.length := h.length_eq ▸ hi
    have hmem := ((List.forall₂_iff_get.mp h).2 i hi hi').mem_iff.mp hu
    exact ((CallGraph.mem_level_iff (List.getElem?_eq_getElem hi')).mp hmem).2
  have hsorted : levels.flatten.Pairwise fun u v => u.level ≤ v.level := by
    refine List.pairwise_flatten.mpr ⟨fun level hmem => ?_, ?_⟩
    · obtain ⟨i, hi, rfl⟩ := List.mem_iff_getElem.mp hmem
      refine List.pairwise_of_forall_mem_list fun u hu v hv => ?_
      rw [hlevel i hi u hu, hlevel i hi v hv]
    · refine List.pairwise_iff_getElem.mpr fun i j hi hj hlt u hu v hv => ?_
      rw [hlevel i hi u hu, hlevel j hj v hv]
      omega
  refine ⟨fun before u after heq => ?_, hperm⟩
  have hmem : ∀ v, v ∈ before ++ u :: after ↔ v ∈ p.callGraph.units := by
    intro v
    rw [← heq, hperm.mem_iff]
  have hu := (hmem u).mp (by simp)
  have hnodup := hperm.nodup_iff.mpr (CallGraph.units_nodup p)
  rw [heq] at hsorted hnodup
  refine ⟨hu, fun v hv => (hmem v).mp (List.mem_append_left _ hv), fun hbefore => ?_,
    fun v hv hcalls => ?_⟩
  · exact List.disjoint_of_nodup_append hnodup hbefore List.mem_cons_self
  · rcases List.mem_append.mp ((hmem v).mpr hv) with hbefore | hafter
    · exact hbefore
    · -- a callee is at a lower level, and so not among the units that follow
      have hlt := CallGraph.level_lt_of_callsUnit hu hv hcalls
      rcases List.mem_cons.mp hafter with rfl | hafter
      · exact absurd rfl hcalls.1
      · have hle := (List.pairwise_cons.mp (List.pairwise_append.mp hsorted).2.1).1 v hafter
        omega

theorem analyze_eq_ok_iff (hp : (p.functions.map Func.id).Nodup) (hk : p.Signed config known)
    {a : Analysis} : p.analyze config (fun _ => false) = .ok a ↔ p.Describes config known a := by
  have hlevels : List.Forall₂ List.Perm p.callGraph.levels p.callGraph.levels :=
    List.forall₂_same.mpr fun level _ => .refl level
  obtain ⟨hordered, hperm⟩ := ordered_of_levels hlevels
  exact analyzeUnits_eq_ok_iff hp hk hordered hperm

/-! ## The result is a fixed point -/

theorem Describes.map_function {a : Analysis} (h : p.Describes config known a) :
    a.functions.map FuncAnalysis.function = p.functions.map Func.id := by
  have hids : List.Forall₂ (fun f r => f.id = FuncAnalysis.function r) p.functions a.functions :=
    h.functions.imp fun f r hr => hr.function_eq.symm
  generalize p.functions = fs, a.functions = rs at hids
  induction hids with
  | nil => rfl
  | cons hid _ ih => rw [List.map_cons, List.map_cons, hid, ih]

theorem Describes.exists_find? {a : Analysis} (h : p.Describes config known a)
    (hp : (p.functions.map Func.id).Nodup) {f : Func} (hf : f ∈ p.functions) :
    ∃ r, a.functions.find? (fun r => r.function = f.id) = some r ∧
      p.AnalysisOf config known f r := by
  obtain ⟨i, hi, rfl⟩ := List.mem_iff_getElem.mp hf
  have hlt : i < a.functions.length := h.functions.length_eq ▸ hi
  have hanalysis := (List.forall₂_iff_get.mp h.functions).2 i hi hlt
  refine ⟨a.functions[i], ?_, hanalysis⟩
  exact (Table.find?_key_iff (h.map_function ▸ hp)).mpr
    ⟨List.getElem_mem hlt, hanalysis.function_eq⟩

/-- The result of a run is a fixed point of the whole program: solved again against the published
signatures, a function whose unit is not recursive or has final signatures gets the modes it has. It
has no conflict that is not reported, and needs no more than its published signature says. -/
theorem analyze_fixed_point (hp : (p.functions.map Func.id).Nodup) {a : Analysis}
    (h : p.analyze config (fun _ => false) = .ok a) {f : Func} (hf : f ∈ p.functions)
    (hvalid : p.validateFunction f = .ok ()) {u : AnalysisUnit} (hu : u ∈ p.callGraph.units)
    (hfu : f.id ∈ u.functions)
    (hfinal : u.recursive = false ∨
      ∀ sig, a.signature? f.id = some sig → sig.resolved = true) :
    ∃ r s sig, a.functions.find? (fun r => r.function = f.id) = some r ∧
      a.signature? f.id = some sig ∧
      Environment.solve ⟨p, config, a.signature?⟩ f f.usage = .ok s ∧
      s.reachable = r.solution.reachable ∧ s.uses = r.solution.uses ∧
      s.modes = r.solution.modes ∧ (∀ v ∈ s.conflicts, v ∈ r.violations) ∧
      s.signature.Within sig ∧ (u.recursive = false → s.signature = sig) := by
  obtain ⟨known, hk⟩ := p.exists_signed config
  have hdescribes := (analyze_eq_ok_iff hp hk).mp h
  obtain rfl := hdescribes.signature?_eq hk
  obtain ⟨r, hfind, hanalysis⟩ := hdescribes.exists_find? hp hf
  rcases hanalysis with hmalformed | ⟨v, hv, solved, hsolved, m, hm, rfl, hfinish⟩
  · obtain ⟨d, hd, -⟩ := malformed?_eq_some.mp hmalformed
    cases hd.symm.trans hvalid
  · have hmember : m.func ∈ p.members v :=
      map_func_solveUnit hv hsolved ▸ List.mem_map_of_mem hm
    obtain rfl := CallGraph.unit_unique hu hfu hv (mem_members.mp hmember).1
    have hsig := hk.solved u hu solved hsolved m hm
    obtain ⟨s, hsolve, hsolution, hwithin, heq⟩ :=
      hk.solve_again hu hsolved hm (hfinal.imp_right fun hresolved => hresolved _ hsig)
    obtain ⟨-, hkept, hreported⟩ := SolvedFunc.finish_eq_ok hfinish
    rw [hsolution] at hkept hreported
    exact ⟨r, s, _, hfind, hsig, hsolve, by rw [hkept], by rw [hkept], by rw [hkept],
      hreported, hwithin, heq⟩

/-- Passes its argument on to `pong`. -/
def ping : Func where
  id := 0
  name := "ping"
  span := ⟨0, 20⟩
  params := [0]
  bindings := [⟨"x", .named "Data", .param, 0, none, ⟨5, 6⟩⟩]
  blocks := [⟨0, 0, [⟨.eval (.call (.function 1) [.binding ⟨0, none, ⟨13, 14⟩⟩]), ⟨8, 15⟩⟩],
    some ⟨.ret none, ⟨16, 19⟩⟩⟩]
  regions := [⟨0, .body, none, none, ⟨0, 20⟩⟩]
  allocations := []
  isAsync := false

/-- Passes its argument back to `ping`, or returns it. -/
def pong : Func where
  id := 1
  name := "pong"
  span := ⟨20, 60⟩
  params := [0]
  bindings := [⟨"y", .named "Data", .param, 0, none, ⟨25, 26⟩⟩]
  blocks := [⟨0, 0, [], some ⟨.branch (.constant (.bool true)) 1 2, ⟨28, 30⟩⟩⟩,
    ⟨1, 0, [⟨.eval (.call (.function 0) [.binding ⟨0, none, ⟨37, 38⟩⟩]), ⟨32, 39⟩⟩],
      some ⟨.ret none, ⟨40, 46⟩⟩⟩,
    ⟨2, 0, [], some ⟨.ret (some (.binding ⟨0, none, ⟨57, 58⟩⟩)), ⟨50, 58⟩⟩⟩]
  regions := [⟨0, .body, none, none, ⟨20, 60⟩⟩]
  allocations := []
  isAsync := false

/-- Two functions that call each other. -/
def pingPong : Program := ((Program.empty "main.vs").define ping).define pong

theorem pingPong_units : pingPong.callGraph.units = [⟨[0, 1], true, 0⟩] := by
  have hgroups : pingPong.callGraph.groups = [[1, 0]] := by decide +kernel
  have hidx : ∀ f, pingPong.callGraph.functions.idxOf f = [0, 1].idxOf f := fun _ => rfl
  have hlevel : pingPong.callGraph.levelOf [[1, 0]] [] [1, 0] = 0 := by decide +kernel
  rw [CallGraph.units, hgroups]
  simp only [List.foldl_cons, List.foldl_nil, List.nil_append, CallGraph.toUnit, hlevel, hidx]
  simp [List.mergeSort]

theorem pingPong_levels : pingPong.callGraph.levels = [[⟨[0, 1], true, 0⟩]] := by
  rw [CallGraph.levels, pingPong_units]
  decide +kernel

/-- That `pong` returns its argument makes both functions take theirs over; this is published, and
with it `ping` gets the modes it has. -/
theorem pingPong_fixed_point :
    ∃ a r s, pingPong.analyze .default (fun _ => false) = .ok a ∧
      a.signature? 0 = some (.ofModes [.moved]) ∧
      a.functions.find? (fun r => r.function = 0) = some r ∧
      Environment.solve ⟨pingPong, .default, a.signature?⟩ ping ping.usage = .ok s ∧
      s.uses = r.solution.uses ∧ s.modes = r.solution.modes ∧
      s.signature.Within (.ofModes [.moved]) := by
  have hresult : (pingPong.analyze .default (fun _ => false) >>= fun a => pure (a.signature? 0)) =
      .ok (some (.ofModes [.moved])) := by
    rw [Program.analyze, pingPong_levels]
    decide +kernel
  have hunit : (⟨[0, 1], true, 0⟩ : AnalysisUnit) ∈ pingPong.callGraph.units := by
    rw [pingPong_units]
    exact List.mem_cons_self
  obtain ⟨a, ha, hsig⟩ := bind_eq_ok.mp hresult
  replace hsig := pure_eq_ok.mp hsig
  have hfinal : ∀ sig, a.signature? ping.id = some sig → sig.resolved = true := by
    intro sig h
    rw [← Option.some.inj (hsig.symm.trans h)]
    rfl
  obtain ⟨r, s, sig, hfind, hsig', hsolve, -, huses, hmodes, -, hwithin, -⟩ :=
    analyze_fixed_point (f := ping) (by decide +kernel) ha (by decide +kernel) (by decide +kernel)
      hunit (by decide) (.inr hfinal)
  obtain rfl : sig = .ofModes [.moved] := Option.some.inj (hsig'.symm.trans hsig)
  exact ⟨a, r, s, ha, hsig, hfind, hsolve, huses, hmodes, hwithin⟩

end Program

end Tenure

import Tenure.Proofs.Hint
import Tenure.Proofs.Ir.Walks

/-!
# Hints about depth

In an accepted function every region lies some number of links below the body, in whatever order
regions are declared, and this number is its depth (`Func.exists_depth`). Hints about depth are
given for the regions one below the limit and for no others. Each region beyond the limit lies in
exactly one of these (`Func.existsUnique_depth`), so its chain gets one hint
(`Facts.one_depth_hint_per_chain`).
-/

namespace Tenure

/-- Whether a hint is about the depth of a region. -/
def Hint.isTooDeep : Hint → Bool
  | .regionTooDeep .. => true
  | _ => false

namespace Func

variable {f : Func} {r s : RegionId} {depth k : Nat}

/-- In an accepted function a region is as deep as links lead from it to the body. -/
theorem regionDepth_eq (hvalid : f.validate = .ok ()) (h : f.outward depth r = some bodyRegion) :
    f.regionDepth r = depth :=
  regionDepth_of_end h (parent?_body hvalid)

theorem exists_depth (hvalid : f.validate = .ok ()) (hr : r < f.regions.length) :
    ∃ depth, f.outward depth r = some bodyRegion ∧ f.regionDepth r = depth := by
  obtain ⟨depth, h⟩ := nested_iff_outward.mp (nested_body hvalid hr)
  exact ⟨depth, h, regionDepth_eq hvalid h⟩

/-- At every depth up to its own, a region lies in exactly one region. -/
theorem existsUnique_depth (hvalid : f.validate = .ok ()) (hr : r < f.regions.length)
    (h : f.outward depth r = some bodyRegion) (hk : k ≤ depth) :
    ∃! s, (s < f.regions.length ∧ f.regionDepth s = k) ∧ f.Nested r s := by
  obtain ⟨i, rfl⟩ := Nat.exists_eq_add_of_le' hk
  have hsplit := h
  rw [outward_add] at hsplit
  obtain ⟨s, hs, hbody⟩ := Option.bind_eq_some_iff.mp hsplit
  have hnested : f.Nested r s := nested_iff_outward.mpr ⟨i, hs⟩
  refine ⟨s, ⟨⟨lt_of_nested hvalid hr hnested, regionDepth_eq hvalid hbody⟩, hnested⟩, ?_⟩
  rintro t ⟨⟨ht, hdepth⟩, hnested⟩
  obtain ⟨j, hj⟩ := nested_iff_outward.mp hnested
  obtain ⟨d, hd, hdepth'⟩ := exists_depth hvalid ht
  obtain rfl : k = d := hdepth.symm.trans hdepth'
  -- from either region it is as far to the body, so both are as far from `r`
  have hbody : f.outward (j + k) r = some bodyRegion := by rw [outward_add, hj]; exact hd
  have hfar : j + k = i + k :=
    outward_end_unique hbody (parent?_body hvalid) h (parent?_body hvalid)
  obtain rfl : j = i := Nat.add_right_cancel hfar
  exact Option.some.inj (hj.symm.trans hs)

/-- The regions at a depth, in the order of their ids. -/
def regionsAt (f : Func) (depth : Nat) : List RegionId :=
  (List.range f.regions.length).filter fun r => f.regionDepth r = depth

theorem mem_regionsAt : s ∈ f.regionsAt depth ↔ s < f.regions.length ∧ f.regionDepth s = depth := by
  simp [regionsAt]

/-- The regions are declared under their own ids. -/
def OwnIds (f : Func) : Prop :=
  ∀ (r : RegionId) (decl : Region), f.regions[r]? = some decl → decl.id = r

theorem OwnIds.getElem?_id (h : f.OwnIds) {decl : Region} (hmem : decl ∈ f.regions) :
    f.regions[decl.id]? = some decl := by
  obtain ⟨r, hr⟩ := List.mem_iff_getElem?.mp hmem
  rwa [h r decl hr]

theorem OwnIds.map_id (h : f.OwnIds) : f.regions.map Region.id = List.range f.regions.length := by
  refine List.ext_getElem? fun r => ?_
  rw [List.getElem?_map]
  cases hr : f.regions[r]? with
  | none => simp [List.getElem?_eq_none_iff.mp hr]
  | some decl => simp [List.getElem?_range (List.getElem?_eq_some_iff.mp hr).1, h r decl hr]

theorem OwnIds.map_filter (h : f.OwnIds) (depth : Nat) :
    (f.regions.filter fun decl => f.regionDepth decl.id = depth).map Region.id =
      f.regionsAt depth := by
  rw [regionsAt, ← h.map_id, List.filter_map]
  rfl

end Func

namespace Facts

variable {env : Environment} {f : Func} {facts : Facts} {config : Config} {plan : Plan}

/-- The hint about the depth of a region. -/
def depthHint (config : Config) (r : Region) : Hint :=
  .regionTooDeep (config.maxRegionDepth + 1) config.maxRegionDepth r.span

theorem filter_regionHints (facts : Facts) (config : Config) (plan : Plan) (r : Region) :
    (facts.regionHints config plan r).filter Hint.isTooDeep =
      if facts.func.regionDepth r.id = config.maxRegionDepth + 1 then [depthHint config r]
      else [] := by
  rw [regionHints, List.filter_append]
  have hempty : (if r.kind.isExplicit && (plan.members r.id).isEmpty then
      [Hint.emptyRegion r.kind r.span] else []).filter Hint.isTooDeep = [] := by
    split <;> simp [Hint.isTooDeep]
  rw [hempty, List.nil_append]
  split
  next hdepth => simp [hdepth, Hint.isTooDeep, depthHint]
  next => rfl

/-- Hints about depth are given for the regions one below the limit, in their order. -/
theorem filter_hints (hf : f.Valid) (h : facts.Of env f)
    (hsuggest : config.suggestOptimizations = true) (plan : Plan) :
    ∃ hints, facts.hints config plan = .ok hints ∧ hints.filter Hint.isTooDeep =
      (f.regions.filter fun r => f.regionDepth r.id = config.maxRegionDepth + 1).map
        (depthHint config) := by
  refine ⟨_, hints_eq hf h config plan, ?_⟩
  have hparams : ∀ hint ∈ f.params.filterMap (fun p => (f.bindings[p]?).bind (facts.paramHint? p)),
      ¬ hint.isTooDeep = true := by
    intro hint hmem
    obtain ⟨p, -, hsome⟩ := List.mem_filterMap.mp hmem
    obtain ⟨decl, -, hsome⟩ := Option.bind_eq_some_iff.mp hsome
    obtain ⟨needed, rfl, -⟩ := paramHint?_eq_some.mp hsome
    simp [Hint.isTooDeep]
  rw [if_pos hsuggest, List.filter_append, List.filter_eq_nil_iff.mpr hparams, List.nil_append]
  induction f.regions with
  | nil => rfl
  | cons r rest ih =>
    rw [List.flatMap_cons, List.filter_append, ih, filter_regionHints, h.func, List.filter_cons]
    by_cases hdepth : f.regionDepth r.id = config.maxRegionDepth + 1
    · simp [hdepth]
    · simp [hdepth]

/-- In an accepted function whose regions are declared under their own ids, the hints about depth,
if hints are given at all, are one for each of certain regions, in the order of declaration. A
region with more links to the body than the limit allows lies in, or is, exactly one of these. One
with at most as many is not among them. -/
theorem one_depth_hint_per_chain (env : Environment) (f : Func) (hvalid : f.validate = .ok ())
    (hids : f.OwnIds) :
    ∃ facts, env.facts f = .ok facts ∧ ∀ config plan, config.suggestOptimizations = true →
      ∃ hints reported, facts.hints config plan = .ok hints ∧
        List.Forall₂ (fun hint r => ∃ decl, f.regions[r]? = some decl ∧
            hint = .regionTooDeep (config.maxRegionDepth + 1) config.maxRegionDepth decl.span)
          (hints.filter Hint.isTooDeep) reported ∧
        reported.Pairwise (· < ·) ∧
        ∀ r < f.regions.length, ∃ depth, f.outward depth r = some Func.bodyRegion ∧
          (config.maxRegionDepth < depth → ∃! s, s ∈ reported ∧ f.Nested r s) ∧
          (depth ≤ config.maxRegionDepth → r ∉ reported) := by
  have hf := Func.valid_of_validate hvalid
  obtain ⟨facts, hfacts⟩ := env.facts_isOk hf
  refine ⟨facts, hfacts, fun config plan hsuggest => ?_⟩
  obtain ⟨hints, hhints, hfilter⟩ := filter_hints hf (Environment.of_facts hfacts) hsuggest plan
  refine ⟨hints, f.regionsAt (config.maxRegionDepth + 1), hhints, ?_, ?_, fun r hr => ?_⟩
  · rw [hfilter, ← hids.map_filter, List.forall₂_map_left_iff, List.forall₂_map_right_iff,
      List.forall₂_same]
    exact fun decl hmem => ⟨decl, hids.getElem?_id (List.mem_of_mem_filter hmem), rfl⟩
  · exact List.Pairwise.filter _ List.pairwise_lt_range
  · obtain ⟨depth, hout, hdepth⟩ := Func.exists_depth hvalid hr
    refine ⟨depth, hout, fun hlt => ?_, fun hle hreported => ?_⟩
    · simp only [Func.mem_regionsAt]
      exact Func.existsUnique_depth hvalid hr hout hlt
    · have := (Func.mem_regionsAt.mp hreported).2
      omega

/-- Region 2 lies in the body, region 1 in region 2, and regions 3 and 4 in region 1. -/
def declaredInward : Func where
  id := 0
  name := "f"
  span := ⟨0, 40⟩
  params := []
  bindings := []
  blocks := [⟨0, 3, [], some ⟨.ret none, ⟨20, 22⟩⟩⟩]
  regions := [⟨0, .body, none, none, ⟨0, 40⟩⟩, ⟨1, .region, some 2, none, ⟨2, 38⟩⟩,
    ⟨2, .arena, some 0, none, ⟨1, 39⟩⟩, ⟨3, .region, some 1, none, ⟨3, 30⟩⟩,
    ⟨4, .region, some 1, none, ⟨31, 37⟩⟩]
  allocations := []
  isAsync := false

/-- With a limit of 1 the two innermost regions share the hint on the region around them. -/
theorem declaredInward_one_hint :
    declaredInward.validate = .ok () ∧ declaredInward.OwnIds ∧
    ∃ facts hints, inspectingEnv.facts declaredInward = .ok facts ∧
      facts.hints { Config.default with maxRegionDepth := 1 } ⟨[], [], []⟩ = .ok hints ∧
      hints.filter Hint.isTooDeep = [.regionTooDeep 2 1 ⟨2, 38⟩] ∧
      (∃! s, s ∈ [1] ∧ declaredInward.Nested 3 s) ∧ ∃! s, s ∈ [1] ∧ declaredInward.Nested 4 s := by
  have hvalid : declaredInward.validate = .ok () := by decide +kernel
  have hids : declaredInward.OwnIds := by
    have hall : ∀ r < 5, declaredInward.regions[r]?.all (fun decl => decl.id = r) = true := by
      decide
    intro r decl hr
    simpa [hr] using hall r (List.getElem?_eq_some_iff.mp hr).1
  have hrun : (inspectingEnv.facts declaredInward >>= fun facts => do
      return (← facts.hints { Config.default with maxRegionDepth := 1 } ⟨[], [], []⟩).filter
        Hint.isTooDeep) = .ok [.regionTooDeep 2 1 ⟨2, 38⟩] := by decide +kernel
  obtain ⟨facts, hfacts, hall⟩ := one_depth_hint_per_chain inspectingEnv declaredInward hvalid hids
  obtain ⟨hints, reported, hhints, heach, -, hregions⟩ :=
    hall { Config.default with maxRegionDepth := 1 } ⟨[], [], []⟩ rfl
  rw [hfacts, ok_bind, hhints, ok_bind] at hrun
  have hfilter := pure_eq_ok.mp hrun
  -- only region 1 has the span of the hint
  obtain rfl : reported = [1] := by
    have hspan : ∀ r < 5, declaredInward.regions[r]?.map Region.span = some ⟨2, 38⟩ → r = 1 := by
      decide
    rw [hfilter] at heach
    obtain ⟨r, rest, ⟨decl, hr, heq⟩, hrest, rfl⟩ := List.forall₂_cons_left_iff.mp heach
    obtain rfl := List.forall₂_nil_left_iff.mp hrest
    injection heq with _ _ heq
    rw [hspan r (List.getElem?_eq_some_iff.mp hr).1 (by rw [hr, heq]; rfl)]
  have hbeyond : ∀ r < 5, declaredInward.outward 3 r = some 0 →
      ∃! s, s ∈ [1] ∧ declaredInward.Nested r s := by
    intro r hr hout
    obtain ⟨depth, hdepth, hunique, -⟩ := hregions r hr
    have hend := Func.parent?_body hvalid
    exact hunique (Func.outward_end_unique hout hend hdepth hend ▸ by decide)
  exact ⟨hvalid, hids, facts, hints, hfacts, hhints, hfilter, hbeyond 3 (by decide) (by decide),
    hbeyond 4 (by decide) (by decide)⟩

end Facts

end Tenure

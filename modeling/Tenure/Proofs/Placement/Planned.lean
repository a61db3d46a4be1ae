import Tenure.Proofs.Placement.Held
import Tenure.Proofs.Placement.Holders
import Tenure.Proofs.Placement.RegionExits

/-!
# When a function has a plan

Of all that makes up a plan only the analysis of single frees may fail to have a result. So an
accepted function has a plan exactly if each of its reachable allocations is left to a region before
that analysis is asked, or the analysis comes to rest for it (`plan_isOk_iff`).
-/

namespace Tenure.Facts

variable {env : Environment} {f : Func} {facts : Facts} {config : Config} {site : AllocSite}
  {holders : Holders}

/-- The allocation is left to a region without a look at its uses: none of them hands it over, and
some region around it may free it. -/
def LeftToRegion (facts : Facts) (config : Config) (site : AllocSite) (holders : Holders) : Prop :=
  facts.transfers holders = [] ∧ ∃ r, facts.boundingRegion? config site holders = .ok (some r)

/-! ## Regions -/

theorem region_isOk {r : RegionId} (hr : r < f.regions.length) : ∃ decl, f.region r = .ok decl :=
  ⟨_, lookup_eq_ok.mpr (List.getElem?_eq_getElem hr)⟩

/-- Among declared regions the first arena is looked up without a fault. -/
theorem firstArena?_eq {rs : List RegionId} (hrs : ∀ r ∈ rs, r < f.regions.length) :
    f.firstArena? rs =
      .ok (rs.find? fun r => f.regions[r]?.any fun decl => decl.kind = .arena) := by
  induction rs with
  | nil => rfl
  | cons r rest ih =>
    have hdecl := List.getElem?_eq_getElem (hrs r List.mem_cons_self)
    have hregion : f.region r = .ok _ := lookup_eq_ok.mpr hdecl
    unfold Func.firstArena?
    rw [hregion, ok_bind, List.find?_cons, hdecl, Option.any_some]
    split
    next hkind => simp only [hkind, decide_true]; rfl
    next hkind =>
      simp only [hkind, decide_false]
      exact ih fun s hs => hrs s (List.mem_cons_of_mem _ hs)

/-- The escapes of the references that one use makes. -/
def loanEscapes (facts : Facts) (u : SolvedUse) : List (UseId × Violation) :=
  match facts.localLoan? u with
  | some holder =>
    facts.escapesOf (Graph.reach facts.flowTargets facts.flowDepth [holder])
      (.localBinding u.decl.name) u.span
  | none => []

section Accepted

variable (hvalid : f.validate = .ok ()) (h : facts.Of env f)
include hvalid h

/-- The choice of a region always has a result. -/
theorem boundingRegion?_isOk (config : Config) (hsite : site ∈ f.usage.allocations)
    (hholders : facts.holders site = .ok holders) :
    ∃ chosen, facts.boundingRegion? config site holders = .ok chosen := by
  have hf := Func.valid_of_validate hvalid
  obtain ⟨step, hstep, -⟩ := Func.exists_site_of_allocation hf hsite
  obtain ⟨block, hblock, -⟩ := Func.step?_eq_some.mp hstep
  have hregion : block.region < f.regions.length := by
    have hrange := (Func.blocks_of_validate hvalid).2.1
    exact (hrange block (List.mem_of_getElem? hblock)).region_lt
  obtain ⟨declared, hdeclared⟩ : ∃ declared, (holders.all.mapM fun b => do
      return (← facts.func.binding b).region) = .ok declared := by
    refine mapM_isOk fun b hb => ?_
    have hlt : b < f.bindings.length := by
      refine lt_of_holder hf h hsite hholders ?_
      simpa [Holders.contains, Holders.all] using hb
    simp only [bind_eq_ok, pure_eq_ok, h.func]
    exact ⟨_, _, lookup_eq_ok.mpr (List.getElem?_eq_getElem hlt), rfl⟩
  have hcovering : facts.coveringRegion block.region declared < f.regions.length :=
    Func.lt_of_nested hvalid hregion (nested_coveringRegion hvalid h declared hregion)
  have hancestor : ∀ r ∈ f.regionAncestors (facts.coveringRegion block.region declared),
      r < f.regions.length := fun r hr =>
    Func.lt_of_nested hvalid hcovering (Func.nested_of_mem_regionAncestors hr)
  have hget : f.block site.point.block = .ok block := lookup_eq_ok.mpr hblock
  unfold boundingRegion?
  rw [hdeclared, h.func, hget, ok_bind, ok_bind]
  dsimp only
  -- whichever region is chosen, it is declared
  split
  · rw [firstArena?_eq hancestor, ok_bind]
    cases hfind : (f.regionAncestors (facts.coveringRegion block.region declared)).find?
        fun r => f.regions[r]?.any fun decl => decl.kind = .arena with
    | none => exact ⟨none, rfl⟩
    | some r =>
      obtain ⟨decl, hdecl⟩ := region_isOk (hancestor r (List.mem_of_find?_eq_some hfind))
      simp only [hdecl, ok_bind]
      exact ⟨_, rfl⟩
  · obtain ⟨decl, hdecl⟩ := region_isOk hcovering
    simp only [hdecl, ok_bind]
    exact ⟨_, rfl⟩

/-- An allocation is placed exactly if it is left to a region or its holders come to rest. -/
theorem place_isOk_iff (config : Config) (hsite : site ∈ f.usage.allocations)
    (hholders : facts.holders site = .ok holders) :
    (∃ placement, facts.place config site holders = .ok placement) ↔
      facts.LeftToRegion config site holders ∨ facts.ComesToRest site holders := by
  have hf := Func.valid_of_validate hvalid
  obtain ⟨order, horder, -⟩ := Func.reversePostorder_spec hf
  have hpoints : (∃ points, facts.freePoints site holders = .ok points) ↔
      facts.ComesToRest site holders :=
    freePoints_isOk_iff.trans (heldExits_isOk_iff h horder)
  constructor
  · rintro ⟨placement, hplace⟩
    unfold place at hplace
    dsimp only at hplace
    split at hplace
    next hempty =>
      obtain ⟨chosen, hchosen, hplace⟩ := bind_eq_ok.mp hplace
      cases chosen with
      | none =>
        obtain ⟨points, hfree, -⟩ := bind_eq_ok.mp hplace
        exact Or.inr (hpoints.mp ⟨points, hfree⟩)
      | some r => exact Or.inl ⟨List.isEmpty_iff.mp hempty, r, hchosen⟩
    next =>
      obtain ⟨points, hfree, -⟩ := bind_eq_ok.mp hplace
      exact Or.inr (hpoints.mp ⟨points, hfree⟩)
  · unfold place
    rintro (⟨hempty, r, hchosen⟩ | hrest)
    · simp only [hempty, List.isEmpty_nil, if_true, hchosen, ok_bind]
      exact ⟨_, rfl⟩
    · obtain ⟨points, hfree⟩ := hpoints.mpr hrest
      obtain ⟨chosen, hchosen⟩ := boundingRegion?_isOk hvalid h config hsite hholders
      simp only [hchosen, hfree, ok_bind]
      split
      · cases chosen with
        | none => exact ⟨_, rfl⟩
        | some r => exact ⟨_, rfl⟩
      · exact ⟨_, rfl⟩

/-! ## Plans -/

omit hvalid in
/-- If the members of regions are members of declared regions, the bulk frees can be listed. -/
theorem planDeallocs_isOk {plan : Plan}
    (hmembers : ∀ r, plan.members r ≠ [] → r < f.regions.length) :
    ∃ deallocs, facts.planDeallocs plan = .ok deallocs := by
  obtain rfl := h.func
  have hregions : ∃ perRegion, (facts.func.regions.reverse.mapM fun decl => do
      let allocs := plan.members decl.id
      if allocs.isEmpty then return []
      else
        let exits ← facts.func.regionExits facts.solution.reachable decl.id
        return exits.map fun exit => (⟨decl.id, exit, allocs⟩ : Dealloc)) = .ok perRegion := by
    refine mapM_isOk fun decl _ => ?_
    dsimp only
    split
    · exact ⟨[], rfl⟩
    next hne =>
      have hlt := hmembers decl.id (by simpa using hne)
      rw [Func.regionExits_eq (List.getElem?_eq_getElem hlt), ok_bind]
      exact ⟨_, rfl⟩
  obtain ⟨perRegion, hperRegion⟩ := hregions
  unfold planDeallocs
  rw [hperRegion, ok_bind]
  exact ⟨_, rfl⟩

omit hvalid in
theorem localEscapes_eq (hf : f.Valid) :
    facts.localEscapes = .ok (facts.solution.liveUses.flatMap facts.loanEscapes) := by
  unfold localEscapes
  rw [mapM_eq_ok_map, ok_bind, List.flatMap_def]
  · rfl
  · intro u _
    unfold loanEscapes
    cases facts.localLoan? u with
    | none => rfl
    | some holder =>
      dsimp only
      rw [propagate_ref hf h, ok_bind]
      rfl

/-- An accepted function has a plan exactly if the analysis of single frees comes to rest for every
reachable allocation that is not left to a region anyway. -/
theorem plan_isOk_iff (config : Config) : (∃ plan, facts.plan config = .ok plan) ↔
    ∀ site ∈ f.usage.allocations, f.Reachable site.point → ∀ holders,
      facts.holders site = .ok holders →
        facts.LeftToRegion config site holders ∨ facts.ComesToRest site holders := by
  have hf := Func.valid_of_validate hvalid
  constructor
  · rintro ⟨plan, hplan⟩ site hsite hreach holders hholders
    obtain ⟨sites, hsites, -⟩ := plan_eq_ok hplan
    obtain ⟨entry, -, hentry⟩ :=
      isOk_of_mapM_eq_ok hsites ((mem_liveSites hf h).mpr ⟨hsite, hreach⟩)
    obtain ⟨-, holders', hholders', hplace⟩ := planSite_eq_ok hentry
    obtain rfl := Except.ok.inj (hholders.symm.trans hholders')
    exact (place_isOk_iff hvalid h config hsite hholders).mp ⟨_, hplace⟩
  · intro hall
    obtain ⟨sites, hsites⟩ : ∃ sites, facts.liveSites.mapM (facts.planSite config) = .ok sites := by
      refine mapM_isOk fun site hlive => ?_
      obtain ⟨hsite, hreach⟩ := (mem_liveSites hf h).mp hlive
      obtain ⟨holders, hholders⟩ := holders_isOk hf h site
      obtain ⟨placement, hplace⟩ := (place_isOk_iff hvalid h config hsite hholders).mpr
        (hall site hsite hreach holders hholders)
      unfold planSite
      rw [hholders, ok_bind, hplace, ok_bind]
      exact ⟨_, rfl⟩
    have hmembers : ∀ escapes r, (⟨sites.map Prod.fst, [], escapes⟩ : Plan).members r ≠ [] →
        r < f.regions.length := by
      intro escapes r hne
      obtain ⟨alloc, halloc⟩ := List.exists_mem_of_ne_nil _ hne
      obtain ⟨entry, hentry, -⟩ := List.mem_map.mp halloc
      obtain ⟨hentry, hregion⟩ := List.mem_filter.mp hentry
      obtain ⟨planned, hplanned, rfl⟩ := List.mem_map.mp hentry
      obtain ⟨site, hlive, hsite⟩ := mem_of_mapM_eq_ok hsites hplanned
      obtain ⟨-, holders, -, hplace⟩ := planSite_eq_ok hsite
      rw [of_decide_eq_true hregion] at hplace
      rcases place_eq_ok hplace with ⟨s, heq, hchosen⟩ | ⟨points, heq, -⟩ | ⟨heq, -⟩
      · obtain rfl := Placement.region.inj heq
        obtain ⟨⟨decl, hdecl⟩, -⟩ := boundingRegion?_eq_some hvalid h hchosen
        exact (List.getElem?_eq_some_iff.mp hdecl).1
      · cases heq
      · cases heq
    unfold Facts.plan
    rw [hsites, ok_bind, localEscapes_eq h hf, ok_bind, foldl_placements hvalid h hsites]
    obtain ⟨deallocs, hdeallocs⟩ := planDeallocs_isOk h (hmembers _)
    dsimp only
    rw [hdeallocs, ok_bind]
    exact ⟨_, rfl⟩

end Accepted

end Tenure.Facts

import Tenure.Placement
import Tenure.Proofs.Facts

/-!
# What a plan says about a site

A plan is made site by site and entered into a table by the id of the allocation. An accepted
function evaluates no allocation twice, so the table has one entry for each reachable site and the
entry says where that site was placed (`Facts.placed`).
-/

namespace Tenure

/-! ## Entering into a table -/

theorem upsert_eq_append {α β : Type} [DecidableEq β] {key : α → β} {value : α} {table : List α}
    (h : key value ∉ table.map key) : upsert key value table = table ++ [value] := by
  induction table with
  | nil => rfl
  | cons x rest ih =>
    simp only [List.map_cons, List.mem_cons, not_or] at h
    rw [upsert, if_neg (Ne.symm h.1), ih h.2, List.cons_append]

theorem foldl_upsert {α β γ : Type} [DecidableEq β] {key : α → β} {entry : γ → α} {cs : List γ}
    {table : List α} (h : (table.map key ++ cs.map fun c => key (entry c)).Nodup) :
    cs.foldl (fun t c => upsert key (entry c) t) table = table ++ cs.map entry := by
  induction cs generalizing table with
  | nil => simp
  | cons c cs ih =>
    have hnew : key (entry c) ∉ table.map key := by
      intro hmem
      exact (List.nodup_append.mp h).2.2 _ hmem _ (by simp) rfl
    rw [List.foldl_cons, upsert_eq_append hnew, ih]
    · simp
    · simpa using h

/-- A table is made of what was entered. -/
theorem mem_of_mem_upsert {α β : Type} [DecidableEq β] {key : α → β} {value x : α} {table : List α}
    (h : x ∈ upsert key value table) : x = value ∨ x ∈ table := by
  induction table with
  | nil => exact Or.inl (List.mem_singleton.mp h)
  | cons y rest ih =>
    rw [upsert] at h
    split at h
    · exact (List.mem_cons.mp h).imp id (List.mem_cons_of_mem y)
    · rcases List.mem_cons.mp h with rfl | h
      · exact Or.inr List.mem_cons_self
      · exact (ih h).imp id (List.mem_cons_of_mem y)

theorem mem_of_mem_foldl_upsert {α β γ : Type} [DecidableEq β] {key : α → β} {entry : γ → α}
    {x : α} {cs : List γ} {table : List α}
    (h : x ∈ cs.foldl (fun t c => upsert key (entry c) t) table) :
    x ∈ table ∨ ∃ c ∈ cs, x = entry c := by
  induction cs generalizing table with
  | nil => exact Or.inl h
  | cons c cs ih =>
    rcases ih h with hmem | ⟨d, hd, rfl⟩
    · rcases mem_of_mem_upsert hmem with rfl | hmem
      · exact Or.inr ⟨c, List.mem_cons_self, rfl⟩
      · exact Or.inl hmem
    · exact Or.inr ⟨d, List.mem_cons_of_mem _ hd, rfl⟩

namespace Facts

variable {env : Environment} {f : Func} {facts : Facts} {config : Config} {plan : Plan}
  {site : AllocSite} {placement : Placement}

theorem isLocal_iff {b : BindingId} : facts.isLocal b = true ↔
    b < facts.func.bindings.length ∧ facts.isParam b = false := by
  unfold isLocal isParam
  cases hget : facts.func.bindings[b]? with
  | none => simp [List.getElem?_eq_none_iff.mp hget]
  | some decl => simp [(List.getElem?_eq_some_iff.mp hget).1]

theorem mem_liveSites (hf : f.Valid) (h : facts.Of env f) :
    site ∈ facts.liveSites ↔ site ∈ f.usage.allocations ∧ f.Reachable site.point := by
  obtain ⟨order, horder, ht⟩ := Func.reversePostorder_spec hf
  rw [liveSites, List.mem_filter, h.usage]
  refine and_congr_right fun hsite => ?_
  obtain ⟨step, hstep, -⟩ := Func.exists_site_of_allocation hf hsite
  rw [Solution.isReachable, List.contains_iff_mem, (h.solved.reachable_spec horder ht).2,
    ht.reachable_iff]
  exact ⟨fun hmem => ⟨hmem, Func.exists_step?_iff.mp ⟨step, hstep⟩⟩, And.left⟩

/-- How a plan is made. -/
theorem plan_eq_ok (h : facts.plan config = .ok plan) :
    ∃ sites, facts.liveSites.mapM (facts.planSite config) = .ok sites ∧
      plan.placements = sites.foldl (fun table entry => upsert Prod.fst entry.1 table) [] ∧
      facts.planDeallocs plan = .ok plan.deallocs := by
  simp only [Facts.plan, bind_eq_ok, pure_eq_ok] at h
  obtain ⟨sites, hsites, locals, -, deallocs, hdeallocs, rfl⟩ := h
  exact ⟨sites, hsites, rfl, hdeallocs⟩

theorem planSite_eq_ok {entry : (AllocId × Placement) × List (UseId × Violation)}
    (h : facts.planSite config site = .ok entry) :
    entry.1.1 = site.alloc ∧ ∃ holders, facts.holders site = .ok holders ∧
      facts.place config site holders = .ok entry.1.2 := by
  simp only [planSite, bind_eq_ok, pure_eq_ok] at h
  obtain ⟨holders, hholders, placement, hplace, rfl⟩ := h
  exact ⟨rfl, holders, hholders, hplace⟩

/-- A site is left to the region chosen for it, or freed by itself at its free points, or, where
there are none and some use hands it over, not freed at all. -/
theorem place_eq_ok {holders : Holders} (h : facts.place config site holders = .ok placement) :
    (∃ r, placement = .region r ∧ facts.boundingRegion? config site holders = .ok (some r)) ∨
    (∃ points, placement = .individual points ∧ facts.freePoints site holders = .ok points) ∨
    (placement = .transferred (facts.transfers holders) ∧
      facts.freePoints site holders = .ok []) := by
  unfold place at h
  dsimp only at h
  split at h
  next =>
    obtain ⟨chosen, hchosen, h⟩ := bind_eq_ok.mp h
    cases chosen with
    | none =>
      obtain ⟨points, hpoints, h⟩ := bind_eq_ok.mp h
      exact Or.inr (Or.inl ⟨points, (pure_eq_ok.mp h).symm, hpoints⟩)
    | some r => exact Or.inl ⟨r, (pure_eq_ok.mp h).symm, hchosen⟩
  next =>
    obtain ⟨points, hpoints, h⟩ := bind_eq_ok.mp h
    replace h := pure_eq_ok.mp h
    split at h
    next hempty =>
      obtain rfl := List.isEmpty_iff.mp hempty
      exact Or.inr (Or.inr ⟨h.symm, hpoints⟩)
    next => exact Or.inr (Or.inl ⟨points, h.symm, hpoints⟩)

/-- No two sites share an entry, so the entries stand as they were made. -/
theorem foldl_placements (hvalid : f.validate = .ok ()) (h : facts.Of env f)
    {sites : List ((AllocId × Placement) × List (UseId × Violation))}
    (hsites : facts.liveSites.mapM (facts.planSite config) = .ok sites) :
    sites.foldl (fun table entry => upsert Prod.fst entry.1 table) [] = sites.map Prod.fst := by
  have hids : sites.map (fun entry => entry.1.1) = facts.liveSites.map AllocSite.alloc := by
    rw [mapM_eq_ok] at hsites
    refine List.forall₂_eq_eq_eq ▸ ?_
    rw [List.forall₂_map_left_iff, List.forall₂_map_right_iff]
    exact (hsites.imp fun site entry hentry => (planSite_eq_ok hentry).1).flip
  have hlive : (facts.liveSites.map AllocSite.alloc).Nodup := by
    refine List.Nodup.sublist (List.filter_sublist.map _) ?_
    rw [h.usage]
    exact Func.allocations_nodup hvalid
  rw [foldl_upsert (by rw [List.map_nil, List.nil_append, hids]; exact hlive), List.nil_append]

/-- The entry of a site says where it was placed; sites that control cannot reach have none. -/
theorem placed (hvalid : f.validate = .ok ()) (h : facts.Of env f)
    (hplan : facts.plan config = .ok plan) (hsite : site ∈ f.usage.allocations)
    (hmem : (site.alloc, placement) ∈ plan.placements) :
    f.Reachable site.point ∧ ∃ holders, facts.holders site = .ok holders ∧
      facts.place config site holders = .ok placement := by
  have hf := Func.valid_of_validate hvalid
  obtain ⟨sites, hsites, hplacements, -⟩ := plan_eq_ok hplan
  rw [hplacements, foldl_placements hvalid h hsites] at hmem
  obtain ⟨entry, hentry, heq⟩ := List.mem_map.mp hmem
  obtain ⟨other, hother, hplanned⟩ := mem_of_mapM_eq_ok hsites hentry
  obtain ⟨halloc, hplace⟩ := planSite_eq_ok hplanned
  rw [heq] at halloc hplace
  obtain ⟨hmem, hreach⟩ := (mem_liveSites hf h).mp hother
  obtain rfl := List.inj_on_of_nodup_map (Func.allocations_nodup hvalid) hsite hmem halloc
  exact ⟨hreach, hplace⟩

/-- A plan has the placements of the reachable sites as its entries. -/
theorem mem_placements_iff (hvalid : f.validate = .ok ()) (h : facts.Of env f)
    (hplan : facts.plan config = .ok plan) (hsite : site ∈ f.usage.allocations)
    (hreach : f.Reachable site.point) {holders : Holders}
    (hholders : facts.holders site = .ok holders) :
    (site.alloc, placement) ∈ plan.placements ↔
      facts.place config site holders = .ok placement := by
  constructor
  · intro hmem
    obtain ⟨-, holders', hholders', hplace⟩ := placed hvalid h hplan hsite hmem
    obtain rfl := Except.ok.inj (hholders.symm.trans hholders')
    exact hplace
  · intro hplace
    have hlive := (mem_liveSites (Func.valid_of_validate hvalid) h).mpr ⟨hsite, hreach⟩
    obtain ⟨sites, hsites, hplacements, -⟩ := plan_eq_ok hplan
    obtain ⟨entry, hentry, hplanned⟩ := isOk_of_mapM_eq_ok hsites hlive
    rw [hplacements, foldl_placements hvalid h hsites]
    refine List.mem_map.mpr ⟨entry, hentry, ?_⟩
    simp only [planSite, hholders, ok_bind, hplace, pure_eq_ok] at hplanned
    rw [← hplanned]

end Facts

end Tenure

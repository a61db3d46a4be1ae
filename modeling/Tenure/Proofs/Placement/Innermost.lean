import Tenure.Proofs.Ir.WellFormed
import Tenure.Proofs.Placement.Planned
import Tenure.Proofs.Placement.Rest

/-!
# The innermost acceptable region

An allocation that is never handed over goes to a region if one is acceptable: it lies around the
allocation and around the declarations of all holders, it is an arena unless control can never come
back to the allocation inside it, and it is not the body unless the settings allow that. The choice
looks for the innermost region that covers the declarations and then, if control can come back, for
the next arena around it. Since control that comes back inside a region comes back inside every
region around that one too, this is the innermost acceptable region (`boundingRegion?_innermost`).

Without an acceptable region the allocation is freed by itself. Whether this has a result is up to
the analysis of single frees, which may never come to rest (`placed_in_innermost`).
-/

namespace Tenure

open Relation

namespace Func

variable {f : Func} {r s : RegionId} {b : BlockId}

/-- The block is in the region, and control can come to it. -/
def LiveInside (f : Func) (r : RegionId) (b : BlockId) : Prop := f.Inside r b ∧ f.Reachable ⟨b, 0⟩

/-- Some cycle of reachable blocks inside the region leads over the block. -/
def ComesBack (f : Func) (r : RegionId) (b : BlockId) : Prop :=
  TransGen (fun c d => Graph.Edge f.successors c d ∧ f.LiveInside r c ∧ f.LiveInside r d) b b

theorem ComesBack.mono (h : f.ComesBack r b) (hrs : f.Nested r s) : f.ComesBack s b := by
  have hinside : ∀ {c}, f.LiveInside r c → f.LiveInside s c := by
    rintro c ⟨⟨block, hblock, hnested⟩, hreach⟩
    exact ⟨⟨block, hblock, hnested.trans hrs⟩, hreach⟩
  exact TransGen.mono (fun _ _ hstep => ⟨hstep.1, hinside hstep.2.1, hinside hstep.2.2⟩) _ _ h

/-- From a block in some scope, edges into the scope stay between blocks of the scope. -/
theorem onCycle_iff_transGen (hf : f.Valid) {scope : List BlockId} (hb : b ∈ scope) :
    f.onCycle scope b = true ↔
      TransGen (fun c d => Graph.Edge f.successors c d ∧ c ∈ scope ∧ d ∈ scope) b b := by
  have hedge : ∀ {c d}, Graph.Edge (fun c => (f.successors c).filter scope.contains) c d ↔
      Graph.Edge f.successors c d ∧ d ∈ scope := by
    simp [Graph.Edge]
  rw [onCycle_iff hf]
  constructor
  · intro h
    suffices hwalk : ∀ {d},
        TransGen (Graph.Edge fun c => (f.successors c).filter scope.contains) b d →
        TransGen (fun c d => Graph.Edge f.successors c d ∧ c ∈ scope ∧ d ∈ scope) b d ∧
          d ∈ scope from (hwalk h).1
    intro d hd
    induction hd with
    | single hstep =>
      obtain ⟨hstep, hscope⟩ := hedge.mp hstep
      exact ⟨.single ⟨hstep, hb, hscope⟩, hscope⟩
    | tail _ hstep ih =>
      obtain ⟨hstep, hscope⟩ := hedge.mp hstep
      exact ⟨ih.1.tail ⟨hstep, ih.2, hscope⟩, hscope⟩
  · exact TransGen.mono (fun _ _ hstep => hedge.mpr ⟨hstep.1, hstep.2.2⟩) _ _

/-- Looking for a cycle among the reachable blocks of a region finds whether control comes back. -/
theorem onCycle_iff_comesBack (hf : f.Valid) {reachable : List BlockId}
    (hreachable : ∀ c, c ∈ reachable ↔ f.Reachable ⟨c, 0⟩) (hb : f.LiveInside r b) :
    f.onCycle ((f.blocksIn r).filter reachable.contains) b = true ↔ f.ComesBack r b := by
  have hscope : ∀ c, c ∈ (f.blocksIn r).filter reachable.contains ↔ f.LiveInside r c := by
    simp [mem_blocksIn hf, hreachable, LiveInside]
  rw [onCycle_iff_transGen hf ((hscope b).mpr hb)]
  simp only [hscope]
  rfl

/-- In an accepted function the regions of the body kind are the body alone. -/
theorem kind_eq_body_iff (hvalid : f.validate = .ok ()) {decl : Region}
    (hdecl : f.regions[r]? = some decl) : decl.kind = .body ↔ r = bodyRegion := by
  have hwell := validate_eq_ok_iff.mp hvalid
  constructor
  · exact hwell.body_unique r decl hdecl
  · rintro rfl
    obtain ⟨body, hbody, hkind, -⟩ := hwell.body
    rwa [Option.some.inj (hdecl.symm.trans hbody)]

end Func

namespace Facts

variable {env : Environment} {f : Func} {facts : Facts} {config : Config} {site : AllocSite}
  {holders : Holders} {r s : RegionId}

/-- The region lies around the allocation and around the declarations of all its holders. -/
structure Covers (facts : Facts) (site : AllocSite) (holders : Holders) (r : RegionId) : Prop where
  around : facts.func.Inside r site.point.block
  declared : ∀ b ∈ holders.all, ∃ decl, facts.func.bindings[b]? = some decl ∧
    facts.func.Nested decl.region r

/-- The region may free the allocation in bulk. -/
structure Acceptable (facts : Facts) (config : Config) (site : AllocSite) (holders : Holders)
    (r : RegionId) : Prop extends facts.Covers site holders r where
  once : facts.func.IsArena r ∨ ¬ facts.func.ComesBack r site.point.block
  usable : r ≠ Func.bodyRegion ∨ config.implicitFunctionRegion = true

/-- The region is acceptable and lies inside all that are. -/
structure Innermost (facts : Facts) (config : Config) (site : AllocSite) (holders : Holders)
    (r : RegionId) : Prop where
  acceptable : facts.Acceptable config site holders r
  least : ∀ s, facts.Acceptable config site holders s → facts.func.Nested r s

/-- No reachable use of an owner hands the value over. -/
def NeverHandedOver (facts : Facts) (holders : Holders) : Prop :=
  ∀ u ∈ facts.solution.uses, facts.func.Reachable u.point → u.binding ∈ holders.owners →
    facts.isTransfer u = false

theorem Covers.mono (hr : facts.Covers site holders r) (hrs : facts.func.Nested r s) :
    facts.Covers site holders s := by
  obtain ⟨block, hblock, hnested⟩ := hr.around
  refine ⟨⟨block, hblock, hnested.trans hrs⟩, fun b hb => ?_⟩
  obtain ⟨decl, hdecl, hnested⟩ := hr.declared b hb
  exact ⟨decl, hdecl, hnested.trans hrs⟩

/-! ## The choice -/

section Chosen

variable (hvalid : f.validate = .ok ()) (h : facts.Of env f)
include hvalid h

omit hvalid in
/-- The regions that cover the holders, in terms of the regions that the choice looks at. -/
theorem covers_iff {block : Block} {declared : List RegionId}
    (hblock : f.blocks[site.point.block]? = some block)
    (hdeclared : (holders.all.mapM fun b => do return (← f.binding b).region) = .ok declared) :
    facts.Covers site holders s ↔ f.Nested block.region s ∧ ∀ d ∈ declared, f.Nested d s := by
  obtain rfl := h.func
  have hregion : ∀ {b d}, (do return (← facts.func.binding b).region) = (.ok d : Except Fault _) ↔
      ∃ decl, facts.func.bindings[b]? = some decl ∧ decl.region = d := by
    simp only [bind_eq_ok, pure_eq_ok, Func.binding, lookup_eq_ok, implies_true]
  constructor
  · intro hs
    obtain ⟨block', hblock', hnested⟩ := hs.around
    obtain rfl := Option.some.inj (hblock.symm.trans hblock')
    refine ⟨hnested, fun d hd => ?_⟩
    obtain ⟨b, hb, hget⟩ := mem_of_mapM_eq_ok hdeclared hd
    obtain ⟨decl, hdecl, rfl⟩ := hregion.mp hget
    obtain ⟨decl', hdecl', hnested⟩ := hs.declared b hb
    rwa [Option.some.inj (hdecl.symm.trans hdecl')]
  · rintro ⟨hnested, hall⟩
    refine ⟨⟨block, hblock, hnested⟩, fun b hb => ?_⟩
    obtain ⟨d, hd, hget⟩ := isOk_of_mapM_eq_ok hdeclared hb
    obtain ⟨decl, hdecl, rfl⟩ := hregion.mp hget
    exact ⟨decl, hdecl, hall _ hd⟩

/-- The covering region is the innermost one around the site that covers what is declared. -/
theorem coveringRegion_spec {declared : List RegionId} (hr : r < f.regions.length)
    (hdeclared : ∀ d ∈ declared, d < f.regions.length) :
    (f.Nested r (facts.coveringRegion r declared) ∧
      ∀ d ∈ declared, f.Nested d (facts.coveringRegion r declared)) ∧
      ∀ s, (f.Nested r s ∧ ∀ d ∈ declared, f.Nested d s) →
        f.Nested (facts.coveringRegion r declared) s := by
  obtain rfl := h.func
  have hcovers : ∀ s, (declared.all fun d => facts.func.regionWithin d s) = true ↔
      ∀ d ∈ declared, facts.func.Nested d s := by
    simp [Func.regionWithin_iff]
  cases hfind : (facts.func.regionAncestors r).find? fun s =>
      declared.all fun d => facts.func.regionWithin d s with
  | none =>
    -- the body is around the site and covers everything
    have hbody := List.find?_eq_none.mp hfind _
      (Func.mem_regionAncestors.mpr (Func.nested_body hvalid hr))
    exact absurd ((hcovers _).mpr fun d hd => Func.nested_body hvalid (hdeclared d hd)) hbody
  | some covering =>
    have hchosen : facts.coveringRegion r declared = covering := by rw [coveringRegion, hfind]; rfl
    have hfound := List.find?_some hfind
    rw [hchosen]
    refine ⟨⟨Func.mem_regionAncestors.mp (List.mem_of_find?_eq_some hfind),
      (hcovers covering).mp hfound⟩, fun s ⟨hs, hd⟩ => ?_⟩
    exact Table.rel_of_find? (fun _ => .refl) (facts.func.regionAncestors_pairwise r) hfind
      (Func.mem_regionAncestors.mpr hs) ((hcovers s).mpr hd)

omit h in
/-- The last step of the choice keeps the body only if the settings allow that. -/
theorem usable_eq (config : Config) (hr : r < f.regions.length) :
    (f.region r >>= fun decl =>
      pure (if decl.kind ≠ .body || config.implicitFunctionRegion then some r else none)) =
        (.ok (if r ≠ Func.bodyRegion || config.implicitFunctionRegion then some r else none) :
          Except Fault (Option RegionId)) := by
  have hdecl := List.getElem?_eq_getElem hr
  have hget : f.region r = .ok _ := lookup_eq_ok.mpr hdecl
  rw [hget, ok_bind]
  simp only [ne_eq, Func.kind_eq_body_iff hvalid hdecl]
  rfl

/-- Control does not come back in the covering region, so this is the region to take, if it may be
taken. A region around the body is the body. -/
theorem innermost_covering (config : Config) (hlt : r < f.regions.length)
    (hcovers : facts.Covers site holders r)
    (hleast : ∀ s, facts.Covers site holders s → f.Nested r s)
    (honce : ¬ f.ComesBack r site.point.block) :
    (r ≠ Func.bodyRegion ∨ config.implicitFunctionRegion = true →
      facts.Innermost config site holders r) ∧
    (¬ (r ≠ Func.bodyRegion ∨ config.implicitFunctionRegion = true) →
      ∀ s, ¬ facts.Acceptable config site holders s) := by
  obtain rfl := h.func
  refine ⟨fun husable => ?_, fun hnot s hs => ?_⟩
  · exact ⟨⟨hcovers, .inr honce, husable⟩, fun s hs => hleast s hs.toCovers⟩
  · push Not at hnot
    obtain ⟨rfl, hoff⟩ := hnot
    have hnested := hleast s hs.toCovers
    have hbody : s = Func.bodyRegion := (Func.nested_antisymm hvalid hlt hnested
      (Func.nested_body hvalid (Func.lt_of_nested hvalid hlt hnested))).symm
    exact hs.usable.elim (· hbody) hoff

/-- Control comes back in the covering region and so in every region that covers the holders. Only
the arenas among these are acceptable. -/
theorem innermost_arena (config : Config) (hcovers : facts.Covers site holders r)
    (hleast : ∀ s, facts.Covers site holders s → f.Nested r s)
    (hback : f.ComesBack r site.point.block) :
    (∀ s, (f.regionAncestors r).find? (fun s => f.regions[s]?.any (·.kind = .arena)) = some s →
      facts.Innermost config site holders s) ∧
    ((f.regionAncestors r).find? (fun s => f.regions[s]?.any (·.kind = .arena)) = none →
      ∀ s, ¬ facts.Acceptable config site holders s) := by
  obtain rfl := h.func
  have harena : ∀ s, (facts.func.regions[s]?.any (·.kind = .arena)) = true ↔
      facts.func.IsArena s := by
    simp [Func.IsArena, Option.any_eq_true]
  have hall : ∀ s, facts.Acceptable config site holders s →
      s ∈ facts.func.regionAncestors r ∧ facts.func.IsArena s := by
    intro s hs
    have hnested := hleast s hs.toCovers
    exact ⟨Func.mem_regionAncestors.mpr hnested,
      hs.once.resolve_right (not_not.mpr (hback.mono hnested))⟩
  refine ⟨fun s hfind => ?_, fun hfind s hs => ?_⟩
  · have hfound := List.find?_some hfind
    have hs := (harena s).mp hfound
    have hnested := Func.mem_regionAncestors.mp (List.mem_of_find?_eq_some hfind)
    have hbody : s ≠ Func.bodyRegion := by
      obtain ⟨decl, hdecl, hkind⟩ := hs
      intro heq
      cases hkind.symm.trans ((Func.kind_eq_body_iff hvalid hdecl).mpr heq)
    refine ⟨⟨hcovers.mono hnested, .inl hs, .inl hbody⟩, fun t ht => ?_⟩
    exact Table.rel_of_find? (fun _ => .refl) (facts.func.regionAncestors_pairwise r) hfind
      (hall t ht).1 ((harena t).mpr (hall t ht).2)
  · exact List.find?_eq_none.mp hfind s (hall s hs).1 ((harena s).mpr (hall s hs).2)

/-- The choice of a region has a result. It is the innermost acceptable region, or there is no
acceptable one. -/
theorem boundingRegion?_innermost (config : Config) (hsite : site ∈ f.usage.allocations)
    (hreach : f.Reachable site.point) (hholders : facts.holders site = .ok holders) :
    ∃ chosen, facts.boundingRegion? config site holders = .ok chosen ∧
      (∀ r, chosen = some r → facts.Innermost config site holders r) ∧
      (chosen = none → ∀ s, ¬ facts.Acceptable config site holders s) := by
  have hf := Func.valid_of_validate hvalid
  obtain ⟨chosen, hchosen⟩ := boundingRegion?_isOk hvalid h config hsite hholders
  refine ⟨chosen, hchosen, ?_⟩
  simp only [boundingRegion?, h.func] at hchosen
  obtain ⟨block, hblock, hchosen⟩ := bind_eq_ok.mp hchosen
  obtain ⟨declared, hdeclared, hchosen⟩ := bind_eq_ok.mp hchosen
  replace hblock := lookup_eq_ok.mp hblock
  have hwell := Func.validate_eq_ok_iff.mp hvalid
  have hregion := (hwell.block_inRange block (List.mem_of_getElem? hblock)).region_lt
  have hregions : ∀ d ∈ declared, d < f.regions.length := by
    intro d hd
    obtain ⟨b, -, hget⟩ := mem_of_mapM_eq_ok hdeclared hd
    simp only [bind_eq_ok, pure_eq_ok, Func.binding, lookup_eq_ok] at hget
    obtain ⟨decl, hdecl, rfl⟩ := hget
    exact hwell.binding_region_lt decl (List.mem_of_getElem? hdecl)
  obtain ⟨hcovering, hleast⟩ := coveringRegion_spec hvalid h hregion hregions
  have hlt := Func.lt_of_nested hvalid hregion hcovering.1
  simp only [← covers_iff h hblock hdeclared] at hcovering hleast
  generalize facts.coveringRegion block.region declared = covering at hchosen hcovering hleast hlt
  have hcycle : f.onCycle ((f.blocksIn covering).filter facts.solution.reachable.contains)
      site.point.block = true ↔ f.ComesBack covering site.point.block := by
    obtain ⟨order, horder, ht⟩ := Func.reversePostorder_spec hf
    refine Func.onCycle_iff_comesBack hf (fun c => h.solved.mem_reachable_iff hf)
      ⟨h.func ▸ hcovering.around, ?_⟩
    exact ht.reachable_start (ht.reachable_iff.mp hreach).1
  split at hchosen
  next hback =>
    obtain ⟨hsome, hnone⟩ := innermost_arena hvalid h config hcovering hleast
      (hcycle.mp hback)
    have hancestor : ∀ s ∈ f.regionAncestors covering, s < f.regions.length := fun s hs =>
      Func.lt_of_nested hvalid hlt (Func.mem_regionAncestors.mp hs)
    rw [firstArena?_eq hancestor, ok_bind] at hchosen
    cases hfind : (f.regionAncestors covering).find?
        fun s => f.regions[s]?.any fun decl => decl.kind = .arena with
    | none =>
      rw [hfind] at hchosen
      obtain rfl := pure_eq_ok.mp hchosen
      exact ⟨by simp, fun _ => hnone hfind⟩
    | some s =>
      have hs := hsome s hfind
      simp only [hfind, usable_eq hvalid config (hancestor s (List.mem_of_find?_eq_some hfind))]
        at hchosen
      have husable := hs.acceptable.usable
      rw [if_pos (by simpa using husable)] at hchosen
      obtain rfl := Except.ok.inj hchosen
      exact ⟨fun r hr => Option.some.inj hr ▸ hs, by simp⟩
  next hback =>
    obtain ⟨hsome, hnone⟩ := innermost_covering hvalid h config hlt hcovering hleast
      (mt hcycle.mpr hback)
    rw [ok_bind] at hchosen
    simp only [usable_eq hvalid config hlt] at hchosen
    obtain rfl := Except.ok.inj hchosen
    by_cases husable : covering ≠ Func.bodyRegion ∨ config.implicitFunctionRegion = true
    · rw [if_pos (by simpa using husable)]
      exact ⟨fun r hr => Option.some.inj hr ▸ hsome husable, by simp⟩
    · rw [if_neg (by simpa using husable)]
      exact ⟨by simp, fun _ => hnone husable⟩

theorem innermost_iff (config : Config) (hsite : site ∈ f.usage.allocations)
    (hreach : f.Reachable site.point) (hholders : facts.holders site = .ok holders) :
    facts.Innermost config site holders r ↔
      facts.boundingRegion? config site holders = .ok (some r) := by
  obtain ⟨chosen, hchosen, hsome, hnone⟩ :=
    boundingRegion?_innermost hvalid h config hsite hreach hholders
  rw [hchosen, Except.ok.injEq]
  constructor
  · intro hr
    cases chosen with
    | none => exact absurd hr.acceptable (hnone rfl r)
    | some s =>
      have hs := hsome s rfl
      obtain ⟨block, hblock, hnested⟩ := hr.acceptable.around
      have hlt : r < f.regions.length := by
        rw [h.func] at hblock hnested
        have hregion := (Func.validate_eq_ok_iff.mp hvalid).block_inRange block
          (List.mem_of_getElem? hblock)
        exact Func.lt_of_nested hvalid hregion.region_lt hnested
      rw [Func.nested_antisymm hvalid hlt (h.func ▸ hr.least s hs.acceptable)
        (h.func ▸ hs.least r hr.acceptable)]
  · exact hsome r

theorem exists_innermost_iff (config : Config) (hsite : site ∈ f.usage.allocations)
    (hreach : f.Reachable site.point) (hholders : facts.holders site = .ok holders) :
    (∃ r, facts.Acceptable config site holders r) ↔ ∃ r, facts.Innermost config site holders r := by
  obtain ⟨chosen, -, hsome, hnone⟩ :=
    boundingRegion?_innermost hvalid h config hsite hreach hholders
  refine ⟨fun ⟨r, hr⟩ => ?_, fun ⟨r, hr⟩ => ⟨r, hr.acceptable⟩⟩
  cases chosen with
  | none => exact absurd hr (hnone rfl r)
  | some s => exact ⟨s, hsome s rfl⟩

/-! ## Placements -/

omit hvalid in
theorem neverHandedOver_iff (hf : f.Valid) :
    facts.NeverHandedOver holders ↔ facts.transfers holders = [] := by
  simp only [transfers, List.map_eq_nil_iff, List.filter_eq_nil_iff, h.solved.mem_liveUses hf,
    Bool.and_eq_true, List.contains_iff_mem, not_and, Bool.not_eq_true, and_imp, NeverHandedOver,
    h.func]

/-- Without a hand-over the region is taken if there is one. Otherwise the free points decide. -/
theorem place_neverHandedOver (config : Config) (hsite : site ∈ f.usage.allocations)
    (hreach : f.Reachable site.point) (hholders : facts.holders site = .ok holders)
    (hnever : facts.NeverHandedOver holders) :
    (∀ r, facts.place config site holders = .ok (.region r) ↔
      facts.Innermost config site holders r) ∧
    ∀ points, facts.place config site holders = .ok (.individual points) ↔
      (¬ ∃ r, facts.Acceptable config site holders r) ∧
        facts.freePoints site holders = .ok points := by
  have htransfers := (neverHandedOver_iff h (Func.valid_of_validate hvalid)).mp hnever
  rw [exists_innermost_iff hvalid h config hsite hreach hholders]
  simp only [innermost_iff hvalid h config hsite hreach hholders]
  obtain ⟨chosen, hchosen, -⟩ := boundingRegion?_innermost hvalid h config hsite hreach hholders
  rw [place, htransfers, hchosen]
  cases chosen with
  | none =>
    simp only [List.isEmpty_nil, if_true, ok_bind, bind_eq_ok, pure_eq_ok]
    simp
  | some s =>
    simp only [List.isEmpty_nil, if_true, ok_bind, pure_eq_ok]
    simp

end Chosen

/-- Take a reachable allocation of an accepted function, of which no reachable use of an owner hands
the value over. If some region is acceptable, one is the innermost, and the allocation is placed
there. If none is, the allocation is freed by itself, once the analysis of single frees has come to
rest. If that never happens for some allocation, the function has no plan. -/
theorem placed_in_innermost (env : Environment) (f : Func) (config : Config)
    (hvalid : env.program.validateFunction f = .ok ()) :
    ∃ facts, env.facts f = .ok facts ∧
      ((∃ plan, facts.plan config = .ok plan) ↔
        ∀ site ∈ f.usage.allocations, f.Reachable site.point → ∀ holders,
          facts.holders site = .ok holders →
            facts.NeverHandedOver holders ∧ (∃ r, facts.Acceptable config site holders r) ∨
              facts.ComesToRest site holders) ∧
      ∀ site ∈ f.usage.allocations, f.Reachable site.point →
        ∃ holders, facts.holders site = .ok holders ∧ (facts.NeverHandedOver holders →
          ((∃ r, facts.Acceptable config site holders r) →
            ∃! r, facts.Innermost config site holders r) ∧
          (∀ r, facts.place config site holders = .ok (.region r) ↔
            facts.Innermost config site holders r) ∧
          ((∃ points, facts.place config site holders = .ok (.individual points)) ↔
            (¬ ∃ r, facts.Acceptable config site holders r) ∧ facts.ComesToRest site holders) ∧
          ∀ plan, facts.plan config = .ok plan →
            (∀ r, (site.alloc, .region r) ∈ plan.placements ↔
              facts.Innermost config site holders r) ∧
            ((∃ points, (site.alloc, .individual points) ∈ plan.placements) ↔
              ¬ ∃ r, facts.Acceptable config site holders r)) := by
  obtain ⟨hvalid', facts, hfacts, h⟩ := env.facts_of_validateFunction hvalid
  have hf := Func.valid_of_validate hvalid'
  obtain ⟨order, horder, -⟩ := Func.reversePostorder_spec hf
  have hleft : ∀ site ∈ f.usage.allocations, f.Reachable site.point → ∀ holders,
      facts.holders site = .ok holders → (facts.LeftToRegion config site holders ↔
        facts.NeverHandedOver holders ∧ ∃ r, facts.Acceptable config site holders r) := by
    intro site hsite hreach holders hholders
    rw [neverHandedOver_iff h hf, exists_innermost_iff hvalid' h config hsite hreach hholders]
    simp only [innermost_iff hvalid' h config hsite hreach hholders]
    rfl
  have hplanned := plan_isOk_iff hvalid' h config
  refine ⟨facts, hfacts, ?_, fun site hsite hreach => ?_⟩
  · rw [hplanned]
    refine forall₂_congr fun site hsite => forall_congr' fun hreach => forall₂_congr ?_
    exact fun holders hholders => or_congr_left (hleft site hsite hreach holders hholders)
  obtain ⟨holders, hholders⟩ := holders_isOk hf h site
  refine ⟨holders, hholders, fun hnever => ?_⟩
  obtain ⟨hregion, hindividual⟩ :=
    place_neverHandedOver hvalid' h config hsite hreach hholders hnever
  have hrest : (∃ points, facts.freePoints site holders = .ok points) ↔
      facts.ComesToRest site holders :=
    freePoints_isOk_iff.trans (heldExits_isOk_iff h horder)
  refine ⟨fun hsome => ?_, hregion, ?_, fun plan hplan => ⟨fun r => ?_, ?_⟩⟩
  · obtain ⟨r, hr⟩ := (exists_innermost_iff hvalid' h config hsite hreach hholders).mp hsome
    refine ⟨r, hr, fun s hs => ?_⟩
    rw [innermost_iff hvalid' h config hsite hreach hholders] at hr hs
    exact Option.some.inj (Except.ok.inj (hs.symm.trans hr))
  · simp only [hindividual, exists_and_left, hrest]
  · rw [mem_placements_iff hvalid' h hplan hsite hreach hholders, hregion]
  · simp only [mem_placements_iff hvalid' h hplan hsite hreach hholders, hindividual,
      exists_and_left, hrest]
    -- with a plan, what is not left to a region has come to rest
    refine and_iff_left_of_imp fun hnone => ?_
    refine (hplanned.mp ⟨plan, hplan⟩ site hsite hreach holders hholders).resolve_left ?_
    intro hmay
    exact hnone ((hleft site hsite hreach holders hholders).mp hmay).2

/-- As `crossedLoops`, but nothing hands the value over. -/
def keptInLoops : Func :=
  { crossedLoops with
    blocks := crossedLoops.blocks.set 5
      ⟨5, 0, [crossedLoops.define ⟨24, 25⟩], some ⟨.goto 6, ⟨29, 30⟩⟩⟩ }

/-- The settings in which the body frees nothing. -/
def bodyUnused : Config := { Config.default with implicitFunctionRegion := false }

/-- No check finds a fault in the function. If the body may free the value, it does. If it may not,
no region is acceptable, the analysis of single frees never comes to rest, and there is no plan. -/
theorem keptInLoops_without_plan :
    refreshingEnv.program.validateFunction keptInLoops = .ok () ∧
    ∃ facts holders, refreshingEnv.facts keptInLoops = .ok facts ∧
      facts.solution.conflicts = [] ∧ Linearity.violations facts = .ok [] ∧
      Exclusivity.violations facts = .ok [] ∧
      facts.holders ⟨0, some 1, ⟨0, 1⟩, ⟨4, 5⟩⟩ = .ok holders ∧ facts.NeverHandedOver holders ∧
      facts.Innermost .default ⟨0, some 1, ⟨0, 1⟩, ⟨4, 5⟩⟩ holders Func.bodyRegion ∧
      (¬ ∃ r, facts.Acceptable bodyUnused ⟨0, some 1, ⟨0, 1⟩, ⟨4, 5⟩⟩ holders r) ∧
      ¬ ∃ plan, facts.plan bodyUnused = .ok plan := by
  let site : AllocSite := ⟨0, some 1, ⟨0, 1⟩, ⟨4, 5⟩⟩
  have hvalid : refreshingEnv.program.validateFunction keptInLoops = .ok () := by decide +kernel
  have hsweeps : laterSweeps refreshingEnv keptInLoops site =
      .ok (heldAtEnds [0, 6], heldAtEnds [0, 4, 8], heldAtEnds [0, 6]) := by decide +kernel
  have hclean : (refreshingEnv.facts keptInLoops >>= fun facts =>
      pure (facts.solution.conflicts, Linearity.violations facts, Exclusivity.violations facts)) =
        .ok ([], .ok [], .ok []) := by decide +kernel
  have hplaced : (refreshingEnv.facts keptInLoops >>= fun facts => facts.holders site >>=
      fun holders => pure (facts.transfers holders, facts.place .default site holders)) =
        .ok ([], .ok (.region Func.bodyRegion)) := by decide +kernel
  have hreach : keptInLoops.Reachable site.point :=
    Relation.ReflTransGen.single (Func.Next.within (i := 0) rfl (by decide))
  obtain ⟨facts, hfacts, -, hdefault⟩ :=
    placed_in_innermost refreshingEnv keptInLoops .default hvalid
  obtain ⟨facts', hfacts', hplanned, -⟩ :=
    placed_in_innermost refreshingEnv keptInLoops bodyUnused hvalid
  obtain rfl := Except.ok.inj (hfacts.symm.trans hfacts')
  have h := Environment.of_facts hfacts
  obtain ⟨holders, hholders, hinnermost⟩ := hdefault site (by decide) hreach
  rw [hfacts, ok_bind] at hclean hplaced
  rw [pure_eq_ok, Prod.mk.injEq, Prod.mk.injEq] at hclean
  rw [hholders, ok_bind, pure_eq_ok, Prod.mk.injEq] at hplaced
  obtain ⟨hconflicts, hlinear, hexclusive⟩ := hclean
  obtain ⟨htransfers, hplace⟩ := hplaced
  have hnever : facts.NeverHandedOver holders :=
    (neverHandedOver_iff h (Program.valid_of_validateFunction hvalid)).mpr htransfers
  have hnone : ¬ ∃ r, facts.Acceptable bodyUnused site holders r := by
    rintro ⟨r, hr⟩
    -- the site is in the body itself, and there is no region around the body
    obtain ⟨block, hblock, hnested⟩ := hr.around
    rw [h.func] at hblock hnested
    obtain rfl := Option.some.inj hblock
    have hbody : r = Func.bodyRegion := by
      rcases hnested.cases_head with rfl | ⟨s, hparent, -⟩
      · rfl
      · cases hparent
    exact hr.usable.elim (· hbody) (by decide)
  have hwanders : ¬ facts.ComesToRest site holders :=
    not_comesToRest_of_laterSweeps hsweeps (by decide) hfacts hholders
  refine ⟨hvalid, facts, holders, hfacts, hconflicts, hlinear, hexclusive, hholders, hnever,
    ((hinnermost hnever).2.1 _).mp hplace, hnone, fun hplan => ?_⟩
  obtain ⟨-, hregion⟩ | hrest := hplanned.mp hplan site (by decide) hreach holders hholders
  · exact hnone hregion
  · exact hwanders hrest

end Facts

end Tenure

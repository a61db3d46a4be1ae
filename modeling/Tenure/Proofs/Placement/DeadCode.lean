import Tenure.Proofs.Facts.DeadCode
import Tenure.Proofs.Forward.Correspondence
import Tenure.Proofs.Placement.Planned

/-!
# Plans without dead code

The planner looks at flows, uses and exits in live code only. The search for holders goes as deep as
there are uses, dead ones included, but a search that is deep enough finds no more by going deeper.
The analysis of single frees corresponds to that of the pruned function. So the plan of a function
is that of its pruned form, but for the numbers of the uses that hand a value over (`plan_eq`).
-/

namespace Tenure

/-- The placement with the uses it names under their new numbers. -/
def Placement.renumber (r : Renumbering) : Placement → Placement
  | transferred uses => transferred (uses.map r.use)
  | other => other

/-- The plan with the uses it names under their new numbers. -/
def Plan.renumber (r : Renumbering) (plan : Plan) : Plan :=
  { plan with placements := plan.placements.map (Prod.map id (Placement.renumber r)) }

/-- A planned site under new numbers. -/
def renumberEntry (r : Renumbering) (entry : (AllocId × Placement) × List (UseId × Violation)) :
    (AllocId × Placement) × List (UseId × Violation) :=
  ((entry.1.1, entry.1.2.renumber r), entry.2.map (Prod.map r.use id))

theorem BindingSet.union_empty (s : BindingSet) (width : Nat) : s.union (.empty width) = s := by
  simp only [union, contains_empty, Bool.or_false, List.zipIdx_map_fst]

namespace Facts.PrunedTo

variable {env : Environment} {facts core : Facts} {r : Renumbering} {site : AllocSite}
  {holders : Holders} {p : Point} (h : facts.PrunedTo r core)
include h

theorem bindings_eq : core.func.bindings = facts.func.bindings := by
  rw [h.func]
  rfl

theorem regions_eq : core.func.regions = facts.func.regions := by
  rw [h.func]
  rfl

/-! ## Holders -/

theorem isLocal_eq : core.isLocal = facts.isLocal := by
  funext b
  rw [isLocal, isLocal, h.bindings_eq]

theorem isParam_eq : core.isParam = facts.isParam := by
  funext b
  rw [isParam, isParam, h.bindings_eq]

theorem liveFlows_eq : core.liveFlows = facts.liveFlows := by
  rw [liveFlows, liveFlows, h.liveUses_eq, List.filterMap_map]
  rfl

theorem flowTargets_eq : core.flowTargets = facts.flowTargets := by
  funext b
  simp only [flowTargets, h.liveFlows_eq, h.isLocal_eq]

theorem ownerTargets_eq : core.ownerTargets = facts.ownerTargets := by
  funext b
  simp only [ownerTargets, h.liveFlows_eq, h.isLocal_eq]

theorem flowDepth_le : core.flowDepth ≤ facts.flowDepth := by
  have hlen : core.solution.uses.length = facts.solution.liveUses.length := by
    rw [h.uses, List.length_map]
  rw [flowDepth, flowDepth, hlen]
  exact Nat.succ_le_succ (List.length_filter_le _ _)

/-- The search along flows ends early in both functions. -/
theorem reach_eq {succ : BindingId → List BindingId}
    (hsucc : ∀ b, ∀ c ∈ succ b, c ∈ core.flowTargets b) (b : BindingId) :
    Graph.reach succ facts.flowDepth [b] = Graph.reach succ core.flowDepth [b] := by
  obtain ⟨nodes, hclosed, hroot, hcard⟩ := exists_flow_nodes hsucc b
  exact Graph.reach_eq_of_le hclosed hroot hcard h.flowDepth_le

theorem reach_flowTargets_eq (b : BindingId) :
    Graph.reach facts.flowTargets facts.flowDepth [b] =
      Graph.reach core.flowTargets core.flowDepth [b] := by
  rw [← h.flowTargets_eq, h.reach_eq fun _ _ hc => hc]

theorem reach_ownerTargets_eq (b : BindingId) :
    Graph.reach facts.ownerTargets facts.flowDepth [b] =
      Graph.reach core.ownerTargets core.flowDepth [b] := by
  rw [← h.ownerTargets_eq, h.reach_eq fun _ _ hc => flowTargets_of_ownerTargets hc]

section Of

variable (hf : facts.func.Valid) (hof : facts.Of env facts.func) (hcore : core.func.Valid)
  (hcoreOf : core.Of env core.func)
include hf hof hcore hcoreOf

theorem holders_eq (site : AllocSite) : facts.holders site = core.holders site := by
  rw [Facts.holders, Facts.holders]
  cases site.dest with
  | none => rfl
  | some dest =>
    have hall : (⟨[dest], []⟩ : Holders).all = [dest] := rfl
    simp only [propagate_eq hf hof, propagate_eq hcore hcoreOf, hall, h.reach_flowTargets_eq,
      h.reach_ownerTargets_eq]

end Of

/-! ## Single frees -/

theorem receivers_eq (hp : p.block ∈ facts.solution.reachable) (held : BindingSet) :
    facts.receivers site holders p held = core.receivers site holders p held := by
  rw [receivers, receivers, h.usesAt_eq hp, List.filterMap_map]
  rfl

theorem passOn_eq (hp : p.block ∈ facts.solution.reachable) (received : List BindingId)
    (held : BindingSet) :
    facts.passOn holders p received held = core.passOn holders p received held := by
  simp only [passOn, h.usesAt_eq hp, List.filter_map, List.foldl_map, h.definitionAt hp]
  rfl

theorem heldStep_eq (hp : p.block ∈ facts.solution.reachable) (held : BindingSet) :
    facts.heldStep site holders p held = core.heldStep site holders p held := by
  have hin : facts.liveness.isLiveIn p = core.liveness.isLiveIn p :=
    funext fun x => (h.isLiveIn hp).symm
  have hout : facts.liveness.isLiveOut p = core.liveness.isLiveOut p :=
    funext fun x => (h.isLiveOut hp).symm
  simp only [heldStep, h.receivers_eq hp, h.passOn_eq hp, hin, hout, h.bindings_eq]

theorem heldBy_corresponds (hcoreOf : core.Of env core.func) (site : AllocSite)
    (holders : Holders) :
    (core.heldBy site holders).CorrespondsTo (facts.heldBy site holders) facts.solution.reachable
      (fun held => held.width = core.func.bindings.length) id where
  injective := Function.injective_id
  shaped := heldBy_shaped hcoreOf site holders
  neutral _ := BindingSet.union_empty _ _
  start := by
    simp only [heldBy, h.bindings_eq, id_eq]
  join _ _ := rfl
  step hp _ := congrArg Prod.fst (h.heldStep_eq hp _)

section Frees

variable (hf : facts.func.Valid) (hof : facts.Of env facts.func) (hcoreOf : core.Of env core.func)
include hf hof hcoreOf

theorem heldExits_eq (site : AllocSite) (holders : Holders) :
    facts.heldExits site holders = core.heldExits site holders := by
  obtain ⟨order, horder, horder', hlive⟩ := h.exists_order hf
  have hexits := (h.heldBy_corresponds hcoreOf site holders).exits_eq h.func h.agrees hlive
    (heldBy_exits_isOk_iff hcoreOf order) (heldBy_exits_isOk_iff hof order)
  rw [Facts.heldExits, Facts.heldExits, horder, horder', ok_bind, ok_bind, hexits, List.map_id_fun]
  cases (core.heldBy site holders).exits core.func order (Nat.pow 2 core.func.bindings.length) with
  | error fault => rfl
  | ok exits => rfl

omit hof in
theorem liveExits_of_heldExits {exits : List BindingSet}
    (hexits : core.heldExits site holders = .ok exits) :
    (core.heldBy site holders).LiveExits facts.solution.reachable
      (fun held => held.width = core.func.bindings.length) exits := by
  obtain ⟨order, -, horder', hlive⟩ := h.exists_order hf
  rw [Facts.heldExits, horder', ok_bind] at hexits
  exact Forward.liveExits_of_exits (heldBy_shaped hcoreOf site holders) hlive hexits

omit hof in
theorem freesIn_eq {exits : List BindingSet} (hexits : core.heldExits site holders = .ok exits)
    {b : BlockId} (hb : b ∈ facts.solution.reachable) :
    facts.freesIn site holders exits b = core.freesIn site holders exits b := by
  have hlive := h.liveExits_of_heldExits hf hcoreOf hexits
  have hblock : ∀ p ∈ facts.func.pointsOf b, p.block ∈ facts.solution.reachable :=
    fun p hp => Func.block_eq_of_mem_pointsOf hp ▸ hb
  have hcorresponds := h.heldBy_corresponds hcoreOf site holders
  have hbefore : ∀ p ∈ facts.func.pointsOf b,
      (facts.heldBy site holders).before facts.func exits p =
        (core.heldBy site holders).before core.func exits p := by
    intro p hp
    have heq := hcorresponds.before_eq h.func h.agrees hlive (hblock p hp)
    rwa [List.map_id] at heq
  simp only [freesIn, Forward.trace_eq, h.agrees.pointsOf_eq hb, List.filter_map, List.map_map]
  refine congrArg _ (List.filter_congr fun p hp => ?_)
  rw [Function.comp_apply, Function.comp_apply, hbefore p hp, h.heldStep_eq (hblock p hp)]

omit hof in
theorem freesLeaving_eq {exits : List BindingSet} (hexits : core.heldExits site holders = .ok exits)
    {b : BlockId} (hb : b ∈ facts.solution.reachable) :
    facts.freesLeaving site holders exits b = core.freesLeaving site holders exits b := by
  have hlive := h.liveExits_of_heldExits hf hcoreOf hexits
  have hend : (facts.heldBy site holders).atEnd facts.func exits b =
      (core.heldBy site holders).atEnd core.func exits b := by
    have heq := (h.heldBy_corresponds hcoreOf site holders).atEnd_eq h.func h.agrees hlive hb
    rwa [List.map_id] at heq
  have htargets : ∀ held : BindingSet, (facts.func.blockIds.filter fun c =>
      (facts.func.successors b).contains c && !facts.liveness.anyLiveAtEntry c held.toList) =
      core.func.blockIds.filter fun c =>
        (core.func.successors b).contains c && !core.liveness.anyLiveAtEntry c held.toList := by
    intro held
    rw [Func.blockIds, Func.blockIds, h.agrees.length, h.agrees.successors_eq hb]
    refine List.filter_congr fun c _ => ?_
    by_cases hc : c ∈ facts.func.successors b
    · have hentry : ∀ x, facts.liveness.isLiveIn ⟨c, 0⟩ x = core.liveness.isLiveIn ⟨c, 0⟩ x :=
        fun x => (h.isLiveIn (p := ⟨c, 0⟩) (h.agrees.live_of_edge hb hc)).symm
      have hany : facts.liveness.anyLiveAtEntry c held.toList =
          core.liveness.anyLiveAtEntry c held.toList :=
        congrArg held.toList.any (funext hentry)
      rw [hany]
    · simp [hc]
  simp only [freesLeaving, htargets]
  rw [← Forward.atEnd, ← Forward.atEnd, hend]

theorem freePoints_eq (site : AllocSite) (holders : Holders) :
    facts.freePoints site holders = core.freePoints site holders := by
  rw [freePoints, freePoints, h.heldExits_eq hf hof hcoreOf, h.reachable]
  refine bind_congr_of_ok fun exits hexits => ?_
  have hin : facts.solution.reachable.flatMap (facts.freesIn site holders exits) =
      facts.solution.reachable.flatMap (core.freesIn site holders exits) :=
    List.flatMap_congr fun b hb => h.freesIn_eq hf hcoreOf hexits hb
  have hleaving : facts.solution.reachable.flatMap (facts.freesLeaving site holders exits) =
      facts.solution.reachable.flatMap (core.freesLeaving site holders exits) :=
    List.flatMap_congr fun b hb => h.freesLeaving_eq hf hcoreOf hexits hb
  simp only [hin, hleaving]

end Frees

/-! ## Regions -/

theorem block_eq {b : BlockId} (hb : b ∈ facts.solution.reachable) :
    facts.func.block b = core.func.block b := by
  rw [Func.block, Func.block, lookup, lookup, h.agrees.block hb]

theorem binding_eq (b : BindingId) : facts.func.binding b = core.func.binding b := by
  rw [Func.binding, Func.binding, h.bindings_eq]

theorem region_eq (s : RegionId) : facts.func.region s = core.func.region s := by
  rw [Func.region, Func.region, h.regions_eq]

theorem blocksIn_eq (s : RegionId) : facts.func.blocksIn s = core.func.blocksIn s := by
  rw [h.func, Func.blocksIn_prune]

theorem firstArena?_eq (rs : List RegionId) :
    facts.func.firstArena? rs = core.func.firstArena? rs := by
  induction rs with
  | nil => rfl
  | cons s rest ih => rw [Func.firstArena?, Func.firstArena?, h.region_eq, ih]

theorem coveringRegion_eq (s : RegionId) (declared : List RegionId) :
    facts.coveringRegion s declared = core.coveringRegion s declared := by
  simp only [coveringRegion, Func.regionAncestors_congr h.regions_eq,
    Func.regionWithin_congr h.regions_eq]

theorem onCycle_eq {scope : List BlockId} (hscope : ∀ c ∈ scope, c ∈ facts.solution.reachable)
    {b : BlockId} (hb : b ∈ facts.solution.reachable) :
    facts.func.onCycle scope b = core.func.onCycle scope b := by
  have hsucc : ∀ c ∈ facts.solution.reachable,
      (facts.func.successors c).filter scope.contains =
        (core.func.successors c).filter scope.contains :=
    fun c hc => by rw [h.agrees.successors_eq hc]
  have hinside : ∀ c, ∀ d ∈ (facts.func.successors c).filter scope.contains,
      d ∈ facts.solution.reachable := fun c d hd =>
    hscope d (List.contains_iff_mem.mp (List.mem_filter.mp hd).2)
  simp only [Func.onCycle, h.agrees.length, ← hsucc b hb]
  rw [Graph.reach_congr (P := (· ∈ facts.solution.reachable)) hsucc (fun c _ => hinside c) _
    (hinside b)]

theorem boundingRegion?_eq (config : Config) (hsite : site.point.block ∈ facts.solution.reachable)
    (holders : Holders) :
    facts.boundingRegion? config site holders = core.boundingRegion? config site holders := by
  have hcycle : ∀ s, facts.func.onCycle
      ((core.func.blocksIn s).filter facts.solution.reachable.contains) site.point.block =
      core.func.onCycle ((core.func.blocksIn s).filter facts.solution.reachable.contains)
        site.point.block := fun s =>
    h.onCycle_eq (fun c hc => List.contains_iff_mem.mp (List.mem_filter.mp hc).2) hsite
  simp only [boundingRegion?, h.block_eq hsite, h.binding_eq, h.region_eq, h.blocksIn_eq,
    h.coveringRegion_eq, h.reachable, h.firstArena?_eq, hcycle,
    Func.regionAncestors_congr h.regions_eq]

theorem regionExits_eq (s : RegionId) :
    facts.func.regionExits facts.solution.reachable s =
      core.func.regionExits core.solution.reachable s := by
  simp only [Func.regionExits, h.region_eq, h.blocksIn_eq, h.reachable]
  refine bind_congr fun decl => congrArg Except.ok (List.flatMap_congr fun b hb => ?_)
  rw [h.agrees.block (List.mem_filter.mp hb).1]

theorem planDeallocs_eq {plan plan' : Plan} (hmembers : ∀ s, plan.members s = plan'.members s) :
    facts.planDeallocs plan = core.planDeallocs plan' := by
  simp only [planDeallocs, h.regions_eq, hmembers, h.regionExits_eq]

/-! ## Uses that let a value out -/

theorem storesIntoCaller_eq (u : SolvedUse) :
    facts.storesIntoCaller (u.renumber r) = core.storesIntoCaller u := by
  rw [storesIntoCaller, storesIntoCaller, h.isParam_eq]
  rfl

theorem escapeRoute?_eq (u : SolvedUse) :
    facts.escapeRoute? (u.renumber r) = core.escapeRoute? u := by
  rw [escapeRoute?, escapeRoute?, h.storesIntoCaller_eq]
  rfl

theorem isTransfer_eq (u : SolvedUse) : facts.isTransfer (u.renumber r) = core.isTransfer u := by
  rw [isTransfer, isTransfer, h.storesIntoCaller_eq]
  rfl

theorem localLoan?_eq (u : SolvedUse) : facts.localLoan? (u.renumber r) = core.localLoan? u := by
  rw [localLoan?, localLoan?, h.isLocal_eq]
  rfl

theorem transfers_eq (holders : Holders) :
    facts.transfers holders = (core.transfers holders).map r.use := by
  rw [transfers, transfers, h.liveUses_eq, List.filter_map, List.map_map, List.map_map]
  have hfilter : (fun u : SolvedUse => holders.owners.contains u.binding && facts.isTransfer u) ∘
      SolvedUse.renumber r = fun u => holders.owners.contains u.binding && core.isTransfer u := by
    funext u
    rw [Function.comp_apply, h.isTransfer_eq]
    rfl
  rw [hfilter]
  rfl

theorem escapesOf_eq (refs : List BindingId) (subject : EscapeSubject) (origin : Span) :
    facts.escapesOf refs subject origin =
      (core.escapesOf refs subject origin).map (Prod.map r.use id) := by
  rw [escapesOf, escapesOf, h.liveUses_eq, List.filterMap_map, List.map_filterMap]
  refine List.filterMap_congr fun u _ => ?_
  have hbinding : (u.renumber r).binding = u.binding := rfl
  rw [Function.comp_apply, h.escapeRoute?_eq, hbinding]
  split
  · rw [Option.map_map]
    rfl
  · rfl

theorem loanEscapes_eq (u : SolvedUse) :
    facts.loanEscapes (u.renumber r) = (core.loanEscapes u).map (Prod.map r.use id) := by
  rw [loanEscapes, loanEscapes, h.localLoan?_eq]
  cases core.localLoan? u with
  | none => rfl
  | some holder =>
    simp only [h.reach_flowTargets_eq, h.escapesOf_eq]
    rfl

/-! ## The plan -/

theorem liveSites_eq : facts.liveSites = core.liveSites := by
  have hall : core.liveSites = core.usage.allocations := by
    refine List.filter_eq_self.mpr fun site hsite => ?_
    rw [h.sites] at hsite
    rw [Solution.isReachable, h.reachable]
    exact (List.mem_filter.mp hsite).2
  rw [hall, h.sites]

section Of

variable (hf : facts.func.Valid) (hof : facts.Of env facts.func) (hcore : core.func.Valid)
  (hcoreOf : core.Of env core.func)
include hf hof hcoreOf

theorem place_eq (config : Config) (hsite : site.point.block ∈ facts.solution.reachable)
    (holders : Holders) :
    facts.place config site holders =
      (core.place config site holders).map (Placement.renumber r) := by
  simp only [place, h.transfers_eq, List.isEmpty_map, h.boundingRegion?_eq config hsite,
    h.freePoints_eq hf hof hcoreOf]
  split
  · rw [bind_map_eq]
    refine bind_congr fun bounding => ?_
    cases bounding with
    | some s => rfl
    | none => cases core.freePoints site holders <;> rfl
  · rw [bind_map_eq]
    refine bind_congr fun points => ?_
    cases points <;> rfl

include hcore

theorem planSite_eq (config : Config) (hsite : site.point.block ∈ facts.solution.reachable) :
    facts.planSite config site = (core.planSite config site).map (renumberEntry r) := by
  simp only [planSite, h.holders_eq hf hof hcore hcoreOf, h.place_eq hf hof hcoreOf config hsite,
    h.escapesOf_eq, bind_map_eq, map_bind_eq]
  rfl

theorem localEscapes_eq : facts.localEscapes =
    core.localEscapes.map (List.map (Prod.map r.use id)) := by
  rw [Facts.localEscapes_eq hof hf, Facts.localEscapes_eq hcoreOf hcore, h.liveUses_eq]
  refine congrArg Except.ok ?_
  rw [List.flatMap_map, List.map_flatMap]
  exact List.flatMap_congr fun u _ => h.loanEscapes_eq u

end Of

end Facts.PrunedTo

theorem Placement.renumber_eq_region_iff {r : Renumbering} {placement : Placement} {s : RegionId} :
    placement.renumber r = .region s ↔ placement = .region s := by
  cases placement <;> simp [renumber]

theorem Plan.members_renumber (r : Renumbering) (plan : Plan) (s : RegionId) :
    (plan.renumber r).members s = plan.members s := by
  simp only [members, renumber, List.filter_map, List.map_map]
  congr 1
  refine List.filter_congr fun entry _ => ?_
  rw [Function.comp_apply, decide_eq_decide]
  exact Placement.renumber_eq_region_iff

theorem upsert_renumber (r : Renumbering) (entry : AllocId × Placement)
    (table : List (AllocId × Placement)) :
    upsert Prod.fst (Prod.map id (Placement.renumber r) entry)
      (table.map (Prod.map id (Placement.renumber r))) =
        (upsert Prod.fst entry table).map (Prod.map id (Placement.renumber r)) := by
  induction table with
  | nil => rfl
  | cons x rest ih =>
    by_cases hkey : x.1 = entry.1
    · simp [upsert, hkey]
    · simpa [upsert, hkey] using ih

theorem foldl_upsert_renumber (r : Renumbering)
    (sites : List ((AllocId × Placement) × List (UseId × Violation)))
    (table : List (AllocId × Placement)) :
    (sites.map (renumberEntry r)).foldl (fun t entry => upsert Prod.fst entry.1 t)
        (table.map (Prod.map id (Placement.renumber r))) =
      (sites.foldl (fun t entry => upsert Prod.fst entry.1 t) table).map
        (Prod.map id (Placement.renumber r)) := by
  induction sites generalizing table with
  | nil => rfl
  | cons site rest ih =>
    rw [List.map_cons, List.foldl_cons, List.foldl_cons, ← ih, ← upsert_renumber]
    rfl

namespace Facts.PrunedTo

variable {env : Environment} {facts core : Facts} {r : Renumbering}

/-- Dead code makes no difference to the plan but for the numbers of uses. -/
theorem plan_eq (h : facts.PrunedTo r core) (hf : facts.func.Valid)
    (hof : facts.Of env facts.func) (hcore : core.func.Valid) (hcoreOf : core.Of env core.func)
    (config : Config) : facts.plan config = (core.plan config).map (Plan.renumber r) := by
  have hsites : core.liveSites.mapM (facts.planSite config) =
      (core.liveSites.mapM (core.planSite config)).map (List.map (renumberEntry r)) := by
    rw [← mapM_map_eq (c := id), List.map_id]
    intro site hsite
    refine h.planSite_eq hf hof hcore hcoreOf config ?_
    rw [← h.reachable]
    exact List.contains_iff_mem.mp (List.mem_filter.mp hsite).2
  rw [plan, plan, h.liveSites_eq, hsites, map_bind_eq, bind_map_eq]
  refine bind_congr fun sites => ?_
  rw [h.localEscapes_eq hf hof hcore hcoreOf, map_bind_eq, bind_map_eq]
  refine bind_congr fun locals => ?_
  have hescapes : keepFirst [] ((sites.map (renumberEntry r)).flatMap Prod.snd ++
      locals.map (Prod.map r.use id)) = keepFirst [] (sites.flatMap Prod.snd ++ locals) := by
    have hkeep := keepFirst_map h.increasing.use.injective (id : Violation → Violation) []
      (sites.flatMap Prod.snd ++ locals)
    rw [List.map_id, List.map_append, List.map_flatMap] at hkeep
    rw [← hkeep, List.flatMap_map]
    rfl
  have hplacements := foldl_upsert_renumber r sites []
  rw [List.map_nil] at hplacements
  dsimp only
  rw [hescapes, hplacements, bind_map_eq]
  generalize sites.foldl (fun t entry => upsert Prod.fst entry.1 t) [] = placements
  generalize Violation.sortByStart (keepFirst [] (sites.flatMap Prod.snd ++ locals)) = escapes
  have hdeallocs : facts.planDeallocs (Plan.renumber r ⟨placements, [], escapes⟩) =
      core.planDeallocs ⟨placements, [], escapes⟩ :=
    h.planDeallocs_eq (Plan.members_renumber r _)
  exact congrArg (· >>= fun deallocs => pure (Plan.renumber r ⟨placements, deallocs, escapes⟩))
    hdeallocs

end Facts.PrunedTo

end Tenure

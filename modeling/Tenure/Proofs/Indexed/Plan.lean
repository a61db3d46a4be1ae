import Tenure.Proofs.Indexed.Checks
import Tenure.Proofs.Placement.Planned

/-!
# Placement over tables

The plan of a function with every block, binding, region and use looked up by index. Each part that
has no loop gives what the planner gives whenever that has a result, and it always has one. The
analysis of single frees has a result after any number of sweeps, so there always is a plan, whether
that analysis comes to rest or not (`Indexed.plan_mirrors`).
-/

namespace Tenure

/-- A value that is stored into a field flows there. -/
theorem Step.flow_of_storedInto {step : Step} {a : Access} {target : BindingId}
    (h : a ∈ step.accesses) (hstored : a.storedInto = some target) :
    a.flow = some (target, .byMode) := by
  cases mentions_of_mem_accesses h with
  | assigned hfate =>
    rw [hfate.storedInto] at hstored
    cases hstored
  | stored ha =>
    rw [ha] at hstored ⊢
    rw [← Option.some.inj hstored]
  | dropped hfate =>
    rw [hfate.storedInto] at hstored
    cases hstored
  | idle _ _ hnone =>
    rw [hnone] at hstored
    cases hstored

/-! ## Lists of results -/

section Option

variable {α β : Type}

/-- Where every computation that has a result is read as well, a list of them is. -/
theorem mapM_eq_some_of_ok {g : α → Except Fault β} {g' : α → Option β} {l : List α} {r : List β}
    (h : l.mapM g = .ok r) (hread : ∀ a ∈ l, ∀ b, g a = .ok b → g' a = some b) :
    l.mapM g' = some r := by
  rw [mapM_eq_ok] at h
  induction h with
  | nil => rfl
  | cons hb _ ih =>
    rw [List.mapM_cons, hread _ List.mem_cons_self _ hb,
      ih fun a ha => hread a (List.mem_cons_of_mem _ ha)]
    rfl

/-- Entries that are read with a mark, those with the mark kept. -/
theorem mapM_filter_eq_some {g : α → Option (β × Bool)} {key : α → β} {keep : α → Bool}
    {l : List α} (h : ∀ a ∈ l, g a = some (key a, keep a)) :
    (do
      let marked ← l.mapM g
      return (marked.filter Prod.snd).map Prod.fst) = some ((l.filter keep).map key) := by
  rw [mapM_eq_some_map h, some_bind, List.filter_map, List.map_map]
  rfl

end Option

namespace Indexed

variable {ι : Type} {env : Environment} {f : Func} {facts : Facts} {config : Config}
  {site : AllocSite} {holders : Holders}

/-! ## Holders -/

/-- The flows in reachable code, each with the declaration of its target. -/
def flows (facts : Facts) : Option (List (Flow × Binding)) := do
  let uses ← facts.tables.allUses
  let live := uses.filter fun u => facts.solution.isReachable u.point
  (live.filterMap SolvedUse.flow?).mapM fun w => do
    let decl ← facts.func.bindings[w.target]?
    return (w, decl)

/-- The locals that some flows lead to from a binding. -/
def targets (flows : List (Flow × Binding)) (follows : Flow → Bool) (b : BindingId) :
    List BindingId :=
  (flows.filter fun (w, decl) => w.source = b && follows w && !decl.isParam).map fun e => e.1.target

/-- Follow the flows from given owners and references. -/
def propagate (facts : Facts) (start : Holders) : Option Holders := do
  let flows ← flows facts
  let owners := Graph.reach (targets flows Flow.owning) facts.flowDepth start.owners
  let holders := Graph.reach (targets flows fun _ => true) facts.flowDepth start.all
  return ⟨owners, holders.filter fun b => !owners.contains b⟩

/-- The bindings that may hold an allocation. -/
def holdersOf (facts : Facts) (site : AllocSite) : Option Holders :=
  match site.dest with
  | some dest => propagate facts ⟨[dest], []⟩
  | none => some .nobody

section Holders

variable (h : facts.Over env f) (hf : f.Valid)
include h hf

omit hf in
/-- The facts are right but for their liveness, and the right liveness exists. -/
theorem exists_of (hf : f.Valid) : ∃ l, Facts.Of env f { facts with liveness := l } := by
  obtain ⟨l, hl⟩ := Func.liveness_isOk hf
  exact ⟨l, h.func, h.usage, h.solved, hl⟩

theorem target_lt {u : SolvedUse} {b : BindingId} {kind : FlowKind}
    (hu : u ∈ facts.solution.uses) (hflow : u.flow = some (b, kind)) : b < f.bindings.length := by
  obtain ⟨l, hof⟩ := exists_of h hf
  exact Facts.target_lt hf hof hu hflow

theorem flows_eq : flows facts =
    some (facts.liveFlows.map fun w => (w, f.bindings[w.target]?.getD default)) := by
  rw [flows, h.allUses_eq, some_bind]
  refine mapM_eq_some_map fun w hw => ?_
  obtain ⟨u, hu, hsome⟩ := List.mem_filterMap.mp hw
  obtain ⟨⟨target, kind⟩, hflow, rfl⟩ := Option.map_eq_some_iff.mp hsome
  have hlt := target_lt h hf (List.mem_of_mem_filter hu) hflow
  rw [h.func]
  show (f.bindings[target]? >>= _) = some (_, f.bindings[target]?.getD default)
  rw [List.getElem?_eq_getElem hlt]
  rfl

theorem targets_eq (follows : Flow → Bool) (b : BindingId) :
    targets (facts.liveFlows.map fun w => (w, f.bindings[w.target]?.getD default)) follows b =
      (facts.liveFlows.filter fun w => w.source = b && follows w && facts.isLocal w.target).map
        Flow.target := by
  rw [targets, List.filter_map, List.map_map]
  refine congrArg _ (List.filter_congr fun w hw => ?_)
  obtain ⟨u, hu, hsome⟩ := List.mem_filterMap.mp hw
  obtain ⟨⟨target, kind⟩, hflow, rfl⟩ := Option.map_eq_some_iff.mp hsome
  have hlt := target_lt h hf (List.mem_of_mem_filter hu) hflow
  simp [Facts.isLocal, h.func, List.getElem?_eq_getElem hlt]

theorem propagate_eq {start found : Holders} (hfound : facts.propagate start = .ok found) :
    propagate facts start = some found := by
  obtain ⟨l, hof⟩ := exists_of h hf
  obtain rfl := Except.ok.inj (hfound.symm.trans (Facts.propagate_eq hf hof start))
  have howners : targets (facts.liveFlows.map fun w => (w, f.bindings[w.target]?.getD default))
      Flow.owning = facts.ownerTargets := funext fun b => targets_eq h hf Flow.owning b
  have hall : targets (facts.liveFlows.map fun w => (w, f.bindings[w.target]?.getD default))
      (fun _ => true) = facts.flowTargets := by
    funext b
    rw [targets_eq h hf]
    simp [Facts.flowTargets]
  rw [propagate, flows_eq h hf, some_bind, howners, hall]
  rfl

theorem holdersOf_eq {found : Holders} (hfound : facts.holders site = .ok found) :
    holdersOf facts site = some found := by
  unfold Facts.holders at hfound
  unfold holdersOf
  cases hdest : site.dest with
  | none =>
    rw [hdest] at hfound
    rw [Except.ok.inj hfound]
  | some dest =>
    rw [hdest] at hfound
    exact propagate_eq h hf hfound

end Holders

/-! ## Escapes -/

/-- Whether a use stores its value into a field of a parameter. -/
def storesIntoCaller (facts : Facts) (u : SolvedUse) : Option Bool :=
  match u.storedInto with
  | some target => do
    let decl ← facts.func.bindings[target]?
    return decl.isParam
  | none => some false

/-- How a use lets its value outlive the function. -/
def escapeRoute (facts : Facts) (u : SolvedUse) : Option (Option EscapeRoute) :=
  match u.kind with
  | .returned => some (some .returned)
  | .suspended => some (some .suspension)
  | _ => do
    let stores ← storesIntoCaller facts u
    return if stores then some .callerStore else none

/-- Whether the use of an owner hands the value to somebody outside the function. -/
def isTransfer (facts : Facts) (u : SolvedUse) : Option Bool :=
  match u.kind with
  | .returned => some true
  | .suspended => some (u.resolved = .moved)
  | .capture => some false
  | _ => do
    let stores ← storesIntoCaller facts u
    return u.resolved = .moved && u.field.isNone &&
      ((u.slot.any fun slot =>
        match slot.callee with
        | .function _ | .foreign _ => true
        | .constructor _ => false)
      || stores)

/-- The uses of owners that hand the value over. -/
def transfers (facts : Facts) (holders : Holders) : Option (List UseId) := do
  let uses ← facts.tables.allUses
  let live := uses.filter fun u => facts.solution.isReachable u.point
  let marked ← live.mapM fun u => do
    let transfer ← isTransfer facts u
    return (u.id, holders.owners.contains u.binding && transfer)
  return (marked.filter Prod.snd).map Prod.fst

/-- The uses of some references that let them out. -/
def escapesOf (facts : Facts) (refs : List BindingId) (subject : EscapeSubject) (origin : Span) :
    Option (List (UseId × Violation)) := do
  let uses ← facts.tables.allUses
  let live := uses.filter fun u => facts.solution.isReachable u.point
  let found ← live.mapM fun u =>
    if refs.contains u.binding then do
      let route ← escapeRoute facts u
      return route.map fun route => (u.id, .regionEscape subject route u.span origin)
    else some none
  return found.filterMap id

/-- Which binding holds the reference to a local that a use makes. The row of a use has its
declaration. -/
def localLoan (u : SolvedUse) : Option BindingId :=
  match u.loan with
  | some (.reference _, holder) => if u.decl.isParam then none else holder
  | some (.capture, holder) => if !u.decl.isParam && u.resolved.isBorrow then holder else none
  | none => none

/-- The escapes of references to locals. -/
def localEscapes (facts : Facts) : Option (List (UseId × Violation)) := do
  let uses ← facts.tables.allUses
  let live := uses.filter fun u => facts.solution.isReachable u.point
  let perLoan ← live.mapM fun u =>
    match localLoan u with
    | some holder => do
      let held ← propagate facts ⟨[], [holder]⟩
      escapesOf facts held.refs (.localBinding u.decl.name) u.span
    | none => some []
  return perLoan.flatten

section Escapes

variable (h : facts.Over env f) (hf : f.Valid)
include h hf

theorem storesIntoCaller_eq {u : SolvedUse} (hu : u ∈ facts.solution.uses) :
    storesIntoCaller facts u = some (facts.storesIntoCaller u) := by
  rw [storesIntoCaller, Facts.storesIntoCaller]
  cases hstored : u.storedInto with
  | none => rfl
  | some target =>
    obtain ⟨step, hstep⟩ := Func.step?_of_mem_uses hf (h.solved.mem_usage hu)
    have hmem := h.solved.mem_accesses hf hstep (Solution.mem_usesAt.mpr ⟨hu, rfl⟩)
    have hlt := target_lt h hf hu (Step.flow_of_storedInto hmem hstored)
    simp [Facts.isParam, h.func, List.getElem?_eq_getElem hlt]

theorem escapeRoute_eq {u : SolvedUse} (hu : u ∈ facts.solution.uses) :
    escapeRoute facts u = some (facts.escapeRoute? u) := by
  rw [escapeRoute, Facts.escapeRoute?, storesIntoCaller_eq h hf hu]
  cases u.kind <;> rfl

theorem isTransfer_eq {u : SolvedUse} (hu : u ∈ facts.solution.uses) :
    isTransfer facts u = some (facts.isTransfer u) := by
  rw [isTransfer, Facts.isTransfer, storesIntoCaller_eq h hf hu]
  cases u.kind <;> rfl

theorem transfers_eq (holders : Holders) :
    transfers facts holders = some (facts.transfers holders) := by
  rw [transfers, h.allUses_eq, some_bind]
  refine mapM_filter_eq_some fun u hu => ?_
  rw [isTransfer_eq h hf (List.mem_of_mem_filter hu), some_bind]
  rfl

theorem escapesOf_eq (refs : List BindingId) (subject : EscapeSubject) (origin : Span) :
    escapesOf facts refs subject origin = some (facts.escapesOf refs subject origin) := by
  rw [escapesOf, h.allUses_eq, some_bind]
  refine mapM_filterMap_eq_some fun u hu => ?_
  rw [escapeRoute_eq h hf (List.mem_of_mem_filter hu), some_bind]
  split <;> rfl

omit hf in
theorem localLoan_eq {u : SolvedUse} (hu : u ∈ facts.solution.uses) :
    localLoan u = facts.localLoan? u := by
  have hlocal : facts.isLocal u.binding = !u.decl.isParam := by
    rw [Facts.isLocal, h.func, h.solved.decl u hu]
    rfl
  rw [localLoan, Facts.localLoan?, hlocal]
  cases u.decl.isParam <;> rfl

theorem localEscapes_eq {found : List (UseId × Violation)}
    (hfound : facts.localEscapes = .ok found) : localEscapes facts = some found := by
  unfold Facts.localEscapes at hfound
  obtain ⟨perLoan, hperLoan, hfound⟩ := bind_eq_ok.mp hfound
  have hread : (facts.solution.liveUses.mapM fun u =>
      match localLoan u with
      | some holder => do
        let held ← propagate facts ⟨[], [holder]⟩
        escapesOf facts held.refs (.localBinding u.decl.name) u.span
      | none => some []) = some perLoan := by
    refine mapM_eq_some_of_ok hperLoan fun u hu part hpart => ?_
    rw [localLoan_eq h (List.mem_of_mem_filter hu)]
    cases hloan : facts.localLoan? u with
    | none =>
      rw [hloan] at hpart
      rw [Except.ok.inj hpart]
    | some holder =>
      rw [hloan] at hpart
      obtain ⟨held, hheld, hpart⟩ := bind_eq_ok.mp hpart
      show (propagate facts ⟨[], [holder]⟩ >>= _) = _
      rw [propagate_eq h hf hheld, some_bind, escapesOf_eq h hf, pure_eq_ok.mp hpart]
  rw [localEscapes, h.allUses_eq, some_bind]
  show ((facts.solution.liveUses.mapM _) >>= _) = _
  rw [hread, ← pure_eq_ok.mp hfound]
  rfl

end Escapes

/-! ## Regions -/

/-- Whether control can come back to a block while it stays in the scope. The successors of the
block and of the blocks in the scope are looked up. -/
def onCycle (f : Func) (scope : List BlockId) (b : BlockId) : Option Bool := do
  let table ← (b :: scope).mapM fun c => do
    let block ← f.blocks[c]?
    return (c, block.successors.filter scope.contains)
  let inside := fun c => (table.lookup c).getD []
  return (Graph.reach inside (f.blocks.length + 1) (inside b)).contains b

/-- The region that frees an allocation in bulk, if one may. -/
def boundingRegion (facts : Facts) (config : Config) (site : AllocSite) (holders : Holders) :
    Option (Option RegionId) := do
  let block ← facts.func.blocks[site.point.block]?
  let declared ← holders.all.mapM fun b => do
    let decl ← facts.func.bindings[b]?
    return decl.region
  let covering := facts.coveringRegion block.region declared
  let scope := (facts.func.blocksIn covering).filter facts.solution.reachable.contains
  let cyclic ← onCycle facts.func scope site.point.block
  let chosen ←
    if cyclic then (facts.func.firstArena? (facts.func.regionAncestors covering)).toOption
    else some (some covering)
  match chosen with
  | none => return none
  | some r =>
    let decl ← facts.func.regions[r]?
    return if decl.kind ≠ .body || config.implicitFunctionRegion then some r else none

/-- The ways out of a region over reachable blocks. -/
def regionExits (f : Func) (reachable : List BlockId) (r : RegionId) :
    Option (List RegionExit) := do
  let decl ← f.regions[r]?
  let inside := f.blocksIn r
  let perBlock ← (reachable.filter inside.contains).mapM fun source => do
    let block ← f.blocks[source]?
    return if block.isReturn then
        [⟨if decl.kind.isExplicit then .earlyReturn else .fallThrough, source, none⟩]
      else
        (block.successors.filter fun target => !inside.contains target).map fun target =>
          ⟨if decl.exit = some target then .fallThrough else .jumpOut, source, some target⟩
  return perBlock.flatten

/-- The bulk frees of a plan. -/
def planDeallocs (facts : Facts) (plan : Plan) : Option (List Dealloc) := do
  let perRegion ← facts.func.regions.reverse.mapM fun decl => do
    let allocs := plan.members decl.id
    if allocs.isEmpty then return []
    else
      let exits ← regionExits facts.func facts.solution.reachable decl.id
      return exits.map fun exit => ⟨decl.id, exit, allocs⟩
  return perRegion.flatten

theorem onCycle_eq {scope : List BlockId} {b : BlockId}
    (hlt : ∀ c ∈ b :: scope, c < f.blocks.length) :
    onCycle f scope b = some (f.onCycle scope b) := by
  let inside := fun c => (f.successors c).filter scope.contains
  have htable : ((b :: scope).mapM fun c => do
      let block ← f.blocks[c]?
      return (c, block.successors.filter scope.contains)) =
        some ((b :: scope).map fun c => (c, inside c)) := by
    refine mapM_eq_some_map fun c hc => ?_
    have hblock := List.getElem?_eq_getElem (hlt c hc)
    rw [hblock, some_bind]
    show some (c, _) = some (c, (f.successors c).filter scope.contains)
    rw [Func.successors_eq hblock]
  have hread : ∀ c ∈ b :: scope,
      inside c = ((((b :: scope).map fun c => (c, inside c)).lookup c).getD []) := by
    intro c hc
    rw [lookup_map_pair hc]
    rfl
  have hinside : ∀ c d, d ∈ inside c → d ∈ b :: scope := fun c d hd =>
    List.mem_cons_of_mem _ (by simpa using (List.mem_filter.mp hd).2)
  rw [onCycle, htable, some_bind, Func.onCycle]
  dsimp only
  rw [← hread b List.mem_cons_self,
    ← Graph.reach_congr (P := (· ∈ b :: scope)) hread (fun c _ d hd => hinside c d hd) _
      (hinside b)]
  rfl

section Regions

variable (h : facts.Over env f) (hf : f.Valid)
include h hf

theorem boundingRegion_eq {chosen : Option RegionId}
    (hchosen : facts.boundingRegion? config site holders = .ok chosen) :
    boundingRegion facts config site holders = some chosen := by
  obtain rfl := h.func
  unfold Facts.boundingRegion? at hchosen
  obtain ⟨block, hblock, hchosen⟩ := bind_eq_ok.mp hchosen
  obtain ⟨declared, hdeclared, hchosen⟩ := bind_eq_ok.mp hchosen
  replace hblock := lookup_eq_ok.mp hblock
  have hread : (holders.all.mapM fun b => do
      let decl ← facts.func.bindings[b]?
      return decl.region) = some declared := by
    refine mapM_eq_some_of_ok hdeclared fun b _ region hregion => ?_
    obtain ⟨decl, hdecl, hregion⟩ := bind_eq_ok.mp hregion
    rw [lookup_eq_ok.mp hdecl, some_bind, pure_eq_ok.mp hregion]
    rfl
  have hscope : ∀ c ∈ site.point.block :: (facts.func.blocksIn (facts.coveringRegion block.region
      declared)).filter facts.solution.reachable.contains, c < facts.func.blocks.length := by
    intro c hc
    rcases List.mem_cons.mp hc with rfl | hc
    · exact (List.getElem?_eq_some_iff.mp hblock).1
    · exact h.reachable_lt hf (by simpa using (List.mem_filter.mp hc).2)
  -- the last look-up is of the region that was picked
  have husable : ∀ r chosen, (facts.func.region r >>= fun decl =>
      pure (if decl.kind ≠ .body || config.implicitFunctionRegion then some r else none)) =
        (.ok chosen : Except Fault (Option RegionId)) →
      (facts.func.regions[r]? >>= fun decl =>
        pure (if decl.kind ≠ .body || config.implicitFunctionRegion then some r else none)) =
          some chosen := by
    intro r chosen husable
    obtain ⟨decl, hdecl, husable⟩ := bind_eq_ok.mp husable
    rw [lookup_eq_ok.mp hdecl, some_bind, pure_eq_ok.mp husable]
    rfl
  rw [boundingRegion, hblock, some_bind, hread, some_bind]
  dsimp only at hchosen ⊢
  rw [onCycle_eq hscope, some_bind]
  split at hchosen
  next hcycle =>
    obtain ⟨picked, hpicked, hchosen⟩ := bind_eq_ok.mp hchosen
    rw [if_pos hcycle, hpicked]
    cases picked with
    | none => rw [← pure_eq_ok.mp hchosen]; rfl
    | some r => exact husable r chosen hchosen
  next hcycle =>
    rw [if_neg hcycle]
    exact husable _ chosen hchosen

theorem regionExits_eq {r : RegionId} {exits : List RegionExit}
    (hexits : f.regionExits facts.solution.reachable r = .ok exits) :
    regionExits f facts.solution.reachable r = some exits := by
  unfold Func.regionExits at hexits
  obtain ⟨decl, hdecl, hexits⟩ := bind_eq_ok.mp hexits
  rw [← pure_eq_ok.mp hexits, regionExits, lookup_eq_ok.mp hdecl, some_bind]
  refine mapM_flatten_eq_some fun source hsource => ?_
  have hlt := h.reachable_lt hf (List.mem_of_mem_filter hsource)
  rw [List.getElem?_eq_getElem hlt]
  rfl

theorem planDeallocs_eq {plan : Plan} {deallocs : List Dealloc}
    (hdeallocs : facts.planDeallocs plan = .ok deallocs) :
    planDeallocs facts plan = some deallocs := by
  obtain rfl := h.func
  unfold Facts.planDeallocs at hdeallocs
  obtain ⟨perRegion, hperRegion, hdeallocs⟩ := bind_eq_ok.mp hdeallocs
  rw [← pure_eq_ok.mp hdeallocs, planDeallocs,
    mapM_eq_some_of_ok hperRegion fun decl _ frees hfrees => ?_]
  · rfl
  dsimp only at hfrees ⊢
  split at hfrees
  next hempty => rw [if_pos hempty, pure_eq_ok.mp hfrees]; rfl
  next hempty =>
    obtain ⟨exits, hexits, hfrees⟩ := bind_eq_ok.mp hfrees
    rw [if_neg hempty, regionExits_eq h hf hexits, some_bind, pure_eq_ok.mp hfrees]
    rfl

end Regions

/-! ## Single frees -/

/-- Advance over a point, on the rows of the uses there. -/
def heldStep (facts : Facts) (site : AllocSite) (holders : Holders) (p : Point)
    (held : BindingSet) : Option (BindingSet × Bool) := do
  let uses ← facts.tables.usesAt p
  let there := { facts with solution := { facts.solution with uses } }
  return there.heldStep site holders p held

/-- The bindings that hold an allocation after a point. -/
def heldNext (facts : Facts) (site : AllocSite) (holders : Holders) (p : Point)
    (held : BindingSet) : Option BindingSet := do
  let next ← heldStep facts site holders p held
  return next.1

/-- The points of a block after which the value is freed. -/
def freesIn (facts : Facts) (site : AllocSite) (holders : Holders) (exits : List BindingSet)
    (b : BlockId) : Option (List FreePoint) := do
  let trace ← (facts.heldBy site holders).traceBy (heldNext facts site holders) facts.func exits b
  let marked ← trace.mapM fun (p, held) => do
    let next ← heldStep facts site holders p held
    return (FreePoint.after p, next.2)
  return (marked.filter Prod.snd).map Prod.fst

/-- The edges out of a block on which the value is freed. -/
def freesLeaving (facts : Facts) (site : AllocSite) (holders : Holders) (exits : List BindingSet)
    (b : BlockId) : Option (List FreePoint) := do
  let held ← (facts.heldBy site holders).endBy (heldNext facts site holders) facts.func exits b
  let block ← facts.func.blocks[b]?
  return if Facts.owns holders held then
      (facts.func.blockIds.filter fun c =>
        block.successors.contains c && !facts.liveness.anyLiveAtEntry c held.toList).map (.edge b)
    else []

/-- Where an allocation is freed by itself, after a number of sweeps. -/
def freePoints (facts : Facts) (site : AllocSite) (holders : Holders) (sweeps : Nat) :
    Option (List FreePoint) := do
  let exits ← (facts.heldBy site holders).exitsOver (heldNext facts site holders) facts.func sweeps
  let inside ← facts.solution.reachable.mapM (freesIn facts site holders exits)
  let leaving ← facts.solution.reachable.mapM (freesLeaving facts site holders exits)
  return inside.flatten ++ leaving.flatten

section Frees

variable (h : facts.Over env f) (hf : f.Valid)
include h

theorem heldStep_eq (p : Point) (held : BindingSet) :
    heldStep facts site holders p held = some (facts.heldStep site holders p held) := by
  have hsame : (facts.solution.usesAt p).filter (fun u => u.point = p) =
      facts.solution.usesAt p := by
    rw [Solution.usesAt, List.filter_filter]
    simp
  rw [heldStep, h.usesAt_eq, some_bind]
  simp only [Facts.heldStep, Facts.receivers, Facts.passOn, Solution.usesAt] at hsame ⊢
  rw [hsame]
  rfl

theorem heldNext_reads :
    (facts.heldBy site holders).Reads (heldNext facts site holders) fun _ => True where
  shaped := ⟨trivial, fun _ _ => trivial, fun _ => trivial⟩
  step_eq {p held} _ := by
    rw [heldNext, heldStep_eq h]
    rfl

theorem freesIn_eq (exits : List BindingSet) {b : BlockId} (hb : b < facts.func.blocks.length) :
    freesIn facts site holders exits b = some (facts.freesIn site holders exits b) := by
  rw [freesIn, (heldNext_reads h).traceBy_eq (fun _ => trivial) hb, some_bind]
  refine mapM_filter_eq_some fun (p, held) _ => ?_
  dsimp only
  rw [heldStep_eq h]
  rfl

theorem freesLeaving_eq (exits : List BindingSet) {b : BlockId}
    (hb : b < facts.func.blocks.length) :
    freesLeaving facts site holders exits b = some (facts.freesLeaving site holders exits b) := by
  have hblock := List.getElem?_eq_getElem hb
  rw [freesLeaving, (heldNext_reads h).endBy_eq (fun _ => trivial) hb, some_bind, hblock, some_bind,
    Facts.freesLeaving, Func.successors_eq hblock]
  rfl

include hf

theorem freePoints_mirrors (site : AllocSite) (holders : Holders) (i : ι) :
    Mirrors (fun _ => True) (fun s => freePoints facts site holders (s i))
      (facts.freePoints site holders) := by
  obtain rfl := h.func
  obtain ⟨order, horder, -⟩ := Func.reversePostorder_spec hf
  have hreach : ∀ b ∈ facts.solution.reachable, b < facts.func.blocks.length :=
    fun b hb => h.reachable_lt hf hb
  simp only [freePoints, Facts.freePoints, Facts.heldExits, horder, ok_bind]
  refine ((heldNext_reads h).exitsOver_mirrors hf horder _ i).bind fun exits _ => ?_
  refine .const rfl ?_ trivial
  rw [mapM_eq_some_map fun b hb => freesIn_eq h exits (hreach b hb), some_bind,
    mapM_eq_some_map fun b hb => freesLeaving_eq h exits (hreach b hb), some_bind,
    List.flatMap_def, List.flatMap_def]
  rfl

end Frees

/-! ## The plan -/

/-- Who frees an allocation. -/
def place (facts : Facts) (config : Config) (site : AllocSite) (holders : Holders) (sweeps : Nat) :
    Option Placement := do
  let transfers ← transfers facts holders
  if transfers.isEmpty then
    match ← boundingRegion facts config site holders with
    | some r => return .region r
    | none => return .individual (← freePoints facts site holders sweeps)
  else
    let points ← freePoints facts site holders sweeps
    return if points.isEmpty then .transferred transfers else .individual points

/-- The placement of a site together with the escapes of references to it. -/
def planSite (facts : Facts) (config : Config) (sweeps : Nat) (site : AllocSite) :
    Option ((AllocId × Placement) × List (UseId × Violation)) := do
  let holders ← holdersOf facts site
  let placement ← place facts config site holders sweeps
  let escapes ← escapesOf facts holders.refs (.allocation site.alloc) site.span
  return ((site.alloc, placement), escapes)

/-- The plan of a function, with a number of sweeps for each site. -/
def plan (facts : Facts) (config : Config) (sweeps : AllocSite → Nat) : Option Plan := do
  let sites ← facts.liveSites.mapM fun site => planSite facts config (sweeps site) site
  let locals ← localEscapes facts
  let placements := sites.foldl (fun table entry => upsert Prod.fst entry.1 table) []
  let escapes := keepFirst [] (sites.flatMap Prod.snd ++ locals)
  let placed : Plan := ⟨placements, [], Violation.sortByStart escapes⟩
  let deallocs ← planDeallocs facts placed
  return { placed with deallocs }

section Plan

variable (hvalid : f.validate = .ok ()) (h : facts.Over env f)
include hvalid h

/-- If a site is placed in a region, that region is declared. -/
theorem place_mirrors (config : Config) (hsite : site ∈ f.usage.allocations)
    (hholders : facts.holders site = .ok holders) (i : ι) :
    Mirrors (fun placement => ∀ r, placement = .region r → r < f.regions.length)
      (fun s => place facts config site holders (s i)) (facts.place config site holders) := by
  have hf := Func.valid_of_validate hvalid
  obtain ⟨l, hof⟩ := exists_of h hf
  obtain ⟨chosen, hchosen⟩ := Facts.boundingRegion?_isOk hvalid hof config hsite hholders
  replace hchosen : facts.boundingRegion? config site holders = .ok chosen := hchosen
  have hpoints := freePoints_mirrors h hf site holders i
  simp only [place, Facts.place, transfers_eq h hf, some_bind]
  split
  · simp only [boundingRegion_eq h hf hchosen, hchosen, some_bind, ok_bind]
    cases chosen with
    | some r =>
      refine .const rfl rfl fun q heq => ?_
      obtain rfl := Placement.region.inj heq
      obtain ⟨⟨decl, hdecl⟩, -⟩ := Facts.boundingRegion?_eq_some hvalid hof hchosen
      exact (List.getElem?_eq_some_iff.mp hdecl).1
    | none => exact hpoints.map fun points _ r heq => by cases heq
  · refine hpoints.map fun points _ r heq => ?_
    split at heq <;> cases heq

theorem planSite_mirrors (config : Config) (hsite : site ∈ f.usage.allocations) (i : ι) :
    Mirrors (fun entry => ∀ r, entry.1.2 = .region r → r < f.regions.length)
      (fun s => planSite facts config (s i) site) (facts.planSite config site) := by
  have hf := Func.valid_of_validate hvalid
  obtain ⟨l, hof⟩ := exists_of h hf
  obtain ⟨holders, hholders⟩ := Facts.holders_isOk hf hof site
  replace hholders : facts.holders site = .ok holders := hholders
  simp only [planSite, Facts.planSite, holdersOf_eq h hf hholders, hholders, some_bind, ok_bind,
    escapesOf_eq h hf]
  exact (place_mirrors hvalid h config hsite hholders i).map fun placement hregion => hregion

/-- The bulk frees can be listed if the placements are in declared regions. -/
theorem planDeallocs_mirrors {placed : Plan}
    (hregions : ∀ entry ∈ placed.placements, ∀ r, entry.2 = .region r → r < f.regions.length) :
    Mirrors (fun _ => True) (fun _ : ι → Nat => planDeallocs facts placed)
      (facts.planDeallocs placed) := by
  have hf := Func.valid_of_validate hvalid
  obtain ⟨l, hof⟩ := exists_of h hf
  have hmembers : ∀ r, placed.members r ≠ [] → r < f.regions.length := by
    intro r hne
    obtain ⟨alloc, halloc⟩ := List.exists_mem_of_ne_nil _ hne
    obtain ⟨entry, hentry, -⟩ := List.mem_map.mp halloc
    obtain ⟨hentry, hregion⟩ := List.mem_filter.mp hentry
    exact hregions entry hentry r (of_decide_eq_true hregion)
  obtain ⟨deallocs, hdeallocs⟩ := Facts.planDeallocs_isOk hof hmembers
  exact .const hdeallocs (planDeallocs_eq h hf hdeallocs) trivial

/-- There is a plan after any number of sweeps for each site. -/
theorem plan_mirrors (config : Config) (i : AllocSite → ι) :
    Mirrors (fun _ => True) (fun s => plan facts config fun site => s (i site))
      (facts.plan config) := by
  have hf := Func.valid_of_validate hvalid
  obtain ⟨l, hof⟩ := exists_of h hf
  have hsites : Mirrors (fun sites => ∀ entry ∈ sites, ∀ r, entry.1.2 = .region r →
      r < f.regions.length)
      (fun s : ι → Nat => facts.liveSites.mapM fun site => planSite facts config (s (i site)) site)
      (facts.liveSites.mapM (facts.planSite config)) := by
    refine .mapM fun site hsite => ?_
    have hsite' : site ∈ f.usage.allocations := h.usage ▸ List.mem_of_mem_filter hsite
    exact planSite_mirrors hvalid h config hsite' (i site)
  have hlocals := Facts.localEscapes_eq hof hf
  replace hlocals : facts.localEscapes = .ok _ := hlocals
  simp only [plan, Facts.plan, hlocals, localEscapes_eq h hf hlocals, some_bind, ok_bind]
  refine hsites.bind fun sites hregions => (planDeallocs_mirrors hvalid h ?_).map fun _ _ => trivial
  intro entry hentry r hr
  rcases mem_of_mem_foldl_upsert hentry with hmem | ⟨planned, hplanned, rfl⟩
  · cases hmem
  · exact hregions planned hplanned r hr

end Plan

end Indexed

end Tenure

import Tenure.Proofs.Ir.Regions
import Tenure.Proofs.Placement
import Tenure.Proofs.Table

/-!
# A region frees its members once

A path that makes an allocation is inside the region that the allocation was placed in. The region
frees its members on the edges that lead out of it and at the returns inside it, once on each, and
nowhere else. So the path meets the free exactly when it leaves the region
(`Facts.region_frees_members_on_leaving`). It always leaves before it ends, and, unless the region is
an arena, before it makes the allocation again: a region with a way back to the site was not chosen.
-/

namespace Tenure

open Relation

/-- The bulk frees of a region on one way out of a block. -/
def Plan.deallocsAt (plan : Plan) (r : RegionId) (e : BlockId × Option BlockId) : List Dealloc :=
  (plan.deallocsOf r).filter fun d => d.exit.source = e.1 && d.exit.target = e.2

namespace Func

variable {f : Func} {r : RegionId} {b : BlockId} {p q : Point} {path : List Point}
  {e : BlockId × Option BlockId}

/-! ## Ways out of blocks -/

/-- The ways out of blocks that a path takes: the jumps between its points and a return at its end,
which has no target. -/
def exitsAlong (f : Func) : List Point → List (BlockId × Option BlockId)
  | [] => []
  | [p] => if f.returnsAt p then [(p.block, none)] else []
  | p :: q :: rest =>
    (if q.index = 0 then [(p.block, some q.block)] else []) ++ f.exitsAlong (q :: rest)

/-- The block has this way out. -/
def IsExit (f : Func) (e : BlockId × Option BlockId) : Prop :=
  ∃ block, f.blocks[e.1]? = some block ∧
    match e.2 with
    | some c => c ∈ block.successors
    | none => block.isReturn = true

/-- The way out of the block leads out of the region. -/
def Leaves (f : Func) (r : RegionId) (e : BlockId × Option BlockId) : Prop :=
  f.Inside r e.1 ∧ ∀ c, e.2 = some c → ¬ f.Inside r c

/-- The region is an arena. -/
def IsArena (f : Func) (r : RegionId) : Prop :=
  ∃ decl, f.regions[r]? = some decl ∧ decl.kind = .arena

theorem isExit_of_returnsAt (h : f.returnsAt p = true) : f.IsExit (p.block, none) := by
  unfold returnsAt at h
  cases hb : f.blocks[p.block]? with
  | none => simp [hb] at h
  | some block =>
    simp only [hb, Option.any_some, Bool.and_eq_true] at h
    exact ⟨block, hb, h.1⟩

theorem Next.isExit (h : f.Next p q) (hq : q.index = 0) : f.IsExit (p.block, some q.block) := by
  cases h with
  | within hb hi => simp at hq
  | jump hb hc => exact ⟨_, hb, hc⟩

theorem isExit_of_mem_exitsAlong (hchain : path.IsChain f.Next) (he : e ∈ f.exitsAlong path) :
    (∃ p ∈ path, p.block = e.1) ∧ f.IsExit e := by
  induction path with
  | nil => simp [exitsAlong] at he
  | cons p rest ih =>
    cases rest with
    | nil =>
      unfold exitsAlong at he
      split at he
      next hreturn =>
        obtain rfl := List.mem_singleton.mp he
        exact ⟨⟨p, by simp, rfl⟩, isExit_of_returnsAt hreturn⟩
      next => simp at he
    | cons q rest =>
      obtain ⟨hstep, hchain⟩ := List.isChain_cons_cons.mp hchain
      unfold exitsAlong at he
      rcases List.mem_append.mp he with he | he
      · split at he
        next hq =>
          obtain rfl := List.mem_singleton.mp he
          exact ⟨⟨p, by simp, rfl⟩, hstep.isExit hq⟩
        next => simp at he
      · obtain ⟨⟨p', hp', hblock⟩, hexit⟩ := ih hchain he
        exact ⟨⟨p', List.mem_cons_of_mem _ hp', hblock⟩, hexit⟩

/-- A path that starts inside a region and never leaves it stays inside. -/
theorem inside_of_not_leaves {rest : List Point} (hchain : (p :: rest).IsChain f.Next)
    (hp : f.Inside r p.block) (hstay : ∀ e ∈ f.exitsAlong (p :: rest), ¬ f.Leaves r e) :
    ∀ q ∈ p :: rest, f.Inside r q.block := by
  induction rest generalizing p with
  | nil => simpa using hp
  | cons q rest ih =>
    obtain ⟨hstep, hchain⟩ := List.isChain_cons_cons.mp hchain
    have hq : f.Inside r q.block := by
      cases hstep with
      | within hb hi => exact hp
      | @jump b c block hb hc =>
        by_contra hout
        refine hstay (b, some c) (by simp [exitsAlong]) ⟨hp, ?_⟩
        intro c' hc'
        obtain rfl := Option.some.inj hc'
        exact hout
    have hrest := ih hchain hq fun e he => hstay e (List.mem_append_right _ he)
    intro q' hq'
    rcases List.mem_cons.mp hq' with rfl | hq'
    · exact hp
    · exact hrest q' hq'

theorem mem_exitsAlong_of_return (h : f.returnsAt p = true) (front : List Point) :
    (p.block, none) ∈ f.exitsAlong (front ++ [p]) := by
  induction front with
  | nil => simp [exitsAlong, h]
  | cons q front ih =>
    cases front with
    | nil => exact List.mem_append_right _ ih
    | cons q' front => exact List.mem_append_right _ ih

/-! ## Coming back -/

/-- The search finds out whether control can come back to a block over edges into the scope. -/
theorem onCycle_iff (hf : f.Valid) {scope : List BlockId} : f.onCycle scope b = true ↔
    TransGen (Graph.Edge fun c => (f.successors c).filter scope.contains) b b := by
  have hinside : ∀ v, ∀ w ∈ (f.successors v).filter scope.contains,
      w ∈ Finset.range f.blocks.length :=
    fun v w hw => successors_subset hf v w (List.mem_filter.mp hw).1
  have hroots : ∀ v ∈ (f.successors b).filter scope.contains,
      Graph.Bounded (fun c => (f.successors c).filter scope.contains) (f.blocks.length + 1) v :=
    fun v hv => ⟨_, hinside b v hv, by simp, fun v _ => hinside v⟩
  unfold onCycle
  rw [List.contains_iff_mem, Graph.mem_reach_iff hroots, TransGen.head'_iff]
  rfl

/-- Going back to a point within some blocks means going round a cycle of these blocks. -/
theorem onCycle_of_transGen (hf : f.Valid) {scope : List BlockId}
    (h : TransGen (fun p q => f.Next p q ∧ q.block ∈ scope) p p) : f.onCycle scope p.block = true := by
  let inside := fun c => (f.successors c).filter scope.contains
  have hedge : ∀ {p q : Point}, f.Next p q ∧ q.block ∈ scope →
      (p.block = q.block ∧ p.index < q.index) ∨ Graph.Edge inside p.block q.block := by
    rintro p q ⟨hstep, hscope⟩
    cases hstep with
    | within hb hi => exact Or.inl ⟨rfl, Nat.lt_succ_self _⟩
    | jump hb hc =>
      refine Or.inr (List.mem_filter.mpr ⟨?_, by simpa using hscope⟩)
      rw [successors_eq hb]
      exact hc
  -- within one block the index grows, so the way back takes at least one edge
  have hwalk : ∀ {p q : Point}, TransGen (fun p q => f.Next p q ∧ q.block ∈ scope) p q →
      (p.block = q.block ∧ p.index < q.index) ∨ TransGen (Graph.Edge inside) p.block q.block := by
    intro p q hpath
    induction hpath with
    | single hstep => exact (hedge hstep).imp_right TransGen.single
    | tail _ hstep ih =>
      rcases ih with ⟨hblock, hlt⟩ | hcycle <;> rcases hedge hstep with ⟨hblock', hlt'⟩ | hstep
      · exact Or.inl ⟨hblock.trans hblock', hlt.trans hlt'⟩
      · exact Or.inr (hblock ▸ TransGen.single hstep)
      · exact Or.inr (hblock' ▸ hcycle)
      · exact Or.inr (hcycle.tail hstep)
  rcases hwalk h with ⟨-, hlt⟩ | hcycle
  · exact absurd hlt (Nat.lt_irrefl _)
  · exact (onCycle_iff hf).mpr hcycle

/-! ## The listed exits -/

theorem successors_nodup (block : Block) : block.successors.Nodup := by
  unfold Block.successors
  split
  next t _ =>
    cases t.kind with
    | goto target => simp [TerminatorKind.successors]
    | branch cond onTrue onFalse =>
      by_cases heq : onTrue = onFalse <;> simp [TerminatorKind.successors, heq]
    | ret value => simp [TerminatorKind.successors]
    | unreachable => simp [TerminatorKind.successors]
  next => simp

/-- The listed ways out of one block inside a region. -/
def exitsOf (f : Func) (decl : Region) (inside : List BlockId) (source : BlockId) :
    List RegionExit :=
  match f.blocks[source]? with
  | some block =>
    if block.isReturn then
      [⟨if decl.kind.isExplicit then .earlyReturn else .fallThrough, source, none⟩]
    else
      (block.successors.filter fun target => !inside.contains target).map fun target =>
        ⟨if decl.exit = some target then .fallThrough else .jumpOut, source, some target⟩
  | none => []

theorem regionExits_eq {decl : Region} (hdecl : f.regions[r]? = some decl)
    (reachable : List BlockId) :
    f.regionExits reachable r = .ok ((reachable.filter (f.blocksIn r).contains).flatMap
      (f.exitsOf decl (f.blocksIn r))) := by
  have hregion : f.region r = .ok decl := lookup_eq_ok.mpr hdecl
  rw [regionExits, hregion]
  rfl

section

variable {decl : Region} {inside : List BlockId} {source : BlockId} {x : RegionExit}

theorem mem_exitsOf (h : x ∈ f.exitsOf decl inside source) :
    x.source = source ∧ ∀ c, x.target = some c → c ∉ inside := by
  unfold exitsOf at h
  split at h
  next =>
    split at h
    next =>
      obtain rfl := List.mem_singleton.mp h
      simp
    next =>
      obtain ⟨target, htarget, rfl⟩ := List.mem_map.mp h
      refine ⟨rfl, fun c hc => ?_⟩
      obtain rfl := Option.some.inj hc
      simpa using (List.mem_filter.mp htarget).2
  next => simp at h

/-- Each way out of a block that leads out of the region is listed once. -/
theorem filter_exitsOf (decl : Region) (hexit : f.IsExit e) (hout : ∀ c, e.2 = some c → c ∉ inside) :
    ∃ kind, ((f.exitsOf decl inside e.1).filter fun x => x.source = e.1 && x.target = e.2) =
      [⟨kind, e.1, e.2⟩] := by
  obtain ⟨source, target⟩ := e
  obtain ⟨block, hb, hexit⟩ := hexit
  dsimp only at hb hexit hout ⊢
  unfold exitsOf
  rw [hb]
  cases target with
  | none =>
    dsimp only at hexit ⊢
    rw [if_pos hexit]
    exact ⟨_, by simp; rfl⟩
  | some c =>
    dsimp only at hexit ⊢
    have hreturn : ¬ block.isReturn = true := by
      intro hreturn
      simp [successors_of_isReturn hreturn] at hexit
    have honce : (block.successors.filter fun target => !inside.contains target).filter
        (fun target => target = c) = [c] := by
      rw [List.filter_eq, List.count_eq_one_of_mem]
      · rfl
      · exact (successors_nodup block).filter _
      · exact List.mem_filter.mpr ⟨hexit, by simpa using hout c rfl⟩
    rw [if_neg hreturn, List.filter_map]
    refine ⟨if decl.exit = some c then .fallThrough else .jumpOut, ?_⟩
    simp only [Function.comp_def, decide_true, Bool.true_and, Option.some.injEq]
    rw [honce]
    rfl

end

end Func

namespace Facts

variable {env : Environment} {f : Func} {facts : Facts} {config : Config} {plan : Plan}
  {site : AllocSite} {r : RegionId} {e : BlockId × Option BlockId}

/-! ## The bulk frees of a region -/

/-- The bulk frees of one region. -/
def regionFrees (facts : Facts) (plan : Plan) (decl : Region) : List Dealloc :=
  if (plan.members decl.id).isEmpty then []
  else
    ((facts.solution.reachable.filter (facts.func.blocksIn decl.id).contains).flatMap
      (facts.func.exitsOf decl (facts.func.blocksIn decl.id))).map fun exit =>
        ⟨decl.id, exit, plan.members decl.id⟩

theorem region_of_mem_regionFrees {decl : Region} {d : Dealloc}
    (h : d ∈ facts.regionFrees plan decl) : d.region = decl.id := by
  unfold regionFrees at h
  split at h
  next => simp at h
  next =>
    obtain ⟨exit, -, rfl⟩ := List.mem_map.mp h
    rfl

section Ids

-- every region is declared under the id that is its position
variable (hids : ∀ (i : Nat) decl, f.regions[i]? = some decl → decl.id = i)
include hids

theorem regions_nodup : f.regions.Nodup := by
  refine List.nodup_iff_getElem?_ne_getElem?.mpr fun i j hij hj heq => ?_
  have hdecl := List.getElem?_eq_getElem hj
  exact Nat.ne_of_lt hij ((hids i _ (heq.trans hdecl)).symm.trans (hids j _ hdecl))

theorem planDeallocs_eq (h : facts.Of env f) :
    facts.planDeallocs plan = .ok (f.regions.reverse.flatMap (facts.regionFrees plan)) := by
  obtain rfl := h.func
  unfold planDeallocs
  rw [mapM_eq_ok_map, ok_bind, ← List.flatMap_def]
  · rfl
  · intro decl hdecl
    obtain ⟨i, hi⟩ := List.mem_iff_getElem?.mp (List.mem_reverse.mp hdecl)
    have hget : facts.func.regions[decl.id]? = some decl := by
      rw [hids i decl hi]
      exact hi
    unfold regionFrees
    by_cases hempty : (plan.members decl.id).isEmpty
    · simp only [hempty, if_true]
      rfl
    · simp only [hempty, Func.regionExits_eq hget]
      rfl

/-- A region with members frees all of them on each of its exits. -/
theorem deallocsOf_eq (h : facts.Of env f) (hplan : facts.planDeallocs plan = .ok plan.deallocs)
    {decl : Region} (hdecl : f.regions[r]? = some decl) :
    plan.deallocsOf r = facts.regionFrees plan decl := by
  have hmem : decl ∈ f.regions.reverse := List.mem_reverse.mpr (List.mem_of_getElem? hdecl)
  rw [planDeallocs_eq hids h] at hplan
  unfold Plan.deallocsOf
  rw [← Except.ok.inj hplan, List.filter_flatMap,
    Table.flatMap_eq_single (List.nodup_reverse.mpr (regions_nodup hids)) hmem]
  · rw [List.filter_eq_self]
    intro d hd
    rw [region_of_mem_regionFrees hd, hids r decl hdecl]
    exact decide_eq_true rfl
  · -- the frees of another declaration are of another region
    intro other hother hne
    rw [List.filter_eq_nil_iff]
    intro d hd hregion
    obtain ⟨i, hi⟩ := List.mem_iff_getElem?.mp (List.mem_reverse.mp hother)
    have hir : i = r := by
      rw [← hids i other hi, ← region_of_mem_regionFrees hd]
      exact of_decide_eq_true hregion
    rw [hir, hdecl] at hi
    exact hne (Option.some.inj hi).symm

variable (hf : f.Valid) (h : facts.Of env f)
  (hplan : facts.planDeallocs plan = .ok plan.deallocs) {decl : Region}
  (hdecl : f.regions[r]? = some decl)
include hf h hplan hdecl

/-- On each way out of a region its members are freed once. -/
theorem deallocsAt_of_leaves (hmembers : plan.members r ≠ [])
    (hreach : e.1 ∈ facts.solution.reachable) (hexit : f.IsExit e) (hleaves : f.Leaves r e) :
    ∃ kind, plan.deallocsAt r e = [⟨r, ⟨kind, e.1, e.2⟩, plan.members r⟩] := by
  obtain ⟨order, horder, ht⟩ := Func.reversePostorder_spec hf
  have hid := hids r decl hdecl
  have hout : ∀ c, e.2 = some c → c ∉ f.blocksIn r := by
    intro c hc
    rw [Func.mem_blocksIn hf]
    exact hleaves.2 c hc
  obtain ⟨kind, honce⟩ := Func.filter_exitsOf decl hexit hout
  have hsource : e.1 ∈ facts.solution.reachable.filter (f.blocksIn r).contains := by
    refine List.mem_filter.mpr ⟨hreach, ?_⟩
    rw [List.contains_iff_mem, Func.mem_blocksIn hf]
    exact hleaves.1
  have hnodup := (h.solved.reachable_spec horder ht).1.filter (f.blocksIn r).contains
  refine ⟨kind, ?_⟩
  unfold Plan.deallocsAt
  rw [deallocsOf_eq hids h hplan hdecl, regionFrees, hid, if_neg (by simpa using hmembers),
    List.filter_map, h.func]
  simp only [Function.comp_def]
  rw [List.filter_flatMap, Table.flatMap_eq_single hnodup hsource, honce]
  · rfl
  · -- the ways out of another block start there
    intro b _ hne
    rw [List.filter_eq_nil_iff]
    intro x hx hcond
    rw [(Func.mem_exitsOf hx).1] at hcond
    exact hne (of_decide_eq_true (Bool.and_eq_true_iff.mp hcond).1)

theorem deallocsAt_of_not_leaves (hstay : ¬ f.Leaves r e) : plan.deallocsAt r e = [] := by
  unfold Plan.deallocsAt
  rw [List.filter_eq_nil_iff, deallocsOf_eq hids h hplan hdecl]
  intro d hd hcond
  simp only [Bool.and_eq_true, decide_eq_true_eq] at hcond
  unfold regionFrees at hd
  split at hd
  next => simp at hd
  next =>
    rw [h.func, hids r decl hdecl] at hd
    obtain ⟨exit, hexit, rfl⟩ := List.mem_map.mp hd
    obtain ⟨source, hsource, hexit⟩ := List.mem_flatMap.mp hexit
    obtain ⟨heq, hout⟩ := Func.mem_exitsOf hexit
    obtain rfl : source = e.1 := heq.symm.trans hcond.1
    refine hstay ⟨?_, fun c hc => ?_⟩
    · rw [← Func.mem_blocksIn hf, ← List.contains_iff_mem]
      exact (List.mem_filter.mp hsource).2
    · rw [← Func.mem_blocksIn hf]
      exact hout c (hcond.2.trans hc)

end Ids

/-! ## The chosen region -/

theorem firstArena?_eq_some {rs : List RegionId} (h : f.firstArena? rs = .ok (some r)) :
    r ∈ rs ∧ f.IsArena r := by
  induction rs with
  | nil => simp [Func.firstArena?] at h
  | cons s rest ih =>
    unfold Func.firstArena? at h
    obtain ⟨decl, hdecl, h⟩ := bind_eq_ok.mp h
    split at h
    next hkind =>
      obtain rfl := Option.some.inj (pure_eq_ok.mp h)
      exact ⟨List.mem_cons_self, decl, lookup_eq_ok.mp hdecl, hkind⟩
    next =>
      obtain ⟨hmem, harena⟩ := ih h
      exact ⟨List.mem_cons_of_mem _ hmem, harena⟩

theorem nested_coveringRegion (hvalid : f.validate = .ok ()) (h : facts.Of env f)
    (declared : List RegionId) {s : RegionId} (hs : s < f.regions.length) :
    f.Nested s (facts.coveringRegion s declared) := by
  obtain rfl := h.func
  unfold coveringRegion
  cases hfind : (facts.func.regionAncestors s).find? fun r =>
      declared.all fun d => facts.func.regionWithin d r with
  | none => exact Func.nested_body hvalid hs
  | some r => exact Func.nested_of_mem_regionAncestors (List.mem_of_find?_eq_some hfind)

/-- The last step of the choice takes the region as it is or drops it. -/
theorem eq_of_usable {s : RegionId} (h : (f.region s >>= fun decl =>
      pure (if decl.kind ≠ .body || config.implicitFunctionRegion then some s else none)) =
        (.ok (some r) : Except Fault (Option RegionId))) :
    s = r ∧ ∃ decl, f.regions[r]? = some decl := by
  obtain ⟨decl, hdecl, h⟩ := bind_eq_ok.mp h
  replace h := pure_eq_ok.mp h
  split at h
  next =>
    obtain rfl := Option.some.inj h
    exact ⟨rfl, decl, lookup_eq_ok.mp hdecl⟩
  next => simp at h

/-- The chosen region is declared and lies around the site, and it is an arena if control can come
back to the site inside it. -/
theorem boundingRegion?_eq_some (hvalid : f.validate = .ok ()) (h : facts.Of env f)
    {holders : Holders} (hregion : facts.boundingRegion? config site holders = .ok (some r)) :
    (∃ decl, f.regions[r]? = some decl) ∧ f.Inside r site.point.block ∧
      (f.onCycle ((f.blocksIn r).filter facts.solution.reachable.contains) site.point.block = true →
        f.IsArena r) := by
  simp only [boundingRegion?, h.func] at hregion
  obtain ⟨block, hblock, hregion⟩ := bind_eq_ok.mp hregion
  obtain ⟨declared, -, hregion⟩ := bind_eq_ok.mp hregion
  replace hblock := lookup_eq_ok.mp hblock
  have hlt : block.region < f.regions.length := by
    have hrange := (Func.blocks_of_validate hvalid).2.1
    exact (hrange block (List.mem_of_getElem? hblock)).region_lt
  have hcovering := nested_coveringRegion hvalid h declared hlt
  split at hregion
  next hcycle =>
    obtain ⟨chosen, hchosen, hregion⟩ := bind_eq_ok.mp hregion
    cases chosen with
    | none => simp [pure_eq_ok] at hregion
    | some s =>
      obtain ⟨rfl, hdecl⟩ := eq_of_usable hregion
      obtain ⟨hmem, harena⟩ := firstArena?_eq_some hchosen
      have hnested := hcovering.trans (Func.nested_of_mem_regionAncestors hmem)
      exact ⟨hdecl, ⟨block, hblock, hnested⟩, fun _ => harena⟩
  next hcycle =>
    obtain ⟨chosen, hchosen, hregion⟩ := bind_eq_ok.mp hregion
    obtain rfl := Except.ok.inj hchosen
    obtain ⟨rfl, hdecl⟩ := eq_of_usable hregion
    exact ⟨hdecl, ⟨block, hblock, hcovering⟩, fun hback => absurd hback hcycle⟩

/-! ## Paths from a site -/

/-- For a valid function in which regions are declared under their positions, and for an allocation
that the plan leaves to a region, take any path that starts where the allocation is made. Where the
path first leaves the region, the plan has exactly one bulk free of the region, which lists the
allocation, and it has none on the path before. A path that ends in a return leaves the region. A
path that comes back to the allocation leaves it too, unless the region is an arena. -/
theorem region_frees_members_on_leaving (env : Environment) (f : Func) (config : Config)
    (hvalid : env.program.validateFunction f = .ok ())
    (hids : ∀ (i : Nat) decl, f.regions[i]? = some decl → decl.id = i) :
    ∃ facts, env.facts f = .ok facts ∧ ∀ plan, facts.plan config = .ok plan →
      ∀ site ∈ f.usage.allocations, ∀ r, (site.alloc, .region r) ∈ plan.placements →
        ∀ rest, (site.point :: rest).IsChain f.Next →
          (∀ front e after, f.exitsAlong (site.point :: rest) = front ++ e :: after →
            f.Leaves r e → (∀ e' ∈ front, ¬ f.Leaves r e') →
              site.alloc ∈ plan.members r ∧
              (∃ kind, plan.deallocsAt r e = [⟨r, ⟨kind, e.1, e.2⟩, plan.members r⟩]) ∧
              ∀ e' ∈ front, plan.deallocsAt r e' = []) ∧
          ((∃ p, (site.point :: rest).getLast? = some p ∧ f.returnsAt p = true) →
            ∃ e ∈ f.exitsAlong (site.point :: rest), f.Leaves r e) ∧
          (¬ f.IsArena r → rest.getLast? = some site.point →
            ∃ e ∈ f.exitsAlong (site.point :: rest), f.Leaves r e) := by
  obtain ⟨hvalid', facts, hfacts, h⟩ := env.facts_of_validateFunction hvalid
  have hf := Func.valid_of_validate hvalid'
  obtain ⟨order, horder, ht⟩ := Func.reversePostorder_spec hf
  have hreachable := (h.solved.reachable_spec horder ht).2
  refine ⟨facts, hfacts, fun plan hplan site hsite r hmem rest hchain => ?_⟩
  obtain ⟨hreach, holders, -, hplace⟩ := placed hvalid' h hplan hsite hmem
  have hchosen : facts.boundingRegion? config site holders = .ok (some r) := by
    rcases place_eq_ok hplace with ⟨s, heq, hchosen⟩ | ⟨points, heq, -⟩ | ⟨heq, -⟩
    · cases heq
      exact hchosen
    · cases heq
    · cases heq
  obtain ⟨⟨decl, hdecl⟩, hinside, harena⟩ := boundingRegion?_eq_some hvalid' h hchosen
  obtain ⟨-, -, -, hdeallocs⟩ := plan_eq_ok hplan
  have hmember : site.alloc ∈ plan.members r :=
    List.mem_map.mpr ⟨_, List.mem_filter.mpr ⟨hmem, decide_eq_true rfl⟩, rfl⟩
  have hblocks : ∀ q ∈ site.point :: rest, q.block ∈ facts.solution.reachable := by
    intro q hq
    rw [hreachable]
    exact (ht.reachable_iff.mp (hreach.trans (Func.chain_reflTransGen hchain hq))).1
  refine ⟨?_, ?_, ?_⟩
  · intro front e after hexits hleaves hstay
    obtain ⟨⟨q, hq, hblock⟩, hexit⟩ := Func.isExit_of_mem_exitsAlong hchain
      (hexits ▸ List.mem_append_right _ List.mem_cons_self)
    refine ⟨hmember, ?_, fun e' he' => ?_⟩
    · exact deallocsAt_of_leaves hids hf h hdeallocs hdecl (List.ne_nil_of_mem hmember)
        (hblock ▸ hblocks q hq) hexit hleaves
    · exact deallocsAt_of_not_leaves hids hf h hdeallocs hdecl (hstay e' he')
  · rintro ⟨p, hlast, hreturn⟩
    by_contra hstay
    push Not at hstay
    have hp := Func.inside_of_not_leaves hchain hinside hstay p (List.mem_of_getLast? hlast)
    obtain ⟨front, hpath⟩ : ∃ front, site.point :: rest = front ++ [p] :=
      ⟨_, (List.dropLast_append_getLast? p hlast).symm⟩
    refine hstay (p.block, none) (hpath ▸ Func.mem_exitsAlong_of_return hreturn front) ⟨hp, ?_⟩
    simp
  · intro hnot hlast
    by_contra hstay
    push Not at hstay
    have hall := Func.inside_of_not_leaves hchain hinside hstay
    rw [← List.dropLast_append_getLast? _ hlast] at hchain hall hblocks
    have hscope : ∀ q ∈ site.point :: (rest.dropLast ++ [site.point]),
        q.block ∈ (f.blocksIn r).filter facts.solution.reachable.contains := by
      intro q hq
      refine List.mem_filter.mpr ⟨(Func.mem_blocksIn hf).mpr (hall q hq), ?_⟩
      exact List.contains_iff_mem.mpr (hblocks q hq)
    have hstays : (site.point :: (rest.dropLast ++ [site.point])).IsChain fun p q =>
        f.Next p q ∧ q.block ∈ (f.blocksIn r).filter facts.solution.reachable.contains :=
      hchain.imp_of_mem_imp fun p q _ hq hstep => ⟨hstep, hscope q hq⟩
    have hback := TransGen.mono (fun _ _ => And.right) _ _
      (Func.chain_transGen hstays fun _ _ => True.intro)
    exact hnot (harena (Func.onCycle_of_transGen hf hback))

/-- Round after round, enters a region, makes a value in it, looks at the value and leaves. -/
def regionInLoop : Func where
  id := 0
  name := "poll"
  span := ⟨0, 40⟩
  params := []
  bindings := [⟨"x", .named "Data", .letBound, 1, none, ⟨1, 2⟩⟩]
  blocks := [
    ⟨0, 0, [], some ⟨.goto 1, ⟨3, 4⟩⟩⟩,
    ⟨1, 1,
      [⟨.assign 0 (.alloc 0 []), ⟨5, 6⟩⟩,
        ⟨.eval (.call (.foreign "inspect") [.binding ⟨0, none, ⟨8, 9⟩⟩]), ⟨7, 9⟩⟩],
      some ⟨.goto 2, ⟨10, 11⟩⟩⟩,
    ⟨2, 0, [], some ⟨.branch (.constant (.bool true)) 1 3, ⟨12, 13⟩⟩⟩,
    ⟨3, 0, [], some ⟨.ret none, ⟨30, 36⟩⟩⟩]
  regions := [⟨0, .body, none, none, ⟨0, 40⟩⟩, ⟨1, .region, some 0, some 2, ⟨5, 11⟩⟩]
  allocations := [⟨5, 6⟩]
  isAsync := false

/-- The foreign function `inspect` borrows its argument. -/
def inspectingEnv : Environment := .ofForeigns [⟨"inspect", [some .borrow]⟩]

/-- On the way round the loop the value is freed once, on the edge that leaves the region, and the
loop cannot be gone round without leaving it. -/
theorem regionInLoop_freed_each_round :
    inspectingEnv.program.validateFunction regionInLoop = .ok () ∧
    ∃ facts plan, inspectingEnv.facts regionInLoop = .ok facts ∧
      facts.plan .default = .ok plan ∧ (0, .region 1) ∈ plan.placements ∧
      regionInLoop.exitsAlong [⟨1, 0⟩, ⟨1, 1⟩, ⟨1, 2⟩, ⟨2, 0⟩, ⟨1, 0⟩] = [(1, some 2), (2, some 1)] ∧
      (∃ e ∈ [(1, some 2), (2, some 1)], regionInLoop.Leaves 1 e) ∧
      ∃ kind, plan.deallocsAt 1 (1, some 2) = [⟨1, ⟨kind, 1, some 2⟩, plan.members 1⟩] := by
  have hvalid : inspectingEnv.program.validateFunction regionInLoop = .ok () := by decide +kernel
  have hrun : (inspectingEnv.facts regionInLoop >>= fun facts => facts.plan .default >>= fun plan =>
      pure plan.placements) = .ok [(0, .region 1)] := by decide +kernel
  have hids : ∀ (i : Nat) decl, regionInLoop.regions[i]? = some decl → decl.id = i := by
    intro i decl hi
    rcases i with _ | _ | i
    · obtain rfl := Option.some.inj hi
      rfl
    · obtain rfl := Option.some.inj hi
      rfl
    · simp [regionInLoop] at hi
  obtain ⟨facts, hfacts, hall⟩ :=
    region_frees_members_on_leaving inspectingEnv regionInLoop .default hvalid hids
  rw [hfacts, ok_bind] at hrun
  obtain ⟨plan, hplan, hplacements⟩ := bind_eq_ok.mp hrun
  have hmem : (0, .region 1) ∈ plan.placements := by
    rw [pure_eq_ok.mp hplacements]
    exact List.mem_singleton.mpr rfl
  have hchain : [(⟨1, 0⟩ : Point), ⟨1, 1⟩, ⟨1, 2⟩, ⟨2, 0⟩, ⟨1, 0⟩].IsChain regionInLoop.Next := by
    have hbody : regionInLoop.blocks[1]? = some (regionInLoop.blocks.get ⟨1, by decide⟩) := rfl
    have hhead : regionInLoop.blocks[2]? = some (regionInLoop.blocks.get ⟨2, by decide⟩) := rfl
    simp only [List.isChain_cons_cons, List.isChain_singleton, and_true]
    exact ⟨.within hbody (by decide), .within hbody (by decide), .jump hbody (by decide),
      .jump hhead (by decide)⟩
  have hexits : regionInLoop.exitsAlong [⟨1, 0⟩, ⟨1, 1⟩, ⟨1, 2⟩, ⟨2, 0⟩, ⟨1, 0⟩] =
      [(1, some 2), (2, some 1)] := by decide
  have harena : ¬ regionInLoop.IsArena 1 := by
    rintro ⟨decl, hdecl, hkind⟩
    obtain rfl := Option.some.inj hdecl
    cases hkind
  have hleaves : regionInLoop.Leaves 1 (1, some 2) := by
    refine ⟨⟨_, rfl, Func.regionWithin_iff.mp (by decide)⟩, ?_⟩
    rintro c hc ⟨block, hb, hnested⟩
    obtain rfl := Option.some.inj hc
    obtain rfl := Option.some.inj hb
    rw [← Func.regionWithin_iff] at hnested
    exact absurd hnested (by decide)
  obtain ⟨hfirst, -, hround⟩ := hall plan hplan ⟨0, some 0, ⟨1, 0⟩, ⟨5, 6⟩⟩ (by decide) 1 hmem _ hchain
  rw [hexits] at hfirst hround
  obtain ⟨-, hfreed, -⟩ := hfirst [] _ _ rfl hleaves (by simp)
  exact ⟨hvalid, facts, plan, hfacts, hplan, hmem, hexits, hround harena rfl, hfreed⟩

end Facts

end Tenure

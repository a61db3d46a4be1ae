import Tenure.Proofs.Ir.Paths
import Tenure.Proofs.Usage.Tables

/-!
# What the collected usage says about a point

In a function whose blocks are numbered by their positions every program point has one step. The uses
recorded there are the accesses of that step, numbered in a row and with one group number
(`Func.usesAt_eq`), and the definition is the target of its assignment (`Func.definitionAt_eq`).
-/

namespace Tenure

/-- The binding that a step initialises. -/
def Step.dest? : Step → Option BindingId
  | .statement ⟨.assign dest _, _⟩ => some dest
  | _ => none

/-- The allocation site that a step evaluates. -/
def Step.alloc? : Step → Option AllocId
  | .statement s => Func.statementSite? s
  | .terminator _ => none

namespace Func

variable {f : Func}

/-- What happens at a program point. -/
def step? (f : Func) (p : Point) : Option Step :=
  f.blocks[p.block]?.bind fun block => block.steps[p.index]?

theorem step?_eq_some {p : Point} {step : Step} :
    f.step? p = some step ↔ ∃ block, f.blocks[p.block]? = some block ∧
      block.steps[p.index]? = some step := by
  rw [step?, Option.bind_eq_some_iff]

/-- The points of a function are those where something happens. -/
theorem exists_step?_iff {p : Point} :
    (∃ step, f.step? p = some step) ↔ p ∈ f.pointsOf p.block := by
  constructor
  · rintro ⟨step, h⟩
    obtain ⟨block, hb, hstep⟩ := step?_eq_some.mp h
    have hlt := (List.getElem?_eq_some_iff.mp hstep).1
    simp only [Block.steps, List.length_append, List.length_map, List.length_singleton] at hlt
    exact (mem_pointsOf hb).mpr ⟨rfl, by omega⟩
  · intro hp
    cases hb : f.blocks[p.block]? with
    | none => simp [pointsOf, hb] at hp
    | some block =>
      have hle := ((mem_pointsOf hb).mp hp).2
      have hlt : p.index < block.steps.length := by simp [Block.steps]; omega
      exact ⟨_, step?_eq_some.mpr ⟨block, hb, List.getElem?_eq_getElem hlt⟩⟩

/-! ## Numbered blocks -/

/-- Every block stands at the position that its id says. -/
def Numbered (f : Func) : Prop := f.blocks.map Block.id = f.blockIds

theorem Numbered.id_eq (hf : f.Numbered) {b : BlockId} {block : Block}
    (hb : f.blocks[b]? = some block) : block.id = b :=
  Table.key_eq_of_getElem? hf hb

theorem Valid.numbered (hf : f.Valid) : f.Numbered := by
  refine List.ext_getElem (by simp [blockIds]) fun b hb _ => ?_
  have hlt : b < f.blocks.length := by simpa using hb
  rw [List.getElem_map, hf.id_eq (List.getElem?_eq_getElem hlt)]
  simp [blockIds]

/-! ## Sites -/

/-- The site of a point. -/
def siteAt (f : Func) (p : Point) (step : Step) : Site := ⟨p, step, f.successors p.block⟩

theorem mem_blockSites {block : Block} {s : Site} :
    s ∈ block.sites ↔ s.point.block = block.id ∧ block.steps[s.point.index]? = some s.step ∧
      s.successors = block.successors := by
  obtain ⟨⟨b, i⟩, step, succ⟩ := s
  simp only [Block.sites, List.mem_map, Prod.exists, Site.mk.injEq, Point.mk.injEq]
  constructor
  · rintro ⟨step', j, hmem, ⟨rfl, rfl⟩, rfl, rfl⟩
    exact ⟨rfl, List.mem_zipIdx_iff_getElem?.mp hmem, rfl⟩
  · rintro ⟨rfl, hstep, rfl⟩
    exact ⟨step, i, List.mem_zipIdx_iff_getElem?.mpr hstep, ⟨rfl, rfl⟩, rfl, rfl⟩

/-- The sites of a numbered function are its points with their steps. -/
theorem mem_sites (hf : f.Numbered) {s : Site} :
    s ∈ f.sites ↔ ∃ step, f.step? s.point = some step ∧ s = f.siteAt s.point step := by
  rw [sites, List.mem_flatMap]
  constructor
  · rintro ⟨block, hblock, hs⟩
    obtain ⟨i, hi⟩ := List.mem_iff_getElem?.mp hblock
    obtain ⟨hid, hstep, hsucc⟩ := mem_blockSites.mp hs
    rw [hf.id_eq hi] at hid
    subst hid
    refine ⟨s.step, step?_eq_some.mpr ⟨block, hi, hstep⟩, ?_⟩
    rw [siteAt, successors_eq hi, ← hsucc]
  · rintro ⟨step, hstep, hs⟩
    obtain ⟨block, hb, hget⟩ := step?_eq_some.mp hstep
    refine ⟨block, List.mem_of_getElem? hb, mem_blockSites.mpr ⟨(hf.id_eq hb).symm, ?_, ?_⟩⟩
    · rw [hget, hs]
      rfl
    · rw [hs]
      exact successors_eq hb

/-- The point `p` does not come after `q` in one block, and is not `q`. -/
def Precedes (p q : Point) : Prop := p.block = q.block → p.index < q.index

theorem blockSites_ordered (block : Block) :
    block.sites.Pairwise fun s t => Precedes s.point t.point := by
  have hpoints : block.sites.map Site.point =
      (List.range block.steps.length).map (Point.mk block.id) := by
    rw [Block.sites, List.map_map, List.range_eq_range', ← List.zipIdx_map_snd 0 block.steps,
      List.map_map]
    rfl
  rw [← List.pairwise_map (f := Site.point) (R := Precedes), hpoints, List.pairwise_map]
  refine List.pairwise_lt_range.imp fun hlt => ?_
  rw [Precedes]
  exact fun _ => hlt

/-- The sites of a numbered function stand in program order. -/
theorem sites_ordered (hf : f.Numbered) : f.sites.Pairwise fun s t => Precedes s.point t.point := by
  rw [sites, List.pairwise_flatMap]
  refine ⟨fun block _ => blockSites_ordered block, ?_⟩
  rw [List.pairwise_iff_getElem]
  intro i j hi hj hij s hs t ht heq
  have hsi := (mem_blockSites.mp hs).1
  have htj := (mem_blockSites.mp ht).1
  rw [hf.id_eq (List.getElem?_eq_getElem hi)] at hsi
  rw [hf.id_eq (List.getElem?_eq_getElem hj), ← heq, hsi] at htj
  exact absurd htj (Nat.ne_of_lt hij)

/-- No two sites of a numbered function are at one point. -/
theorem sites_points_nodup (hf : f.Numbered) : (f.sites.map Site.point).Nodup := by
  refine List.pairwise_map.mpr ((sites_ordered hf).imp fun hlt heq => ?_)
  rw [Precedes, heq] at hlt
  exact Nat.lt_irrefl _ (hlt rfl)

/-! ## Definitions -/

theorem definition?_eq_some {s : Site} {d : Definition} (h : s.definition? = some d) :
    d.point = s.point ∧ s.step.dest? = some d.binding := by
  rw [Site.definition?] at h
  split at h
  next dest value span hstep =>
    obtain rfl := Option.some.inj h
    exact ⟨rfl, by rw [hstep]; rfl⟩
  next => simp at h

theorem exists_definition? {s : Site} {b : BindingId} (h : s.step.dest? = some b) :
    ∃ d, s.definition? = some d := by
  rw [Step.dest?.eq_def] at h
  split at h
  next dest value span hstep => exact ⟨⟨dest, s.point, span⟩, by rw [Site.definition?, hstep]⟩
  next => simp at h

/-- The definition at a point is the target of the assignment there. -/
theorem Numbered.definitionAt_eq (hf : f.Numbered) (p : Point) :
    f.usage.definitionAt p = (f.step? p).bind Step.dest? := by
  have hsound : ∀ d ∈ f.usage.definitions, d.point = p →
      (f.step? p).bind Step.dest? = some d.binding := by
    intro d hd hp
    rw [usage_definitions] at hd
    obtain ⟨s, hs, hdef⟩ := List.mem_filterMap.mp hd
    obtain ⟨hpoint, hdest⟩ := definition?_eq_some hdef
    obtain ⟨step, hstep, hsite⟩ := (mem_sites hf).mp hs
    rw [← hp, hpoint, hstep, ← hdest, hsite]
    rfl
  rw [f.usage_consistent.definitionAt]
  cases hfind : f.usage.definitions.reverse.find? fun d => d.point = p with
  | some d =>
    have hmem := List.mem_of_find?_eq_some hfind
    exact (hsound d (by simpa using hmem) (by simpa using List.find?_some hfind)).symm
  | none =>
    rw [List.find?_eq_none] at hfind
    cases hdest : (f.step? p).bind Step.dest? with
    | none => rfl
    | some b =>
      obtain ⟨step, hstep, hb⟩ := Option.bind_eq_some_iff.mp hdest
      obtain ⟨d, hd⟩ := exists_definition? (s := f.siteAt p step) hb
      have hmem : d ∈ f.usage.definitions := by
        rw [usage_definitions]
        exact List.mem_filterMap.mpr ⟨_, (mem_sites hf).mpr ⟨step, hstep, rfl⟩, hd⟩
      have hpoint : d.point = p := (definition?_eq_some hd).1
      exact absurd (by simpa using hpoint) (hfind d (by simpa using hmem))

theorem definitionAt_eq (hf : f.Valid) (p : Point) :
    f.usage.definitionAt p = (f.step? p).bind Step.dest? :=
  hf.numbered.definitionAt_eq p

/-- A valid function defines declared bindings only. -/
theorem definitionAt_lt (hf : f.Valid) {p : Point} {b : BindingId}
    (h : f.usage.definitionAt p = some b) : b < f.bindings.length := by
  rw [definitionAt_eq hf, Option.bind_eq_some_iff] at h
  obtain ⟨step, hstep, hb⟩ := h
  obtain ⟨block, hblock, hget⟩ := step?_eq_some.mp hstep
  have hmem := List.mem_of_getElem? hget
  rw [Step.dest?.eq_def] at hb
  split at hb
  next dest value span =>
    obtain rfl := Option.some.inj hb
    simp only [Block.steps, List.mem_append, List.mem_map, List.mem_singleton] at hmem
    rcases hmem with ⟨s, hs, heq⟩ | heq
    · obtain rfl := Step.statement.inj heq
      exact hf.dest_lt (List.mem_of_getElem? hblock) hs
    · simp at heq
  next => simp at hb

/-! ## Allocations -/

theorem allocation?_eq_some {s : Site} {site : AllocSite} (h : s.allocation? = some site) :
    site.point = s.point ∧ s.step.dest? = site.dest := by
  unfold Site.allocation? at h
  split at h
  next hstep =>
    obtain rfl := Option.some.inj h
    exact ⟨rfl, by rw [hstep]; rfl⟩
  next hstep =>
    obtain rfl := Option.some.inj h
    exact ⟨rfl, by rw [hstep]; rfl⟩
  next hstep =>
    obtain rfl := Option.some.inj h
    exact ⟨rfl, by rw [hstep]; rfl⟩
  next => simp at h

theorem exists_site_of_allocation (hf : f.Valid) {site : AllocSite}
    (hsite : site ∈ f.usage.allocations) :
    ∃ step, f.step? site.point = some step ∧ step.dest? = site.dest := by
  rw [usage_allocations] at hsite
  obtain ⟨s, hs, halloc⟩ := List.mem_filterMap.mp hsite
  obtain ⟨hpoint, hdest⟩ := allocation?_eq_some halloc
  obtain ⟨step, hstep, heq⟩ := (mem_sites hf.numbered).mp hs
  rw [heq] at hdest
  exact ⟨step, hpoint ▸ hstep, hdest⟩

/-- The binding that takes an allocation is the one defined where it is evaluated. -/
theorem definitionAt_allocation (hf : f.Valid) {site : AllocSite}
    (hsite : site ∈ f.usage.allocations) : f.usage.definitionAt site.point = site.dest := by
  obtain ⟨step, hstep, hdest⟩ := exists_site_of_allocation hf hsite
  rw [definitionAt_eq hf, hstep]
  exact hdest

theorem map_alloc_allocation? (s : Site) :
    s.allocation?.map AllocSite.alloc = s.step.alloc? := by
  obtain ⟨point, step, successors⟩ := s
  cases step with
  | terminator t => rfl
  | statement s =>
    obtain ⟨kind, span⟩ := s
    cases kind with
    | assign dest value => cases value <;> rfl
    | fieldWrite target field value => cases value <;> rfl
    | eval value => cases value <;> rfl
    | suspend kind captures => rfl
    | send channel value => rfl

theorem map_alloc_blockSites (block : Block) :
    (block.sites.filterMap Site.allocation?).map AllocSite.alloc =
      block.statements.filterMap statementSite? := by
  have hsteps : block.sites.map Site.step = block.steps := by
    rw [Block.sites, List.map_map]
    exact List.zipIdx_map_fst 0 block.steps
  calc (block.sites.filterMap Site.allocation?).map AllocSite.alloc
      = block.sites.filterMap fun s => s.step.alloc? := by
        rw [List.map_filterMap]
        simp only [map_alloc_allocation?]
    _ = block.steps.filterMap Step.alloc? := by
        rw [← hsteps, List.filterMap_map]
        rfl
    _ = block.statements.filterMap statementSite? := by
        rw [Block.steps, List.filterMap_append, List.filterMap_map]
        exact List.append_nil _

/-- No two allocations of an accepted function have one id. -/
theorem allocations_nodup (h : f.validate = .ok ()) :
    (f.usage.allocations.map AllocSite.alloc).Nodup := by
  have hmap : f.usage.allocations.map AllocSite.alloc = evaluated f.blocks := by
    rw [usage_allocations, sites, List.filterMap_flatMap, List.map_flatMap, evaluated]
    simp only [map_alloc_blockSites]
  rw [hmap]
  exact (blocks_of_validate h).2.2

/-! ## Uses -/

theorem point_of_mem_uses {s : Site} {first group : Nat} {u : Use} (h : u ∈ s.uses first group) :
    u.point = s.point := by
  obtain ⟨⟨a, id⟩, _, rfl⟩ := List.mem_map.mp h
  rfl

@[simp]
theorem map_toAccess_uses (s : Site) (first group : Nat) :
    (s.uses first group).map Use.toAccess = s.step.accesses := by
  rw [Site.uses, List.map_map]
  exact List.zipIdx_map_fst first s.step.accesses

@[simp]
theorem map_id_uses (s : Site) (first group : Nat) :
    (s.uses first group).map Use.id = List.range' first s.step.accesses.length := by
  rw [Site.uses, List.map_map]
  exact List.zipIdx_map_snd first s.step.accesses

/-- The collected uses at a point are those of its site. -/
theorem filter_collectUses {sites : List Site} (hnodup : (sites.map Site.point).Nodup)
    {s : Site} (hs : s ∈ sites) (nextUse nextGroup : Nat) :
    ∃ first group, (collectUses nextUse nextGroup sites).filter (fun u => u.point = s.point) =
      s.uses first group := by
  have hother : ∀ (t : Site) (n g : Nat), t.point ≠ s.point →
      (t.uses n g).filter (fun u => u.point = s.point) = [] := by
    intro t n g hne
    rw [List.filter_eq_nil_iff]
    intro u hu
    rw [point_of_mem_uses hu]
    simpa using hne
  induction sites generalizing nextUse nextGroup with
  | nil => simp at hs
  | cons t rest ih =>
    obtain ⟨ht, hnodup⟩ := List.nodup_cons.mp hnodup
    rw [collectUses, List.filter_append]
    rcases List.mem_cons.mp hs with rfl | hs
    · -- the later sites are at other points
      refine ⟨nextUse, nextGroup, ?_⟩
      have hfirst : (s.uses nextUse nextGroup).filter (fun u => u.point = s.point) =
          s.uses nextUse nextGroup := by
        rw [List.filter_eq_self]
        intro u hu
        simpa using point_of_mem_uses hu
      have hrest : ∀ (sites : List Site) (n g : Nat), s.point ∉ sites.map Site.point →
          (collectUses n g sites).filter (fun u => u.point = s.point) = [] := by
        intro sites
        induction sites with
        | nil => intro n g _; rfl
        | cons t rest ih =>
          intro n g hnot
          rw [List.map_cons, List.mem_cons, not_or] at hnot
          rw [collectUses, List.filter_append, hother t n g (Ne.symm hnot.1), ih _ _ hnot.2]
          rfl
      rw [hfirst, hrest rest _ _ ht, List.append_nil]
    · have hne : t.point ≠ s.point := fun heq => ht (heq ▸ List.mem_map_of_mem hs)
      rw [hother t _ _ hne, List.nil_append]
      exact ih hnodup hs _ _

/-- The uses at a point are the accesses of its step, with consecutive ids and one group number. -/
theorem usesAt_eq (hf : f.Valid) {p : Point} {step : Step} (hstep : f.step? p = some step) :
    ∃ first group, f.usage.usesAt p = (f.siteAt p step).uses first group := by
  have hsite : f.siteAt p step ∈ f.sites := (mem_sites hf.numbered).mpr ⟨step, hstep, rfl⟩
  rw [usesAt_eq_filter, usage_uses]
  exact filter_collectUses (sites_points_nodup hf.numbered) hsite 0 0

theorem map_toAccess_usesAt (hf : f.Valid) {p : Point} {step : Step}
    (hstep : f.step? p = some step) : (f.usage.usesAt p).map Use.toAccess = step.accesses := by
  obtain ⟨first, group, heq⟩ := usesAt_eq hf hstep
  rw [heq, map_toAccess_uses]
  rfl

theorem point_of_mem_collectUses {sites : List Site} {nextUse nextGroup : Nat} {u : Use}
    (h : u ∈ collectUses nextUse nextGroup sites) : u.point ∈ sites.map Site.point := by
  induction sites generalizing nextUse nextGroup with
  | nil => simp [collectUses] at h
  | cons s rest ih =>
    rcases List.mem_append.mp h with h | h
    · simp [point_of_mem_uses h]
    · exact List.mem_cons_of_mem _ (ih h)

/-- A use is recorded where something happens. -/
theorem step?_of_mem_uses (hf : f.Valid) {u : Use} (hu : u ∈ f.usage.uses) :
    ∃ step, f.step? u.point = some step := by
  rw [usage_uses] at hu
  obtain ⟨s, hs, hpoint⟩ := List.mem_map.mp (point_of_mem_collectUses hu)
  obtain ⟨step, hstep, _⟩ := (mem_sites hf.numbered).mp hs
  exact ⟨step, hpoint ▸ hstep⟩

/-- A valid function uses declared bindings only. -/
theorem use_binding_lt (hf : f.Valid) {u : Use} (hu : u ∈ f.usage.uses) :
    u.binding < f.bindings.length := by
  obtain ⟨step, hstep⟩ := step?_of_mem_uses hf hu
  have hmem : u ∈ f.usage.usesAt u.point := mem_usesAt.mpr ⟨hu, rfl⟩
  have haccess : u.toAccess ∈ step.accesses := by
    rw [← map_toAccess_usesAt hf hstep]
    exact List.mem_map_of_mem hmem
  obtain ⟨block, hb, hget⟩ := step?_eq_some.mp hstep
  exact hf.access_lt (List.mem_of_getElem? hb) step (List.mem_of_getElem? hget) _ haccess

theorem collectUses_ordered {sites : List Site}
    (h : sites.Pairwise fun s t => Precedes s.point t.point) (nextUse nextGroup : Nat) :
    (collectUses nextUse nextGroup sites).Pairwise fun u v =>
      u.point = v.point ∨ Precedes u.point v.point := by
  induction sites generalizing nextUse nextGroup with
  | nil => exact List.Pairwise.nil
  | cons s rest ih =>
    obtain ⟨hs, hrest⟩ := List.pairwise_cons.mp h
    rw [collectUses, List.pairwise_append]
    refine ⟨?_, ih hrest _ _, ?_⟩
    · refine List.pairwise_of_forall_mem_list fun u hu v hv => Or.inl ?_
      rw [point_of_mem_uses hu, point_of_mem_uses hv]
    · intro u hu v hv
      obtain ⟨t, ht, hpoint⟩ := List.mem_map.mp (point_of_mem_collectUses hv)
      rw [point_of_mem_uses hu, ← hpoint]
      exact Or.inr (hs t ht)

/-- Within a block, uses at earlier points have smaller ids. -/
theorem id_lt_of_index_lt (hf : f.Valid) {u v : Use} (hu : u ∈ f.usage.uses)
    (hv : v ∈ f.usage.uses) (hblock : u.point.block = v.point.block)
    (hindex : u.point.index < v.point.index) : u.id < v.id := by
  have hsorted : f.usage.uses.Pairwise fun u v => u.id < v.id := by
    rw [← List.pairwise_map (f := Use.id) (R := (· < ·)), usage_ids]
    exact List.pairwise_lt_range
  have hordered : f.usage.uses.Pairwise fun u v =>
      u.point = v.point ∨ Precedes u.point v.point := by
    rw [usage_uses]
    exact collectUses_ordered (sites_ordered hf.numbered) 0 0
  have hboth := hsorted.and hordered
  obtain ⟨i, hi, rfl⟩ := List.getElem_of_mem hu
  obtain ⟨j, hj, rfl⟩ := List.getElem_of_mem hv
  rw [List.pairwise_iff_getElem] at hboth
  rcases Nat.lt_trichotomy i j with hij | rfl | hji
  · exact (hboth i j hi hj hij).1
  · exact absurd hindex (Nat.lt_irrefl _)
  · rcases (hboth j i hj hi hji).2 with heq | hprecedes
    · rw [heq] at hindex
      exact absurd hindex (Nat.lt_irrefl _)
    · exact absurd (hprecedes hblock.symm) (Nat.not_lt.mpr (Nat.le_of_lt hindex))

/-- Grouped uses at one point are in one group. -/
theorem group_eq_of_grouped (hf : f.Valid) {u v : Use} (hu : u ∈ f.usage.uses)
    (hv : v ∈ f.usage.uses) (hpoint : u.point = v.point) (hug : u.isGrouped = true)
    (hvg : v.isGrouped = true) : u.group.isSome ∧ u.group = v.group := by
  obtain ⟨step, hstep⟩ := step?_of_mem_uses hf hu
  obtain ⟨first, group, heq⟩ := usesAt_eq hf hstep
  have hgroup : ∀ w ∈ f.usage.usesAt u.point, w.isGrouped = true → w.group = some group := by
    intro w hw hwg
    rw [heq] at hw
    obtain ⟨⟨a, id⟩, _, rfl⟩ := List.mem_map.mp hw
    exact if_pos hwg
  have hu' := hgroup u (mem_usesAt.mpr ⟨hu, rfl⟩) hug
  have hv' := hgroup v (mem_usesAt.mpr ⟨hv, hpoint.symm⟩) hvg
  rw [hu', hv']
  exact ⟨rfl, rfl⟩

theorem not_isGrouped_of_mem_ofOperand {op : Operand} {kind : UseKind} {a : Access}
    (h : a ∈ Access.ofOperand op kind) : a.isGrouped = false := by
  rw [Access.ofOperand] at h
  split at h
  · rw [List.mem_singleton.mp h]
    rfl
  · simp at h

theorem rvalue_isGrouping_of_mem {value : Rvalue} {dest : Option BindingId} {a : Access}
    (ha : a ∈ value.accesses dest) (hgrouped : a.isGrouped = true) : value.isGrouping = true := by
  have hplain : ∀ (op : Operand) (kind : UseKind), a ∉ Access.ofOperand op kind := by
    intro op kind h
    simp [not_isGrouped_of_mem_ofOperand h] at hgrouped
  cases value with
  | use op =>
    cases op with
    | binding o => cases dest <;> (rw [List.mem_singleton.mp ha] at hgrouped; cases hgrouped)
    | field o name => exact absurd ha (hplain (.field o name) .read)
    | constant c => exact absurd ha (hplain (.constant c) .read)
  | ref op isMutable =>
    obtain ⟨b, hb, rfl⟩ := List.mem_map.mp ha
    have hnot : b.isGrouped = false := not_isGrouped_of_mem_ofOperand hb
    simp [hnot] at hgrouped
  | binary op left right => exact absurd (List.mem_append.mp ha) (by simp [hplain])
  | call callee args => rfl
  | method callee receiver args => rfl
  | alloc site args => rfl
  | closure function captures => rfl

/-- Only points with an argument list have operands of one. -/
theorem isGrouping_of_mem_accesses {step : Step} {a : Access} (ha : a ∈ step.accesses)
    (hgrouped : a.isGrouped = true) : step.isGrouping = true := by
  cases step with
  | statement s =>
    obtain ⟨kind, span⟩ := s
    cases kind with
    | assign dest value =>
      have hvalue : a ∈ value.accesses (some dest) := ha
      exact rvalue_isGrouping_of_mem hvalue hgrouped
    | eval value =>
      have hvalue : a ∈ value.accesses none := ha
      exact rvalue_isGrouping_of_mem hvalue hgrouped
    | suspend kind captures => rfl
    | send channel value => rfl
    | fieldWrite target field value =>
      rcases List.mem_append.mp ha with ha | ha
      · split at ha
        · rw [List.mem_singleton.mp ha] at hgrouped
          cases hgrouped
        · exact rvalue_isGrouping_of_mem ha hgrouped
      · rw [List.mem_singleton.mp ha] at hgrouped
        cases hgrouped
  | terminator t =>
    cases t with
    | none => simp [Step.accesses] at ha
    | some t =>
      rw [Step.accesses, TerminatorKind.accesses.eq_def] at ha
      split at ha
      · simp [not_isGrouped_of_mem_ofOperand ha] at hgrouped
      · rw [List.mem_singleton.mp ha] at hgrouped
        cases hgrouped
      · simp [not_isGrouped_of_mem_ofOperand ha] at hgrouped
      all_goals simp at ha

theorem group_of_mem_uses {s : Site} {first group : Nat} {u : Use} (hu : u ∈ s.uses first group)
    {n : Nat} (hn : u.group = some n) : n = group ∧ s.step.isGrouping = true := by
  obtain ⟨⟨a, id⟩, ha, rfl⟩ := List.mem_map.mp hu
  have hmem : a ∈ s.step.accesses := (List.mem_zipIdx ha).2.2 ▸ List.getElem_mem _
  by_cases hgrouped : a.isGrouped = true
  · simp only [Site.use, hgrouped, if_true, Option.some.injEq] at hn
    exact ⟨hn.symm, isGrouping_of_mem_accesses hmem hgrouped⟩
  · simp [Site.use, hgrouped] at hn

theorem le_group_of_mem_collectUses {sites : List Site} {nextUse nextGroup n : Nat} {u : Use}
    (hu : u ∈ collectUses nextUse nextGroup sites) (hn : u.group = some n) : nextGroup ≤ n := by
  induction sites generalizing nextUse nextGroup with
  | nil => simp [collectUses] at hu
  | cons s rest ih =>
    rcases List.mem_append.mp hu with hu | hu
    · exact Nat.le_of_eq (group_of_mem_uses hu hn).1.symm
    · have hle := ih hu
      split at hle <;> omega

/-- The uses of one group are at one point. -/
theorem point_eq_of_group_eq {u v : Use} (hu : u ∈ f.usage.uses) (hv : v ∈ f.usage.uses) {n : Nat}
    (hun : u.group = some n) (hvn : v.group = some n) : u.point = v.point := by
  have hall : ∀ (sites : List Site) (nextUse nextGroup : Nat),
      u ∈ collectUses nextUse nextGroup sites → v ∈ collectUses nextUse nextGroup sites →
        u.point = v.point := by
    intro sites
    induction sites with
    | nil => intro nextUse nextGroup hu; simp [collectUses] at hu
    | cons s rest ih =>
      -- a point that has used a group number leaves greater ones to the points after it
      have hfresh : ∀ (x y : Use) (nextUse nextGroup : Nat), x ∈ s.uses nextUse nextGroup →
          x.group = some n → y.group = some n →
            y ∉ collectUses (nextUse + s.step.accesses.length)
              (if s.step.isGrouping then nextGroup + 1 else nextGroup) rest := by
        intro x y nextUse nextGroup hx hxn hyn hy
        obtain ⟨rfl, hgrouping⟩ := group_of_mem_uses hx hxn
        have hle := le_group_of_mem_collectUses hy hyn
        simp only [hgrouping, if_true] at hle
        omega
      intro nextUse nextGroup hu hv
      rcases List.mem_append.mp hu with hu | hu <;> rcases List.mem_append.mp hv with hv | hv
      · rw [point_of_mem_uses hu, point_of_mem_uses hv]
      · exact absurd hv (hfresh u v _ _ hu hun hvn)
      · exact absurd hu (hfresh v u _ _ hv hvn hun)
      · exact ih _ _ hu hv
  rw [usage_uses] at hu hv
  exact hall f.sites 0 0 hu hv

end Func

end Tenure

import Tenure.Proofs.Graph.Search
import Tenure.Proofs.Placement
import Tenure.Proofs.Usage.Access

/-!
# The holders of a value

Following the flows of a valid function never fails (`propagate_eq`, `holders_isOk`). The owners of
an allocation are the bindings that a chain of owning flows leads to from the one it initialises
(`mem_owners`). The chain stays among the locals and in reachable code.
-/

namespace Tenure

open Relation

/-- The use gives its value on to a binding, ownership included. -/
def SolvedUse.GivesTo (u : SolvedUse) (b : BindingId) : Prop :=
  u.flow = some (b, .own) ∨ u.flow = some (b, .byMode) ∧ u.resolved = .moved

theorem SolvedUse.GivesTo.flow {u : SolvedUse} {b : BindingId} (h : u.GivesTo b) :
    ∃ kind, u.flow = some (b, kind) := by
  rcases h with hflow | ⟨hflow, -⟩
  · exact ⟨_, hflow⟩
  · exact ⟨_, hflow⟩

/-- What a value flows into is declared. -/
theorem Func.flow_target_lt {f : Func} (hf : f.Valid) {u : Use} {b : BindingId} {kind : FlowKind}
    (hu : u ∈ f.usage.uses) (hflow : u.flow = some (b, kind)) : b < f.bindings.length := by
  obtain ⟨step, hstep⟩ := step?_of_mem_uses hf hu
  have hmem : u.toAccess ∈ step.accesses := by
    rw [← map_toAccess_usesAt hf hstep]
    exact List.mem_map_of_mem (mem_usesAt.mpr ⟨hu, rfl⟩)
  obtain ⟨block, hblock, hget⟩ := step?_eq_some.mp hstep
  rcases Step.flow_eq_some hmem hflow with
    ⟨value, span, rfl, -⟩ | ⟨o, field, stored, span, rfl, rfl, -⟩
  · apply definitionAt_lt hf (p := u.point)
    rw [definitionAt_eq hf, hstep]
    rfl
  · -- the target of a field write is itself accessed
    refine hf.access_lt (List.mem_of_getElem? hblock) _ (List.mem_of_getElem? hget)
      (Access.plain o .fieldWrite (some field)) ?_
    exact List.mem_append_right _ (List.mem_singleton.mpr rfl)

namespace Facts

variable {env : Environment} {f : Func} {facts : Facts} {site : AllocSite} {holders : Holders}
  {b c x : BindingId}

/-! ## Single flows -/

theorem mem_flowTargets : c ∈ facts.flowTargets b ↔ facts.isLocal c = true ∧
    ∃ u ∈ facts.solution.liveUses, u.binding = b ∧ ∃ kind, u.flow = some (c, kind) := by
  simp only [flowTargets, liveFlows, List.mem_map, List.mem_filter, List.mem_filterMap,
    SolvedUse.flow?, Option.map_eq_some_iff, Bool.and_eq_true, decide_eq_true_eq]
  constructor
  · rintro ⟨_, ⟨⟨u, hu, ⟨target, kind⟩, hflow, rfl⟩, rfl, hlocal⟩, rfl⟩
    exact ⟨hlocal, u, hu, rfl, kind, hflow⟩
  · rintro ⟨hlocal, u, hu, rfl, kind, hflow⟩
    exact ⟨_, ⟨⟨u, hu, (c, kind), hflow, rfl⟩, rfl, hlocal⟩, rfl⟩

theorem mem_ownerTargets : c ∈ facts.ownerTargets b ↔ facts.isLocal c = true ∧
    ∃ u ∈ facts.solution.liveUses, u.binding = b ∧ u.GivesTo c := by
  simp only [ownerTargets, liveFlows, List.mem_map, List.mem_filter, List.mem_filterMap,
    SolvedUse.flow?, Option.map_eq_some_iff, Bool.and_eq_true, decide_eq_true_eq]
  constructor
  · rintro ⟨_, ⟨⟨u, hu, ⟨target, kind⟩, hflow, rfl⟩, ⟨rfl, howning⟩, hlocal⟩, rfl⟩
    refine ⟨hlocal, u, hu, rfl, ?_⟩
    cases kind with
    | own => exact Or.inl hflow
    | borrow => simp at howning
    | byMode => exact Or.inr ⟨hflow, of_decide_eq_true howning⟩
  · rintro ⟨hlocal, u, hu, rfl, hflow | ⟨hflow, hmoved⟩⟩
    · exact ⟨_, ⟨⟨u, hu, (c, .own), hflow, rfl⟩, ⟨rfl, rfl⟩, hlocal⟩, rfl⟩
    · exact ⟨_, ⟨⟨u, hu, (c, .byMode), hflow, rfl⟩, ⟨rfl, decide_eq_true hmoved⟩, hlocal⟩, rfl⟩

theorem flowTargets_of_ownerTargets (h : c ∈ facts.ownerTargets b) : c ∈ facts.flowTargets b := by
  obtain ⟨hlocal, u, hu, hbinding, hgives⟩ := mem_ownerTargets.mp h
  exact mem_flowTargets.mpr ⟨hlocal, u, hu, hbinding, hgives.flow⟩

theorem target_lt (hf : f.Valid) (h : facts.Of env f) {u : SolvedUse} {kind : FlowKind}
    (hu : u ∈ facts.solution.uses) (hflow : u.flow = some (b, kind)) : b < f.bindings.length :=
  Func.flow_target_lt hf (h.solved.mem_usage hu) hflow

/-! ## Chains of flows -/

/-- A chain of flows meets at most one new binding for each use. -/
theorem exists_flow_nodes {succ : BindingId → List BindingId}
    (hsucc : ∀ b, ∀ c ∈ succ b, c ∈ facts.flowTargets b) (b : BindingId) :
    ∃ nodes : Finset Nat, (∀ v ∈ nodes, ∀ w ∈ succ v, w ∈ nodes) ∧ (∀ v ∈ [b], v ∈ nodes) ∧
      nodes.card ≤ facts.flowDepth := by
  let targets := facts.solution.uses.filterMap fun u => u.flow.map Prod.fst
  refine ⟨insert b targets.toFinset, fun v _ w hw => ?_, by simp, ?_⟩
  · obtain ⟨-, u, hu, -, kind, hflow⟩ := mem_flowTargets.mp (hsucc v w hw)
    refine Finset.mem_insert_of_mem (List.mem_toFinset.mpr (List.mem_filterMap.mpr ⟨u, ?_, ?_⟩))
    · exact List.mem_of_mem_filter hu
    · rw [hflow]
      rfl
  · refine (Finset.card_insert_le _ _).trans (Nat.succ_le_succ ?_)
    exact (List.toFinset_card_le _).trans (List.length_filterMap_le _ _)

theorem bounded_flows {succ : BindingId → List BindingId}
    (hsucc : ∀ b, ∀ c ∈ succ b, c ∈ facts.flowTargets b) (b : BindingId) :
    Graph.Bounded succ facts.flowDepth b := by
  obtain ⟨nodes, hclosed, hroot, hcard⟩ := exists_flow_nodes hsucc b
  exact ⟨nodes, hroot b List.mem_cons_self, hcard, hclosed⟩

theorem bounded_flowTargets (facts : Facts) (b : BindingId) :
    Graph.Bounded facts.flowTargets facts.flowDepth b :=
  bounded_flows (fun _ _ hc => hc) b

theorem bounded_ownerTargets (facts : Facts) (b : BindingId) :
    Graph.Bounded facts.ownerTargets facts.flowDepth b :=
  bounded_flows (fun _ _ => flowTargets_of_ownerTargets) b

/-- The search along flows finds all that a chain leads to. -/
theorem mem_reach_flowTargets : x ∈ Graph.reach facts.flowTargets facts.flowDepth [b] ↔
    ReflTransGen (Graph.Edge facts.flowTargets) b x := by
  rw [Graph.mem_reach_iff fun v _ => facts.bounded_flowTargets v]
  simp

theorem mem_reach_ownerTargets : x ∈ Graph.reach facts.ownerTargets facts.flowDepth [b] ↔
    ReflTransGen (Graph.Edge facts.ownerTargets) b x := by
  rw [Graph.mem_reach_iff fun v _ => facts.bounded_ownerTargets v]
  simp

/-- Where all targets are declared, every flow can be followed. -/
theorem propagate_of_declared (hlt : ∀ w ∈ facts.liveFlows, w.target < facts.func.bindings.length)
    (start : Holders) : facts.propagate start = .ok
    ⟨Graph.reach facts.ownerTargets facts.flowDepth start.owners,
      (Graph.reach facts.flowTargets facts.flowDepth start.all).filter fun b =>
        !(Graph.reach facts.ownerTargets facts.flowDepth start.owners).contains b⟩ := by
  unfold propagate
  dsimp only
  split
  next w hlost =>
    have hout := List.find?_some hlost
    simp only [Bool.and_eq_true, decide_eq_true_eq] at hout
    exact absurd (hlt w (List.mem_of_find?_eq_some hlost)) (Nat.not_lt.mpr hout.2)
  next => rfl

theorem liveFlows_lt (hf : facts.func.Valid)
    (huses : ∀ u ∈ facts.solution.uses, u.toUse ∈ facts.func.usage.uses) :
    ∀ w ∈ facts.liveFlows, w.target < facts.func.bindings.length := by
  intro w hw
  obtain ⟨u, hu, hsome⟩ := List.mem_filterMap.mp hw
  obtain ⟨⟨target, kind⟩, hflow, rfl⟩ := Option.map_eq_some_iff.mp hsome
  exact Func.flow_target_lt hf (huses u (List.mem_of_mem_filter hu)) hflow

section Valid

variable (hf : f.Valid) (h : facts.Of env f)
include hf h

/-- In a valid function every flow can be followed. -/
theorem propagate_eq (start : Holders) : facts.propagate start = .ok
    ⟨Graph.reach facts.ownerTargets facts.flowDepth start.owners,
      (Graph.reach facts.flowTargets facts.flowDepth start.all).filter fun b =>
        !(Graph.reach facts.ownerTargets facts.flowDepth start.owners).contains b⟩ := by
  obtain rfl := h.func
  exact propagate_of_declared (liveFlows_lt hf fun _ => h.solved.mem_usage) start

/-- From a reference nobody becomes an owner. -/
theorem propagate_ref (holder : BindingId) : facts.propagate ⟨[], [holder]⟩ =
    .ok ⟨[], Graph.reach facts.flowTargets facts.flowDepth [holder]⟩ := by
  have hnobody : Graph.reach facts.ownerTargets facts.flowDepth [] = [] := rfl
  simp [propagate_eq hf h, hnobody, Holders.all]

theorem holders_isOk (site : AllocSite) : ∃ holders, facts.holders site = .ok holders := by
  unfold Facts.holders
  cases site.dest with
  | none => exact ⟨_, rfl⟩
  | some dest => exact ⟨_, propagate_eq hf h _⟩

variable (hholders : facts.holders site = .ok holders)
include hholders

/-- The owners are those that a chain of owning flows leads to. -/
theorem mem_owners : x ∈ holders.owners ↔
    ∃ dest, site.dest = some dest ∧ ReflTransGen (Graph.Edge facts.ownerTargets) dest x := by
  unfold Facts.holders at hholders
  cases hdest : site.dest with
  | none =>
    rw [hdest] at hholders
    obtain rfl := Except.ok.inj hholders
    simp [Holders.nobody]
  | some dest =>
    simp only [hdest, propagate_eq hf h] at hholders
    obtain rfl := Except.ok.inj hholders
    rw [mem_reach_ownerTargets]
    simp

/-- A binding owns the value if the allocation initialises it, or some owner gives the value on to
it. -/
theorem mem_owners_iff : x ∈ holders.owners ↔ site.dest = some x ∨ facts.isLocal x = true ∧
    ∃ u ∈ facts.solution.liveUses, u.binding ∈ holders.owners ∧ u.GivesTo x := by
  constructor
  · intro hx
    obtain ⟨dest, hdest, hchain⟩ := (mem_owners hf h hholders).mp hx
    rcases hchain.cases_tail with rfl | ⟨y, hchain, hedge⟩
    · exact Or.inl hdest
    · obtain ⟨hlocal, u, hu, rfl, hgives⟩ := mem_ownerTargets.mp hedge
      exact Or.inr ⟨hlocal, u, hu, (mem_owners hf h hholders).mpr ⟨dest, hdest, hchain⟩, hgives⟩
  · rintro (hdest | ⟨hlocal, u, hu, howner, hgives⟩)
    · exact (mem_owners hf h hholders).mpr ⟨x, hdest, .refl⟩
    · obtain ⟨dest, hdest, hchain⟩ := (mem_owners hf h hholders).mp howner
      refine (mem_owners hf h hholders).mpr ⟨dest, hdest, hchain.tail ?_⟩
      exact mem_ownerTargets.mpr ⟨hlocal, u, hu, rfl, hgives⟩

end Valid

end Facts

end Tenure

import Mathlib.Algebra.Order.BigOperators.Group.Finset
import Tenure.Proofs.Graph.Settle
import Tenure.Proofs.Placement.Holders

/-!
# Holders found pass by pass

`Facts.propagate` searches along the flows from the first owners and the first holders. The holders
can also be found by going over the flows again and again: each flow hands on what its source has at
that moment (`Facts.follow`), until a pass changes nothing. Entries only rise, from nothing to a
reference and from there to ownership, so the passes come to rest. What they come to is closed under
the flows and holds nothing that no chain of flows explains, whatever the order of the flows. It is
what `Facts.propagate` finds (`Facts.propagate_exact`).
-/

namespace Tenure

open Relation

/-- How a binding holds a value. -/
inductive Hold where
  | ref
  | owner
deriving DecidableEq

namespace Hold

/-- Nothing, a reference and ownership by rank. -/
def level : Option Hold → Nat
  | none => 0
  | some ref => 1
  | some owner => 2

theorem level_le_two (h : Option Hold) : level h ≤ 2 := by
  cases h with
  | none => decide
  | some hold => cases hold <;> decide

theorem level_injective : Function.Injective level := by
  rintro (_ | _ | _) (_ | _ | _) h <;> simp_all [level]

theorem level_pos {h : Option Hold} : 0 < level h ↔ h ≠ none := by
  rcases h with _ | _ | _ <;> simp [level]

theorem level_owner_le {h : Option Hold} : level (some owner) ≤ level h ↔ h = some owner := by
  rcases h with _ | _ | _ <;> simp [level]

end Hold

open Hold

/-- How the bindings hold a value, those that do. -/
abbrev HoldMap := BindingId → Option Hold

/-- How a binding holds the value. Who is both is an owner. -/
def Holders.hold? (h : Holders) : HoldMap := fun b =>
  if b ∈ h.owners then some .owner else if b ∈ h.refs then some .ref else none

namespace Holders

variable {h : Holders} {b : BindingId}

theorem hold?_eq_owner : h.hold? b = some .owner ↔ b ∈ h.owners := by
  unfold hold?
  split
  · simp_all
  · split <;> simp_all

theorem hold?_ne_none : h.hold? b ≠ none ↔ b ∈ h.all := by
  unfold hold? all
  rw [List.mem_append]
  split
  · simp_all
  · split <;> simp_all

/-- An entry for each binding is what some holders say if it tells owners and holders apart as they
do. -/
theorem eq_hold? {m : HoldMap} (howner : ∀ b, m b = some .owner ↔ b ∈ h.owners)
    (hholder : ∀ b, m b ≠ none ↔ b ∈ h.all) : m = h.hold? := by
  funext b
  have howner := (howner b).trans hold?_eq_owner.symm
  have hholder := (hholder b).trans hold?_ne_none.symm
  rcases hm : m b with _ | _ | _ <;> rcases hh : h.hold? b with _ | _ | _ <;> simp_all

end Holders

/-- What a flow hands on from a holder of the value. -/
def Flow.handed (w : Flow) : Hold → Hold
  | .owner => if w.owning then .owner else .ref
  | .ref => .ref

namespace Facts

variable {facts other : Facts} {flows : List Flow} {w : Flow}
  {start m : HoldMap} {a b c : BindingId}

/-- The flows of the function, also those in code that control cannot reach. -/
def allFlows (facts : Facts) : List Flow := facts.solution.uses.filterMap SolvedUse.flow?

/-- Whether a flow counts: control can reach it, and it does not enter a parameter. -/
def isFollowed (facts : Facts) (w : Flow) : Bool :=
  facts.solution.isReachable w.point && facts.isLocal w.target

/-- Follow one flow. Its target gets what the source hands on, unless it has as much already. -/
def follow (facts : Facts) (m : HoldMap) (w : Flow) : HoldMap :=
  match m w.source with
  | none => m
  | some hold =>
    if facts.isFollowed w && level (m w.target) < level (some (w.handed hold)) then
      Function.update m w.target (some (w.handed hold))
    else m

/-- Follow the flows in order. What one of them hands on counts for those after it. -/
def pass (facts : Facts) (flows : List Flow) (m : HoldMap) : HoldMap := flows.foldl facts.follow m

/-! ## One flow -/

theorem mem_liveFlows : w ∈ facts.liveFlows ↔
    w ∈ facts.allFlows ∧ facts.solution.isReachable w.point = true := by
  have hpoint : ∀ {u : SolvedUse}, u.flow? = some w → w.point = u.point := by
    intro u h
    obtain ⟨-, -, rfl⟩ := Option.map_eq_some_iff.mp h
    rfl
  simp only [liveFlows, allFlows, List.mem_filterMap, Solution.liveUses, List.mem_filter]
  constructor
  · rintro ⟨u, ⟨hu, hlive⟩, hflow⟩
    exact ⟨⟨u, hu, hflow⟩, hpoint hflow ▸ hlive⟩
  · rintro ⟨⟨u, hu, hflow⟩, hlive⟩
    exact ⟨u, ⟨hu, hpoint hflow ▸ hlive⟩, hflow⟩

theorem mem_flowTargets_iff : c ∈ facts.flowTargets b ↔
    ∃ w ∈ facts.allFlows, facts.isFollowed w = true ∧ w.source = b ∧ w.target = c := by
  simp only [flowTargets, List.mem_map, List.mem_filter, mem_liveFlows, isFollowed,
    Bool.and_eq_true, decide_eq_true_eq]
  grind

theorem mem_ownerTargets_iff : c ∈ facts.ownerTargets b ↔
    ∃ w ∈ facts.allFlows, facts.isFollowed w = true ∧ w.owning = true ∧ w.source = b ∧
      w.target = c := by
  simp only [ownerTargets, List.mem_map, List.mem_filter, mem_liveFlows, isFollowed,
    Bool.and_eq_true, decide_eq_true_eq]
  grind

/-- What one flow can do. Either the target already has what it would get, or it gets more than it
has. -/
theorem follow_cases (facts : Facts) (m : HoldMap) (w : Flow) :
    (facts.follow m w = m ∧ (facts.isFollowed w = true → ∀ hold, m w.source = some hold →
      level (some (w.handed hold)) ≤ level (m w.target))) ∨
    ∃ hold, m w.source = some hold ∧ facts.isFollowed w = true ∧
      level (m w.target) < level (some (w.handed hold)) ∧
      facts.follow m w = Function.update m w.target (some (w.handed hold)) := by
  unfold follow
  cases hsource : m w.source with
  | none => exact .inl ⟨rfl, fun _ _ h => by cases h⟩
  | some hold =>
    by_cases hup : facts.isFollowed w = true ∧ level (m w.target) < level (some (w.handed hold))
    · exact .inr ⟨hold, rfl, hup.1, hup.2, by simp [hup]⟩
    · refine .inl ⟨by simpa using fun h h' => absurd ⟨h, h'⟩ hup, ?_⟩
      rintro hfollowed _ ⟨⟩
      exact Nat.le_of_not_lt fun hlt => hup ⟨hfollowed, hlt⟩

theorem level_le_follow (facts : Facts) (m : HoldMap) (w : Flow) (b : BindingId) :
    level (m b) ≤ level (facts.follow m w b) := by
  rcases facts.follow_cases m w with ⟨hsame, -⟩ | ⟨hold, -, -, hlt, hup⟩
  · rw [hsame]
  · rw [hup]
    by_cases hb : b = w.target
    · subst hb
      simpa using hlt.le
    · simp [hb]

/-- Only entries of locals change. -/
theorem follow_of_not_local (facts : Facts) (m : HoldMap) (w : Flow)
    (hb : ¬ facts.isLocal b = true) : facts.follow m w b = m b := by
  rcases facts.follow_cases m w with ⟨hsame, -⟩ | ⟨hold, -, hfollowed, -, hup⟩
  · rw [hsame]
  · have hne : b ≠ w.target := by
      rintro rfl
      exact hb (Bool.and_eq_true_iff.mp hfollowed).2
    rw [hup, Function.update_of_ne hne]

/-! ## Passes -/

theorem level_le_pass (facts : Facts) (flows : List Flow) (m : HoldMap) (b : BindingId) :
    level (m b) ≤ level (facts.pass flows m b) := by
  induction flows generalizing m with
  | nil => exact Nat.le_refl _
  | cons w flows ih => exact (facts.level_le_follow m w b).trans (ih (facts.follow m w))

theorem pass_of_not_local (facts : Facts) (flows : List Flow) (m : HoldMap)
    (hb : ¬ facts.isLocal b = true) : facts.pass flows m b = m b := by
  induction flows generalizing m with
  | nil => rfl
  | cons w flows ih => exact (ih (facts.follow m w)).trans (facts.follow_of_not_local m w hb)

theorem level_le_iterate (facts : Facts) (flows : List Flow) (start : HoldMap) (n : Nat)
    (b : BindingId) : level (start b) ≤ level ((facts.pass flows)^[n] start b) := by
  induction n with
  | zero => exact Nat.le_refl _
  | succ n ih =>
    rw [Function.iterate_succ_apply']
    exact ih.trans (facts.level_le_pass flows _ b)

/-- A pass that changes nothing finds nothing to hand on. -/
theorem follow_eq_of_pass_eq (h : facts.pass flows m = m) : ∀ w ∈ flows, facts.follow m w = m := by
  induction flows with
  | nil => nofun
  | cons w flows ih =>
    -- entries that fell behind would have to fall back later
    have hfirst : facts.follow m w = m := by
      funext b
      refine level_injective (Nat.le_antisymm ?_ (facts.level_le_follow m w b))
      calc level (facts.follow m w b) ≤ level (facts.pass flows (facts.follow m w) b) :=
            facts.level_le_pass flows _ b
        _ = level (m b) := congrArg level (congrFun h b)
    have hrest : facts.pass flows m = m := by
      have := h
      rwa [pass, List.foldl_cons, hfirst] at this
    exact List.forall_mem_cons.mpr ⟨hfirst, ih hrest⟩

/-- Passes come to rest: each one that changes something raises the entry of a local. -/
theorem exists_pass_eq (facts : Facts) (flows : List Flow) (start : HoldMap) :
    ∃ n ≤ 2 * facts.func.bindings.length,
      facts.pass flows ((facts.pass flows)^[n] start) = (facts.pass flows)^[n] start := by
  let locals := Finset.range facts.func.bindings.length
  refine Graph.exists_fixed_le (fun m => ∑ b ∈ locals, level (m b)) (fun m => ?_) (fun m hm => ?_)
    start
  · calc ∑ b ∈ locals, level (m b) ≤ locals.card • 2 :=
          Finset.sum_le_card_nsmul _ _ _ fun b _ => level_le_two _
      _ = 2 * facts.func.bindings.length := by simp [locals, Nat.mul_comm]
  · obtain ⟨b, hb⟩ := Function.ne_iff.mp hm
    have hlocal : facts.isLocal b = true := by
      by_contra hnot
      exact hb (facts.pass_of_not_local flows m hnot)
    have hmem : b ∈ locals := Finset.mem_range.mpr (isLocal_iff.mp hlocal).1
    refine Finset.sum_lt_sum (fun c _ => facts.level_le_pass flows m c) ⟨b, hmem, ?_⟩
    exact lt_of_le_of_ne (facts.level_le_pass flows m b) fun heq => hb (level_injective heq).symm

/-! ## What passes come to -/

/-- Every entry is explained by a chain of flows from an entry at the start. -/
structure Explained (facts : Facts) (start m : HoldMap) : Prop where
  owner : ∀ b, m b = some .owner →
    ∃ a, start a = some .owner ∧ ReflTransGen (Graph.Edge facts.ownerTargets) a b
  holder : ∀ b, m b ≠ none → ∃ a, start a ≠ none ∧ ReflTransGen (Graph.Edge facts.flowTargets) a b

theorem Explained.follow (h : facts.Explained start m) (hw : w ∈ facts.allFlows) :
    facts.Explained start (facts.follow m w) := by
  rcases facts.follow_cases m w with ⟨hsame, -⟩ | ⟨hold, hsource, hfollowed, -, hup⟩
  · rwa [hsame]
  rw [hup]
  constructor
  · intro b hb
    by_cases htarget : b = w.target
    · subst htarget
      rw [Function.update_self, Option.some.injEq] at hb
      obtain ⟨rfl, howning⟩ : hold = .owner ∧ w.owning = true := by
        cases hold <;> simp_all [Flow.handed]
      obtain ⟨a, ha, hchain⟩ := h.owner _ hsource
      exact ⟨a, ha, hchain.tail (mem_ownerTargets_iff.mpr ⟨w, hw, hfollowed, howning, rfl, rfl⟩)⟩
    · rw [Function.update_of_ne htarget] at hb
      exact h.owner b hb
  · intro b hb
    by_cases htarget : b = w.target
    · subst htarget
      obtain ⟨a, ha, hchain⟩ := h.holder w.source (by simp [hsource])
      exact ⟨a, ha, hchain.tail (mem_flowTargets_iff.mpr ⟨w, hw, hfollowed, rfl, rfl⟩)⟩
    · rw [Function.update_of_ne htarget] at hb
      exact h.holder b hb

theorem Explained.pass (h : facts.Explained start m) (hflows : ∀ w ∈ flows, w ∈ facts.allFlows) :
    facts.Explained start (facts.pass flows m) := by
  induction flows generalizing m with
  | nil => exact h
  | cons w flows ih =>
    obtain ⟨hw, hrest⟩ := List.forall_mem_cons.mp hflows
    exact ih (h.follow hw) hrest

theorem explained_iterate (start : HoldMap) (hflows : ∀ w ∈ flows, w ∈ facts.allFlows) (n : Nat) :
    facts.Explained start ((facts.pass flows)^[n] start) := by
  induction n with
  | zero => exact ⟨fun b hb => ⟨b, hb, .refl⟩, fun b hb => ⟨b, hb, .refl⟩⟩
  | succ n ih =>
    rw [Function.iterate_succ_apply']
    exact ih.pass hflows

section Rest

variable (hflows : ∀ w, w ∈ flows ↔ w ∈ facts.allFlows) {n : Nat}
  (hrest : facts.pass flows ((facts.pass flows)^[n] start) = (facts.pass flows)^[n] start)
include hflows hrest

/-- At rest every flow has handed on what it can. -/
theorem handed_le_of_rest (hw : w ∈ facts.allFlows) (hfollowed : facts.isFollowed w = true)
    {hold : Hold} (hsource : (facts.pass flows)^[n] start w.source = some hold) :
    level (some (w.handed hold)) ≤ level ((facts.pass flows)^[n] start w.target) := by
  have hsame := follow_eq_of_pass_eq hrest w ((hflows w).mpr hw)
  rcases facts.follow_cases ((facts.pass flows)^[n] start) w with ⟨-, hle⟩ | ⟨hold', -, -, hlt, hup⟩
  · exact hle hfollowed hold hsource
  · have htarget := congrFun (hsame.symm.trans hup) w.target
    rw [Function.update_self] at htarget
    rw [htarget] at hlt
    exact absurd hlt (Nat.lt_irrefl _)

/-- At rest the owners are those that a chain of owning flows leads to from an owner. -/
theorem owner_of_rest : (facts.pass flows)^[n] start b = some .owner ↔
    ∃ a, start a = some .owner ∧ ReflTransGen (Graph.Edge facts.ownerTargets) a b := by
  refine ⟨(explained_iterate start (fun w => (hflows w).mp) n).owner b, ?_⟩
  rintro ⟨a, ha, hchain⟩
  induction hchain with
  | refl => exact level_owner_le.mp (ha ▸ facts.level_le_iterate flows start n a)
  | tail _ hedge ih =>
    obtain ⟨w, hw, hfollowed, howning, rfl, rfl⟩ := mem_ownerTargets_iff.mp hedge
    have hle := handed_le_of_rest hflows hrest hw hfollowed ih
    rw [Flow.handed, if_pos howning] at hle
    exact level_owner_le.mp hle

/-- At rest the holders are those that a chain of flows leads to from a holder. -/
theorem holder_of_rest : (facts.pass flows)^[n] start b ≠ none ↔
    ∃ a, start a ≠ none ∧ ReflTransGen (Graph.Edge facts.flowTargets) a b := by
  refine ⟨(explained_iterate start (fun w => (hflows w).mp) n).holder b, ?_⟩
  rintro ⟨a, ha, hchain⟩
  induction hchain with
  | refl =>
    exact level_pos.mp ((level_pos.mpr ha).trans_le (facts.level_le_iterate flows start n a))
  | tail _ hedge ih =>
    obtain ⟨w, hw, hfollowed, rfl, rfl⟩ := mem_flowTargets_iff.mp hedge
    obtain ⟨hold, hsource⟩ := Option.ne_none_iff_exists'.mp ih
    have hle := handed_le_of_rest hflows hrest hw hfollowed hsource
    exact level_pos.mp ((level_pos.mpr (by simp)).trans_le hle)

end Rest

/-! ## What the search finds -/

section Found

variable {start found : Holders}
  (hlt : ∀ w ∈ facts.liveFlows, w.target < facts.func.bindings.length)
  (hfound : facts.propagate start = .ok found)
include hlt hfound

theorem mem_owners_of_propagate : b ∈ found.owners ↔
    ∃ a ∈ start.owners, ReflTransGen (Graph.Edge facts.ownerTargets) a b := by
  obtain rfl := Except.ok.inj (hfound.symm.trans (propagate_of_declared hlt start))
  exact Graph.mem_reach_iff fun a _ => facts.bounded_ownerTargets a

theorem mem_refs_of_propagate : b ∈ found.refs ↔
    b ∉ found.owners ∧ ∃ a ∈ start.all, ReflTransGen (Graph.Edge facts.flowTargets) a b := by
  obtain rfl := Except.ok.inj (hfound.symm.trans (propagate_of_declared hlt start))
  rw [List.mem_filter, Graph.mem_reach_iff fun a _ => facts.bounded_flowTargets a, and_comm]
  simp

theorem mem_all_of_propagate : b ∈ found.all ↔
    ∃ a ∈ start.all, ReflTransGen (Graph.Edge facts.flowTargets) a b := by
  rw [Holders.all, List.mem_append]
  constructor
  · rintro (howner | href)
    · obtain ⟨a, ha, hchain⟩ := (mem_owners_of_propagate hlt hfound).mp howner
      have hflows := ReflTransGen.mono (fun _ _ => flowTargets_of_ownerTargets) _ _ hchain
      exact ⟨a, List.mem_append_left _ ha, hflows⟩
    · exact ((mem_refs_of_propagate hlt hfound).mp href).2
  · intro hchain
    by_cases howner : b ∈ found.owners
    · exact Or.inl howner
    · exact Or.inr ((mem_refs_of_propagate hlt hfound).mpr ⟨howner, hchain⟩)

theorem nodup_of_propagate : found.owners.Nodup ∧ found.refs.Nodup := by
  obtain rfl := Except.ok.inj (hfound.symm.trans (propagate_of_declared hlt start))
  constructor
  · exact Graph.reach_nodup fun a _ => facts.bounded_ownerTargets a
  · exact (Graph.reach_nodup fun a _ => facts.bounded_flowTargets a).filter _

/-- The search does not depend on the order of the flows. -/
theorem propagate_perm (hfunc : other.func = facts.func)
    (hperm : other.liveFlows.Perm facts.liveFlows) :
    ∃ found', other.propagate start = .ok found' ∧ found'.owners.Perm found.owners ∧
      found'.refs.Perm found.refs := by
  have hflow : Graph.Edge other.flowTargets = Graph.Edge facts.flowTargets := by
    funext a b
    simp only [Graph.Edge, flowTargets, List.mem_map, List.mem_filter, hperm.mem_iff, isLocal,
      hfunc]
  have howner : Graph.Edge other.ownerTargets = Graph.Edge facts.ownerTargets := by
    funext a b
    simp only [Graph.Edge, ownerTargets, List.mem_map, List.mem_filter, hperm.mem_iff, isLocal,
      hfunc]
  have hlt' : ∀ w ∈ other.liveFlows, w.target < other.func.bindings.length := fun w hw =>
    hfunc ▸ hlt w (hperm.mem_iff.mp hw)
  obtain ⟨found', hfound'⟩ : ∃ found', other.propagate start = .ok found' :=
    ⟨_, propagate_of_declared hlt' start⟩
  have howners : ∀ b, b ∈ found'.owners ↔ b ∈ found.owners := fun b => by
    rw [mem_owners_of_propagate hlt' hfound', mem_owners_of_propagate hlt hfound, howner]
  have hrefs : ∀ b, b ∈ found'.refs ↔ b ∈ found.refs := fun b => by
    rw [mem_refs_of_propagate hlt' hfound', mem_refs_of_propagate hlt hfound, howners, hflow]
  obtain ⟨hnodup, hnodup'⟩ := nodup_of_propagate hlt hfound
  obtain ⟨hother, hother'⟩ := nodup_of_propagate hlt' hfound'
  exact ⟨found', hfound', (List.perm_ext_iff_of_nodup hother hnodup).mpr howners,
    (List.perm_ext_iff_of_nodup hother' hnodup').mpr hrefs⟩

end Found

/-! ## Chains of flows -/

/-- Some use in reachable code lets its value flow on, and not into a parameter. -/
def FlowsTo (facts : Facts) (a b : BindingId) : Prop :=
  facts.isParam b = false ∧
    ∃ u ∈ facts.solution.liveUses, u.binding = a ∧ ∃ kind, u.flow = some (b, kind)

/-- Some use in reachable code gives its value away, and not into a parameter. -/
def GivesTo (facts : Facts) (a b : BindingId) : Prop :=
  facts.isParam b = false ∧ ∃ u ∈ facts.solution.liveUses, u.binding = a ∧ u.GivesTo b

section Recorded

variable (hf : facts.func.Valid)
  (huses : ∀ u ∈ facts.solution.uses, u.toUse ∈ facts.func.usage.uses)
include hf huses

/-- Of the bindings that a value flows into, all but the parameters are locals. -/
theorem isLocal_of_flow {u : SolvedUse} {kind : FlowKind} (hu : u ∈ facts.solution.liveUses)
    (hflow : u.flow = some (b, kind)) (hparam : facts.isParam b = false) :
    facts.isLocal b = true :=
  isLocal_iff.mpr
    ⟨Func.flow_target_lt hf (huses u (List.mem_of_mem_filter hu)) hflow, hparam⟩

theorem edge_flowTargets : Graph.Edge facts.flowTargets = facts.FlowsTo := by
  funext a b
  refine propext (mem_flowTargets.trans ⟨?_, ?_⟩)
  · rintro ⟨hlocal, hflow⟩
    exact ⟨(isLocal_iff.mp hlocal).2, hflow⟩
  · rintro ⟨hparam, u, hu, hbinding, kind, hflow⟩
    exact ⟨isLocal_of_flow hf huses hu hflow hparam, u, hu, hbinding, kind, hflow⟩

theorem edge_ownerTargets : Graph.Edge facts.ownerTargets = facts.GivesTo := by
  funext a b
  refine propext (mem_ownerTargets.trans ⟨?_, ?_⟩)
  · rintro ⟨hlocal, hgives⟩
    exact ⟨(isLocal_iff.mp hlocal).2, hgives⟩
  · rintro ⟨hparam, u, hu, hbinding, hgives⟩
    obtain ⟨kind, hflow⟩ := hgives.flow
    exact ⟨isLocal_of_flow hf huses hu hflow hparam, u, hu, hbinding, hgives⟩

end Recorded

/-- Take an accepted function and any solution for its uses, whatever modes it gives them, which
code it calls reachable and in which order it lists them. The holders of a value are found from any
owners and holders at the start. The owners are the bindings that a chain of uses leads to from an
owner at the start, each of which gives the value away. The others are those that own nothing and
that a chain of any flows leads to from a holder at the start. Only flows in reachable code count,
and none that enters a parameter. The order of the flows has no influence. Passes over the flows in
any order, in which each flow raises the entry of its target at once, come to rest, and the entries
are then the same holders. -/
theorem propagate_exact (facts : Facts) (hvalid : facts.func.validate = .ok ())
    (huses : (facts.solution.uses.map SolvedUse.toUse).Perm facts.func.usage.uses)
    (start : Holders) :
    ∃ found, facts.propagate start = .ok found ∧
      (∀ b, b ∈ found.owners ↔ ∃ a ∈ start.owners, ReflTransGen facts.GivesTo a b) ∧
      (∀ b, b ∈ found.refs ↔
        b ∉ found.owners ∧ ∃ a ∈ start.all, ReflTransGen facts.FlowsTo a b) ∧
      (∀ other : Facts, other.func = facts.func → other.liveFlows.Perm facts.liveFlows →
        ∃ found', other.propagate start = .ok found' ∧ found'.owners.Perm found.owners ∧
          found'.refs.Perm found.refs) ∧
      ∀ flows, flows.Perm facts.allFlows → ∃ n ≤ 2 * facts.func.bindings.length,
        facts.pass flows ((facts.pass flows)^[n] start.hold?) =
          (facts.pass flows)^[n] start.hold? ∧
        (facts.pass flows)^[n] start.hold? = found.hold? := by
  have hf := Func.valid_of_validate hvalid
  have hmem : ∀ u ∈ facts.solution.uses, u.toUse ∈ facts.func.usage.uses := fun u hu =>
    huses.mem_iff.mp (List.mem_map_of_mem hu)
  have hlt := liveFlows_lt hf hmem
  have hfound := propagate_of_declared hlt start
  refine ⟨_, hfound, fun b => ?_, fun b => ?_, ?_, ?_⟩
  · rw [← edge_ownerTargets hf hmem]
    exact mem_owners_of_propagate hlt hfound
  · rw [← edge_flowTargets hf hmem]
    exact mem_refs_of_propagate hlt hfound
  · intro other hfunc hperm
    exact propagate_perm hlt hfound hfunc hperm
  · intro flows hperm
    obtain ⟨n, hn, hrest⟩ := facts.exists_pass_eq flows start.hold?
    have hflows : ∀ w, w ∈ flows ↔ w ∈ facts.allFlows := fun w => hperm.mem_iff
    refine ⟨n, hn, hrest, Holders.eq_hold? (fun b => ?_) (fun b => ?_)⟩
    · simp only [owner_of_rest hflows hrest, mem_owners_of_propagate hlt hfound,
        Holders.hold?_eq_owner]
    · simp only [holder_of_rest hflows hrest, mem_all_of_propagate hlt hfound,
        Holders.hold?_ne_none]

/-- In a loop `b` borrows `a`, is handed to `c` and then gets the value of `a` itself. The value of
`c` is borrowed by `e` and stored in the parameter. A block that control cannot reach hands `a` to
`d`. -/
def lentThenGiven : Func where
  id := 0
  name := "lend"
  span := ⟨0, 60⟩
  params := [0]
  bindings := [
    ⟨"p", .named "Data", .param, 0, none, ⟨1, 2⟩⟩,
    ⟨"a", .named "Data", .letBound, 0, none, ⟨3, 4⟩⟩,
    ⟨"b", .named "Data", .letBound, 0, none, ⟨5, 6⟩⟩,
    ⟨"c", .named "Data", .letBound, 0, none, ⟨7, 8⟩⟩,
    ⟨"d", .named "Data", .letBound, 0, none, ⟨9, 10⟩⟩,
    ⟨"e", .named "Data", .letBound, 0, none, ⟨11, 12⟩⟩]
  blocks := [
    ⟨0, 0, [⟨.assign 1 (.alloc 0 []), ⟨13, 14⟩⟩], some ⟨.goto 1, ⟨15, 16⟩⟩⟩,
    ⟨1, 0,
      [⟨.assign 2 (.ref (.binding ⟨1, none, ⟨18, 19⟩⟩) false), ⟨17, 19⟩⟩,
        ⟨.assign 3 (.use (.binding ⟨2, none, ⟨21, 22⟩⟩)), ⟨20, 22⟩⟩,
        ⟨.assign 2 (.use (.binding ⟨1, none, ⟨24, 25⟩⟩)), ⟨23, 25⟩⟩],
      some ⟨.branch (.constant (.bool true)) 1 2, ⟨26, 27⟩⟩⟩,
    ⟨2, 0,
      [⟨.assign 5 (.ref (.binding ⟨3, none, ⟨29, 30⟩⟩) false), ⟨28, 30⟩⟩,
        ⟨.fieldWrite ⟨0, none, ⟨31, 32⟩⟩ "next" (.use (.binding ⟨3, none, ⟨33, 34⟩⟩)), ⟨31, 34⟩⟩],
      some ⟨.ret none, ⟨50, 56⟩⟩⟩,
    ⟨3, 0, [⟨.assign 4 (.use (.binding ⟨1, none, ⟨41, 42⟩⟩)), ⟨40, 42⟩⟩],
      some ⟨.ret none, ⟨50, 56⟩⟩⟩]
  regions := [⟨0, .body, none, none, ⟨0, 60⟩⟩]
  allocations := [⟨13, 14⟩]
  isAsync := false

/-- `c` has a reference first and owns the value in the end. The parameter and `d` hold nothing. The
passes come to the same in the opposite order. -/
theorem lentThenGiven_holders :
    lentThenGiven.validate = .ok () ∧ ∃ facts, (Environment.ofForeigns []).facts lentThenGiven =
        .ok facts ∧ (facts.solution.uses.map SolvedUse.toUse).Perm facts.func.usage.uses ∧
      facts.allFlows.map Flow.target = [2, 3, 2, 5, 0, 4] ∧
      facts.propagate ⟨[1], []⟩ = .ok ⟨[1, 2, 3], [5]⟩ ∧
      (∀ b, b ∈ [1, 2, 3] ↔ ReflTransGen facts.GivesTo 1 b) ∧
      (∀ b, b ∈ [5] ↔ b ∉ [1, 2, 3] ∧ ReflTransGen facts.FlowsTo 1 b) ∧
      (∃ n ≤ 12, (facts.pass facts.allFlows)^[n] (Holders.hold? ⟨[1], []⟩) =
        Holders.hold? ⟨[1, 2, 3], [5]⟩) ∧
      ∃ n ≤ 12, (facts.pass facts.allFlows.reverse)^[n] (Holders.hold? ⟨[1], []⟩) =
        Holders.hold? ⟨[1, 2, 3], [5]⟩ := by
  have hvalid : lentThenGiven.validate = .ok () := by decide +kernel
  have hrun : ((Environment.ofForeigns []).facts lentThenGiven >>= fun facts =>
      facts.propagate ⟨[1], []⟩ >>= fun found =>
      pure (facts.allFlows.map Flow.target, found)) =
        .ok ([2, 3, 2, 5, 0, 4], ⟨[1, 2, 3], [5]⟩) := by decide +kernel
  simp only [bind_eq_ok, pure_eq_ok, Prod.mk.injEq] at hrun
  obtain ⟨facts, hfacts, found, hfound, htargets, rfl⟩ := hrun
  have h := Environment.of_facts hfacts
  have hfunc : facts.func.validate = .ok () := h.func ▸ hvalid
  have huses : (facts.solution.uses.map SolvedUse.toUse).Perm facts.func.usage.uses := by
    rw [h.func, h.solved.uses]
  obtain ⟨found', hfound', howners, hrefs, -, hpasses⟩ :=
    propagate_exact facts hfunc huses ⟨[1], []⟩
  obtain rfl := Except.ok.inj (hfound'.symm.trans hfound)
  have hlength : 2 * facts.func.bindings.length = 12 := by
    rw [h.func]
    rfl
  refine ⟨hvalid, facts, hfacts, huses, htargets, hfound, ?_, ?_, ?_, ?_⟩
  · simpa using howners
  · simpa [Holders.all] using hrefs
  · obtain ⟨n, hn, -, hend⟩ := hpasses facts.allFlows (.refl _)
    exact ⟨n, hlength ▸ hn, hend⟩
  · obtain ⟨n, hn, -, hend⟩ := hpasses facts.allFlows.reverse (List.reverse_perm _)
    exact ⟨n, hlength ▸ hn, hend⟩

end Facts

end Tenure

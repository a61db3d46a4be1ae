import Tenure.Proofs.Graph.ComponentSearch

/-!
# The search for components is right

`Searching` adds to the invariant what the low link of the node searched from knows: it is the number
of a waiting node within reach, and no edge of a node met on the way goes to a waiting node with a
smaller number. So a node that is done with its own number as low link closes a component
(`Searching.linked_iff`), and any other node leads back to an active one (`Searching.keep`). At the
end of a search every node is in exactly one component, together with all nodes that lead to it and
back (`mem_component_iff`), after the components that its own one leads to (`components_ordered`).
-/

namespace Tenure.Graph

namespace ComponentSearch

variable {succ : Nat → List Nat} {nodes : Finset Nat} {active new : List Nat}
  {s t u : ComponentSearch} {v w : Nat}

/-! ## Searching from one node -/

/-- The search from `v`, begun in `s`, has followed the edges to `done` and come to `t`. The nodes
`new` stand above `v` on the stack. -/
structure Searching (succ : Nat → List Nat) (nodes : Finset Nat) (active : List Nat)
    (s : ComponentSearch) (v : Nat) (new done : List Nat) (t : ComponentSearch) : Prop where
  inv : t.Invariant succ nodes (v :: active)
  ext : Extends s (new ++ [v]) t
  index_eq : t.indexOf v = s.next
  low_le : t.lowOf v ≤ s.next
  low_leads : ∃ w ∈ t.stack, Leads succ v w ∧ t.indexOf w = t.lowOf v
  low_new : ∀ x ∈ new, ∀ w ∈ succ x, w ∈ s.stack → t.lowOf v ≤ t.indexOf w
  low_done : ∀ w ∈ done, t.isMet w ∧ (w ∈ s.stack → t.lowOf v ≤ t.indexOf w)

/-- The search from `v`, begun in `s`, is over in `t`. -/
structure Visited (succ : Nat → List Nat) (nodes : Finset Nat) (active : List Nat)
    (s : ComponentSearch) (v : Nat) (t : ComponentSearch) : Prop where
  inv : t.Invariant succ nodes active
  met : t.isMet v
  low_of_closed : v ∉ t.stack → t.lowOf v = t.indexOf v
  low_leads : v ∈ t.stack → ∃ w ∈ t.stack, Leads succ v w ∧ t.indexOf w = t.lowOf v
  low_new : ∃ new, Extends s new t ∧
    ∀ x ∈ new, ∀ w ∈ succ x, w ∈ s.stack → t.lowOf v ≤ t.indexOf w

theorem searching_enter (hs : s.Invariant succ nodes active) (hv : v ∈ nodes) (hnew : ¬ s.isMet v)
    (hactive : ∀ x ∈ active, Leads succ x v) :
    Searching succ nodes active s v [] [] (s.enter v) where
  inv := hs.enter hv hnew hactive
  ext := extends_enter hnew
  index_eq := indexOf_enter_self
  low_le := lowOf_enter_self.le
  low_leads := ⟨v, List.mem_cons_self, .refl, by rw [indexOf_enter_self, lowOf_enter_self]⟩
  low_new := by simp
  low_done := by simp

namespace Searching

variable {done : List Nat}

/-- A node that was met before stands below `v`, if it is still on the stack. -/
theorem mem_stack (h : Searching succ nodes active s v new done t) :
    w ∈ t.stack ↔ w ∈ new ++ [v] ∨ w ∈ s.stack := by
  rw [h.ext.stack, List.mem_append]

theorem stack_eq (h : Searching succ nodes active s v new done t) :
    t.stack = new ++ v :: s.stack := by
  rw [h.ext.stack, List.append_assoc, List.singleton_append]

theorem notMem_new (h : Searching succ nodes active s v new done t) : v ∉ new := by
  have hnodup := h.inv.stack_nodup
  rw [h.stack_eq] at hnodup
  exact fun hmem => (List.nodup_append.mp hnodup).2.2 v hmem v List.mem_cons_self rfl

/-- An edge to a node that waits may lower the low link. -/
theorem lower (h : Searching succ nodes active s v new done t) (hnew : ¬ s.isMet v)
    (hedge : w ∈ succ v) (hw : w ∈ t.stack) :
    Searching succ nodes active s v new (done ++ [w]) (t.lower v (t.indexOf w)) where
  inv := h.inv.lower v _
  ext := h.ext.lower hnew _
  index_eq := h.index_eq
  low_le := by
    rw [lowOf_lower_self]
    exact (min_le_left _ _).trans h.low_le
  low_leads := by
    rw [lowOf_lower_self]
    rcases le_total (t.lowOf v) (t.indexOf w) with hle | hle
    · rw [min_eq_left hle]
      exact h.low_leads
    · rw [min_eq_right hle]
      exact ⟨w, hw, .single hedge, rfl⟩
  low_new x hx y hy hys := by
    rw [lowOf_lower_self]
    exact (min_le_left _ _).trans (h.low_new x hx y hy hys)
  low_done y hy := by
    rw [lowOf_lower_self]
    rcases List.mem_append.mp hy with hy | hy
    · exact ⟨(h.low_done y hy).1, fun hys => (min_le_left _ _).trans ((h.low_done y hy).2 hys)⟩
    · obtain rfl := List.mem_singleton.mp hy
      exact ⟨h.inv.stack_met y hw, fun _ => min_le_right _ _⟩

/-- An edge to a node of a closed component changes nothing. -/
theorem skip (h : Searching succ nodes active s v new done t) (hmet : t.isMet w)
    (hw : w ∉ t.stack) : Searching succ nodes active s v new (done ++ [w]) t where
  inv := h.inv
  ext := h.ext
  index_eq := h.index_eq
  low_le := h.low_le
  low_leads := h.low_leads
  low_new := h.low_new
  low_done y hy := by
    rcases List.mem_append.mp hy with hy | hy
    · exact h.low_done y hy
    · obtain rfl := List.mem_singleton.mp hy
      exact ⟨hmet, fun hys => absurd (h.mem_stack.mpr (Or.inr hys)) hw⟩

/-- After the search from a new node its low link may lower that of `v`. If the component of the new
node is closed, its low link is its own number and too large for that. -/
theorem visited (h : Searching succ nodes active s v new done t) (hs : s.Invariant succ nodes active)
    (hnew : ¬ s.isMet v) (hedge : w ∈ succ v) (hw : ¬ t.isMet w)
    (hvisited : Visited succ nodes (v :: active) t w u) :
    ∃ new, Searching succ nodes active s v new (done ++ [w]) (u.lower v (u.lowOf w)) := by
  obtain ⟨later, hext, hlater⟩ := hvisited.low_new
  have hv : t.isMet v := h.inv.stack_met v (h.mem_stack.mpr (Or.inl (by simp)))
  have hlow : u.lowOf v = t.lowOf v := hext.low v hv
  have hindex : u.indexOf v = s.next := (hext.index v hv).trans h.index_eq
  have hbelow : ∀ y ∈ s.stack, t.isMet y := fun y hy => h.ext.met y (hs.stack_met y hy)
  have hwindex : s.next < u.indexOf w := by
    have hlt := h.inv.index_lt v hv
    rw [h.index_eq] at hlt
    exact hlt.trans_le (hext.later w hvisited.met hw)
  have hext' : Extends s ((later ++ new) ++ [v]) u := by
    rw [List.append_assoc]
    exact h.ext.trans hext
  refine ⟨later ++ new, hvisited.inv.lower v _, hext'.lower hnew _, hindex, ?_, ?_, ?_, ?_⟩
  · rw [lowOf_lower_self, hlow]
    exact (min_le_left _ _).trans h.low_le
  · rw [lowOf_lower_self, hlow]
    have hkept : ∃ y ∈ u.stack, Leads succ v y ∧ u.indexOf y = t.lowOf v := by
      obtain ⟨y, hy, hpath, heq⟩ := h.low_leads
      refine ⟨y, by rw [hext.stack]; exact List.mem_append_right _ hy, hpath, ?_⟩
      rw [hext.index y (h.inv.stack_met y hy), heq]
    rcases le_total (t.lowOf v) (u.lowOf w) with hle | hle
    · rw [min_eq_left hle]
      exact hkept
    · by_cases hwaits : w ∈ u.stack
      · obtain ⟨y, hy, hpath, heq⟩ := hvisited.low_leads hwaits
        rw [min_eq_right hle]
        exact ⟨y, hy, .head hedge hpath, heq⟩
      · have hclosed := hvisited.low_of_closed hwaits
        have hlowv := h.low_le
        omega
  · intro x hx y hy hys
    rw [lowOf_lower_self, hlow]
    rcases List.mem_append.mp hx with hx | hx
    · exact (min_le_right _ _).trans (hlater x hx y hy (h.mem_stack.mpr (Or.inr hys)))
    · refine (min_le_left _ _).trans ?_
      show t.lowOf v ≤ u.indexOf y
      rw [hext.index y (hbelow y hys)]
      exact h.low_new x hx y hy hys
  · intro y hy
    rw [lowOf_lower_self, hlow]
    rcases List.mem_append.mp hy with hy | hy
    · obtain ⟨hmet, hle⟩ := h.low_done y hy
      refine ⟨hext.met y hmet, fun hys => (min_le_left _ _).trans ?_⟩
      show t.lowOf v ≤ u.indexOf y
      rw [hext.index y hmet]
      exact hle hys
    · obtain rfl := List.mem_singleton.mp hy
      exact ⟨hvisited.met, fun hys => absurd (hbelow y hys) hw⟩

/-! ## The end of a search -/

section Done

variable (h : Searching succ nodes active s v new (succ v) t)
include h

theorem le_index {x : Nat} (hx : x ∈ new ++ [v]) : s.next ≤ t.indexOf x :=
  h.ext.later x (h.inv.stack_met x (h.mem_stack.mpr (Or.inl hx))) (h.ext.fresh x hx)

/-- When the search from `v` is over, `v` need not count as active any more. -/
theorem searched_of_done : ∀ w, t.isMet w → w ∉ active → ∀ y ∈ succ w, t.isMet y := by
  intro w hw hactive y hedge
  by_cases hwv : w = v
  · subst hwv
    exact (h.low_done y hedge).1
  · exact h.inv.searched w hw (by simp [hwv, hactive]) y hedge

theorem mem_close_flatten {x : Nat} : x ∈ (t.close v).components.flatten ↔
    x ∈ t.components.flatten ∨ x ∈ new ++ [v] := by
  rw [(close_spec h.stack_eq h.notMem_new).2.1, List.flatten_append, List.mem_append,
    List.flatten_singleton]

variable (hs : s.Invariant succ nodes active)
include hs

theorem index_lt_of_below {x : Nat} (hx : x ∈ s.stack) : t.indexOf x < s.next := by
  have hmet := hs.stack_met x hx
  rw [h.ext.index x hmet]
  exact hs.index_lt x hmet

/-- All edges of the nodes met on the way go to nodes that are met, and none to a waiting node with
a number below the low link. -/
theorem edge_spec {x y : Nat} (hx : x ∈ new ++ [v]) (hedge : y ∈ succ x) :
    t.isMet y ∧ (y ∈ s.stack → t.lowOf v ≤ t.indexOf y) := by
  rcases List.mem_append.mp hx with hmem | hmem
  · refine ⟨h.inv.searched x (h.inv.stack_met x (h.mem_stack.mpr (Or.inl hx))) ?_ y hedge,
      h.low_new x hmem y hedge⟩
    intro hactive
    rcases List.mem_cons.mp hactive with rfl | hactive
    · exact h.notMem_new hmem
    · exact h.ext.fresh x hx (hs.stack_met x (hs.active_waits x hactive))
  · obtain rfl := List.mem_singleton.mp hmem
    exact h.low_done y hedge

/-- A node below `v` leads back to an active node below `v`. -/
theorem leads_back_below {w : Nat} (hw : w ∈ s.stack) :
    ∃ x ∈ active, t.indexOf x ≤ t.indexOf w ∧ Leads succ w x := by
  obtain ⟨x, hx, hle, hpath⟩ := h.inv.leads_back w (h.mem_stack.mpr (Or.inr hw))
  rcases List.mem_cons.mp hx with rfl | hx
  · have hlt := h.index_lt_of_below hs hw
    rw [h.index_eq] at hle
    omega
  · exact ⟨x, hx, hle, hpath⟩

/-- A low link below its own number leaves the node on the stack: it leads to a node below, and so
back to a node that is still active. -/
theorem keep (hlow : t.lowOf v ≠ t.indexOf v) : Visited succ nodes active s v t where
  inv := by
    refine ⟨h.inv.mem_nodes, h.inv.index_lt, h.inv.waiting_iff, h.inv.stack_met, h.inv.sorted,
      h.inv.closed_iff, h.inv.nodup, h.inv.nonempty, h.inv.linked, h.inv.ordered,
      fun x hx => h.inv.active_waits x (List.mem_cons_of_mem _ hx), h.searched_of_done,
      fun x hx => h.inv.leads_on x (List.mem_cons_of_mem _ hx), ?_⟩
    intro w hw
    obtain ⟨x, hx, hle, hpath⟩ := h.inv.leads_back w hw
    rcases List.mem_cons.mp hx with rfl | hx
    · obtain ⟨y, hy, hpathy, hindex⟩ := h.low_leads
      have hylt : t.indexOf y < s.next := by
        have hlowle := h.low_le
        rw [h.index_eq] at hlow
        omega
      have hybelow : y ∈ s.stack := by
        refine (h.mem_stack.mp hy).resolve_left fun hmem => ?_
        have := h.le_index hmem
        omega
      obtain ⟨z, hz, hzle, hpathz⟩ := h.leads_back_below hs hybelow
      refine ⟨z, hz, ?_, (hpath.trans hpathy).trans hpathz⟩
      rw [h.index_eq] at hle
      omega
    · exact ⟨x, hx, hle, hpath⟩
  met := h.inv.stack_met v (h.mem_stack.mpr (Or.inl (by simp)))
  low_of_closed hv := absurd (h.mem_stack.mpr (Or.inl (by simp))) hv
  low_leads _ := h.low_leads
  low_new := ⟨new ++ [v], h.ext, fun x hx y hedge hy => (h.edge_spec hs hx hedge).2 hy⟩

section Close

variable (hlow : t.lowOf v = t.indexOf v)
include hlow

/-- The nodes from `v` up lead to each other and to closed components only. -/
theorem leads_within {x y : Nat} (hx : x ∈ new ++ [v]) (hpath : Leads succ x y) :
    y ∈ new ++ [v] ∨ y ∈ t.components.flatten := by
  induction hpath with
  | refl => exact Or.inl hx
  | @tail y z _ hedge ih =>
    rcases ih with hy | hy
    · obtain ⟨hmet, hle⟩ := h.edge_spec hs hy hedge
      rw [h.inv.closed_iff, h.mem_stack]
      by_cases hz : z ∈ s.stack
      · have hlt := h.index_lt_of_below hs hz
        have hlez := hle hz
        rw [hlow, h.index_eq] at hlez
        omega
      · tauto
    · exact Or.inr (h.inv.closed_of_leads hy (.single hedge))

/-- The nodes from `v` up are a component. -/
theorem linked_iff {x y : Nat} (hx : x ∈ new ++ [v]) : y ∈ new ++ [v] ↔ Linked succ x y := by
  have hfrom : ∀ z ∈ new ++ [v], Leads succ v z := by
    intro z hz
    refine h.inv.leads_on v List.mem_cons_self z (h.mem_stack.mpr (Or.inl hz)) ?_
    rw [h.index_eq]
    exact h.le_index hz
  have hto : ∀ z ∈ new ++ [v], Leads succ z v := by
    intro z hz
    obtain ⟨g, hg, -, hpath⟩ := h.inv.leads_back z (h.mem_stack.mpr (Or.inl hz))
    rcases List.mem_cons.mp hg with rfl | hg
    · exact hpath
    · have hbelow := hs.active_waits g hg
      rcases h.leads_within hs hlow hz hpath with hmem | hmem
      · exact absurd (hs.stack_met g hbelow) (h.ext.fresh g hmem)
      · exact absurd (h.mem_stack.mpr (Or.inr hbelow)) ((h.inv.closed_iff g).mp hmem).2
  constructor
  · intro hy
    exact ⟨(hto x hx).trans (hfrom y hy), (hto y hy).trans (hfrom x hx)⟩
  · rintro ⟨hxy, hyx⟩
    refine (h.leads_within hs hlow hx hxy).resolve_right fun hclosed => ?_
    have hxclosed := h.inv.closed_of_leads hclosed hyx
    exact ((h.inv.closed_iff x).mp hxclosed).2 (h.mem_stack.mpr (Or.inl hx))

/-- The component closed last leads to those closed before. -/
theorem close_ordered {i : Nat} {c : List Nat} (hi : (t.close v).components[i]? = some c) {x y : Nat}
    (hx : x ∈ c) (hedge : y ∈ succ x) :
    y ∈ c ∨ y ∈ ((t.close v).components.take i).flatten := by
  rw [(close_spec h.stack_eq h.notMem_new).2.1] at hi ⊢
  rcases Nat.lt_or_ge i t.components.length with hlt | hge
  · rw [List.getElem?_append_left hlt] at hi
    rw [List.take_append_of_le_length hlt.le]
    exact h.inv.ordered i c hi x hx y hedge
  · rw [List.getElem?_append_right hge] at hi
    obtain ⟨hi, hc⟩ := List.getElem?_eq_some_iff.mp hi
    obtain rfl : i = t.components.length := by
      simp only [List.length_singleton] at hi
      omega
    simp only [Nat.sub_self, List.getElem_cons_zero] at hc
    subst hc
    rw [List.take_left]
    exact h.leads_within hs hlow hx (.single hedge)

theorem close_invariant : (t.close v).Invariant succ nodes active := by
  obtain ⟨hstack, hcomponents, hwaiting⟩ := close_spec h.stack_eq h.notMem_new
  have hnodup := h.inv.stack_nodup
  have hsorted := h.inv.sorted
  rw [h.stack_eq] at hsorted
  rw [h.ext.stack] at hnodup
  have hdisjoint : ∀ x ∈ s.stack, x ∉ new ++ [v] := fun x hx hmem =>
    h.ext.fresh x hmem (hs.stack_met x hx)
  refine ⟨h.inv.mem_nodes, h.inv.index_lt, ?_, ?_, ?_, ?_, ?_, ?_, ?_,
    fun i c hi x hx y => h.close_ordered hs hlow hi hx, ?_, h.searched_of_done, ?_, ?_⟩
  · intro x
    rw [hwaiting, h.inv.waiting_iff, h.mem_stack, hstack]
    exact ⟨fun ⟨hx, hmem⟩ => hmem.resolve_left hx, fun hx => ⟨hdisjoint x hx, Or.inr hx⟩⟩
  · intro x hx
    rw [hstack] at hx
    exact h.ext.met x (hs.stack_met x hx)
  · rw [hstack]
    exact (List.pairwise_append.mp hsorted).2.1.of_cons
  · intro x
    rw [h.mem_close_flatten, h.inv.closed_iff, h.mem_stack, hstack]
    constructor
    · rintro (⟨hmet, hx⟩ | hx)
      · exact ⟨hmet, fun hmem => hx (Or.inr hmem)⟩
      · exact ⟨h.inv.stack_met x (h.mem_stack.mpr (Or.inl hx)), fun hmem => hdisjoint x hmem hx⟩
    · rintro ⟨hmet, hx⟩
      by_cases hmem : x ∈ new ++ [v]
      · exact Or.inr hmem
      · exact Or.inl ⟨hmet, by tauto⟩
  · rw [hcomponents, List.flatten_append, List.flatten_singleton, List.nodup_append]
    refine ⟨h.inv.nodup, (List.nodup_append.mp hnodup).1, ?_⟩
    rintro x hx y hy rfl
    exact ((h.inv.closed_iff x).mp hx).2 (h.mem_stack.mpr (Or.inl hy))
  · intro c hc
    rw [hcomponents, List.mem_append, List.mem_singleton] at hc
    rcases hc with hc | rfl
    · exact h.inv.nonempty c hc
    · simp
  · intro c hc x hx y
    rw [hcomponents, List.mem_append, List.mem_singleton] at hc
    rcases hc with hc | rfl
    · exact h.inv.linked c hc x hx y
    · exact h.linked_iff hs hlow hx
  · intro x hx
    rw [hstack]
    exact hs.active_waits x hx
  · intro x hx w hw
    rw [hstack] at hw
    exact h.inv.leads_on x (List.mem_cons_of_mem _ hx) w (h.mem_stack.mpr (Or.inr hw))
  · intro w hw
    rw [hstack] at hw
    exact h.leads_back_below hs hw

/-- A low link equal to its own number closes the component of the node. -/
theorem close : Visited succ nodes active s v (t.close v) where
  inv := h.close_invariant hs hlow
  met := h.inv.stack_met v (h.mem_stack.mpr (Or.inl (by simp)))
  low_of_closed _ := hlow
  low_leads hv := by
    rw [(close_spec h.stack_eq h.notMem_new).1] at hv
    exact absurd (hs.stack_met v hv) (h.ext.fresh v (by simp))
  low_new := ⟨[], ⟨h.ext.met, h.ext.index, h.ext.low, (close_spec h.stack_eq h.notMem_new).1,
    by simp, h.ext.later, h.ext.next_le⟩, by simp⟩

end Close

end Done

end Searching

/-- The nodes of `nodes` that a search has not met. -/
def unmet (nodes : Finset Nat) (s : ComponentSearch) : Finset Nat := nodes.filter (¬ s.isMet ·)

/-- While a search from a new node runs, one node less is left to meet than before. -/
theorem Searching.card_unmet_lt {done : List Nat} (h : Searching succ nodes active s v new done t)
    (hv : v ∈ nodes) (hnew : ¬ s.isMet v) : (unmet nodes t).card < (unmet nodes s).card := by
  refine Finset.card_lt_card (Finset.ssubset_iff_of_subset ?_ |>.mpr ⟨v, ?_, ?_⟩)
  · intro x hx
    simp only [unmet, Finset.mem_filter] at hx ⊢
    exact ⟨hx.1, fun hmet => hx.2 (h.ext.met x hmet)⟩
  · simp [unmet, hv, hnew]
  · simp [unmet, h.inv.stack_met v (h.mem_stack.mpr (Or.inl (by simp)))]

/-- Following edges from `v` in order, given what a search from a new node does. -/
theorem Searching.foldl_follow {visit : Nat → ComponentSearch → ComponentSearch} {depth : Nat}
    (hs : s.Invariant succ nodes active) (hv : v ∈ nodes) (hnew : ¬ s.isMet v)
    (hdepth : (unmet nodes s).card ≤ depth + 1)
    (hvisit : ∀ w ∈ succ v, ∀ t, t.Invariant succ nodes (v :: active) → ¬ t.isMet w →
      (unmet nodes t).card ≤ depth → Visited succ nodes (v :: active) t w (visit w t))
    (ws : List Nat) (hws : ∀ w ∈ ws, w ∈ succ v) {done : List Nat}
    (h : Searching succ nodes active s v new done t) :
    ∃ new, Searching succ nodes active s v new (done ++ ws) (ws.foldl (follow visit v) t) := by
  induction ws generalizing new done t with
  | nil => exact ⟨new, by simpa using h⟩
  | cons w ws ih =>
    have hedge := hws w List.mem_cons_self
    have hstep : ∃ new, Searching succ nodes active s v new (done ++ [w]) (follow visit v t w) := by
      unfold follow
      split
      next hmet =>
        split
        next hwaits => exact ⟨new, h.lower hnew hedge ((h.inv.waiting_iff w).mp hwaits)⟩
        next hwaits => exact ⟨new, h.skip hmet fun hw => hwaits ((h.inv.waiting_iff w).mpr hw)⟩
      next hmet =>
        have hless := h.card_unmet_lt hv hnew
        exact h.visited hs hnew hedge hmet (hvisit w hedge t h.inv hmet (by omega))
    obtain ⟨new', h'⟩ := hstep
    have hrest := ih (fun x hx => hws x (List.mem_cons_of_mem _ hx)) h'
    rwa [List.append_assoc, List.singleton_append] at hrest

end ComponentSearch

open ComponentSearch

variable {succ : Nat → List Nat} {nodes : Finset Nat}

/-- A search from a new node does its work if its depth is not less than the number of nodes still
to be met. -/
theorem connect_visited (hclosed : ∀ v ∈ nodes, ∀ w ∈ succ v, w ∈ nodes) (depth v : Nat)
    (hv : v ∈ nodes) (active : List Nat) (s : ComponentSearch)
    (hs : s.Invariant succ nodes active) (hnew : ¬ s.isMet v)
    (hactive : ∀ x ∈ active, Leads succ x v) (hdepth : (unmet nodes s).card ≤ depth) :
    Visited succ nodes active s v (connect succ depth v s) := by
  induction depth generalizing v active s with
  | zero =>
    have hmem : v ∈ unmet nodes s := by simp [unmet, hv, hnew]
    have := Finset.card_pos.mpr ⟨v, hmem⟩
    omega
  | succ depth ih =>
    obtain ⟨new, h⟩ := (searching_enter hs hv hnew hactive).foldl_follow hs hv hnew hdepth
      (fun w hw t ht hmet hless => by
        refine ih w (hclosed v hv w hw) (v :: active) t ht hmet (fun x hx => ?_) hless
        rcases List.mem_cons.mp hx with rfl | hx
        · exact .single hw
        · exact (hactive x hx).tail hw)
      (succ v) (fun _ hw => hw)
    rw [List.nil_append] at h
    rw [connect]
    split
    next hlow => exact h.close hs hlow
    next hlow => exact h.keep hs hlow

/-! ## The whole search -/

section Search

variable {depth : Nat} {roots : List Nat} (hclosed : ∀ v ∈ roots, ∀ w ∈ succ v, w ∈ roots)
  (hdepth : roots.length ≤ depth)
include hclosed hdepth

theorem foldl_connect (vs : List Nat) (hvs : ∀ v ∈ vs, v ∈ roots) (s : ComponentSearch)
    (hs : s.Invariant succ roots.toFinset []) :
    let t := vs.foldl (fun s v => if s.isMet v then s else connect succ depth v s) s
    t.Invariant succ roots.toFinset [] ∧ (∀ v, s.isMet v → t.isMet v) ∧ ∀ v ∈ vs, t.isMet v := by
  induction vs generalizing s with
  | nil => exact ⟨hs, fun _ hv => hv, by simp⟩
  | cons v vs ih =>
    have hstep : ∃ t, (if s.isMet v then s else connect succ depth v s) = t ∧
        t.Invariant succ roots.toFinset [] ∧ (∀ w, s.isMet w → t.isMet w) ∧ t.isMet v := by
      refine ⟨_, rfl, ?_⟩
      split
      next hmet => exact ⟨hs, fun _ hw => hw, hmet⟩
      next hmet =>
        have hcard : (unmet roots.toFinset s).card ≤ depth :=
          ((Finset.card_filter_le _ _).trans (List.toFinset_card_le roots)).trans hdepth
        have hvisited := connect_visited (by simpa using hclosed) depth v
          (by simpa using hvs v List.mem_cons_self) [] s hs hmet (by simp) hcard
        obtain ⟨new, hext, -⟩ := hvisited.low_new
        exact ⟨hvisited.inv, hext.met, hvisited.met⟩
    obtain ⟨t, ht, hinv, hmono, hv⟩ := hstep
    rw [List.foldl_cons, ht]
    obtain ⟨hinv', hmono', hall⟩ := ih (fun w hw => hvs w (List.mem_cons_of_mem _ hw)) t hinv
    refine ⟨hinv', fun w hw => hmono' w (hmono w hw), fun w hw => ?_⟩
    rcases List.mem_cons.mp hw with rfl | hw
    · exact hmono' w hv
    · exact hall w hw

theorem searchComponents_spec :
    (searchComponents succ depth roots).Invariant succ roots.toFinset [] ∧
      ∀ v ∈ roots, (searchComponents succ depth roots).isMet v := by
  obtain ⟨hinv, -, hall⟩ :=
    foldl_connect hclosed hdepth roots (fun _ hv => hv) .start (invariant_start succ _)
  exact ⟨hinv, hall⟩

/-- Every root is in a component, and nothing else is. -/
theorem mem_components {v : Nat} : v ∈ (components succ depth roots).flatten ↔ v ∈ roots := by
  obtain ⟨hinv, hall⟩ := searchComponents_spec hclosed hdepth
  -- nothing is left on the stack, since there is no active node to lead back to
  rw [components, hinv.closed_iff]
  constructor
  · rintro ⟨hmet, -⟩
    simpa using hinv.mem_nodes v hmet
  · intro hv
    refine ⟨hall v hv, fun hmem => ?_⟩
    obtain ⟨x, hx, -⟩ := hinv.leads_back v hmem
    simp at hx

theorem components_nodup : (components succ depth roots).flatten.Nodup :=
  (searchComponents_spec hclosed hdepth).1.nodup

theorem ne_nil_of_mem_components {c : List Nat} (hc : c ∈ components succ depth roots) : c ≠ [] :=
  (searchComponents_spec hclosed hdepth).1.nonempty c hc

/-- A component holds what its members lead to and are led to from. -/
theorem mem_component_iff {c : List Nat} (hc : c ∈ components succ depth roots) {v w : Nat}
    (hv : v ∈ c) : w ∈ c ↔ Linked succ v w :=
  (searchComponents_spec hclosed hdepth).1.linked c hc v hv w

/-- An edge leaves a component only for an earlier one. -/
theorem components_ordered {c : List Nat} {i : Nat}
    (hi : (components succ depth roots)[i]? = some c) {v w : Nat} (hv : v ∈ c)
    (hedge : w ∈ succ v) : w ∈ c ∨ w ∈ ((components succ depth roots).take i).flatten :=
  (searchComponents_spec hclosed hdepth).1.ordered i c hi v hv w hedge

end Search

end Tenure.Graph

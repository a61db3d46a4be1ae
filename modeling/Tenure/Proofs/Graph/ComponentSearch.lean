import Tenure.Graph.Components
import Tenure.Proofs.Graph.Search

/-!
# What holds while components are searched for

A search has nodes that it is searching from (`active`), and nodes that wait on the stack.
`Invariant` says how they hang together: an active node leads to all that stands above it on the
stack, everything on the stack leads back to an active node below it, and the closed components are
right and lead to closed components only. `Extends` says what a search from a new node leaves as it
was.
-/

namespace Tenure.Graph

open Relation

/-- A path leads from one node to the other. -/
def Leads (succ : Nat → List Nat) : Nat → Nat → Prop := ReflTransGen (Edge succ)

/-- The nodes lead to each other. -/
def Linked (succ : Nat → List Nat) (v w : Nat) : Prop := Leads succ v w ∧ Leads succ w v

namespace ComponentSearch

variable {succ : Nat → List Nat} {nodes : Finset Nat} {active new : List Nat}
  {s t u : ComponentSearch} {v w bound : Nat}

/-! ## Single steps -/

theorem isMet_enter : (s.enter v).isMet w ↔ w = v ∨ s.isMet w := by
  by_cases h : w = v
  · subst h
    simp [isMet, enter]
  · simp [isMet, enter, List.lookup_cons, beq_false_of_ne h, h]

theorem indexOf_enter_self : (s.enter v).indexOf v = s.next := by
  simp [indexOf, enter]

theorem indexOf_enter_of_ne (h : w ≠ v) : (s.enter v).indexOf w = s.indexOf w := by
  simp [indexOf, enter, List.lookup_cons, beq_false_of_ne h]

theorem lowOf_enter_self : (s.enter v).lowOf v = s.next := by
  simp [lowOf, enter]

theorem lowOf_enter_of_ne (h : w ≠ v) : (s.enter v).lowOf w = s.lowOf w := by
  simp [lowOf, enter, List.lookup_cons, beq_false_of_ne h]

theorem isWaiting_enter : (s.enter v).isWaiting w ↔ w = v ∨ s.isWaiting w := by
  by_cases h : w = v
  · subst h
    simp [isWaiting, enter]
  · simp [isWaiting, enter, List.lookup_cons, beq_false_of_ne h, h]

theorem lowOf_lower_self : (s.lower v bound).lowOf v = min (s.lowOf v) bound := by
  simp only [lowOf, lower, List.lookup_cons_self, Option.getD_some]

theorem lowOf_lower_of_ne (h : w ≠ v) : (s.lower v bound).lowOf w = s.lowOf w := by
  simp [lowOf, lower, List.lookup_cons, beq_false_of_ne h]

theorem popTo_append {root : Nat} {rest : List Nat} (h : root ∉ new) :
    popTo root (new ++ root :: rest) = (new ++ [root], rest) := by
  induction new with
  | nil => simp [popTo]
  | cons x new ih =>
    rw [List.mem_cons, not_or] at h
    rw [List.cons_append, popTo, if_neg (Ne.symm h.1), ih h.2]
    rfl

theorem lookup_foldl_false (taken : List Nat) (waiting : List (Nat × Bool)) :
    ((taken.foldl (fun waiting v => (v, false) :: waiting) waiting).lookup w).getD false =
      (!taken.contains w && (waiting.lookup w).getD false) := by
  induction taken generalizing waiting with
  | nil => simp
  | cons x taken ih =>
    rw [List.foldl_cons, ih, List.contains_cons]
    by_cases h : w = x
    · subst h
      simp
    · simp [List.lookup_cons, beq_false_of_ne h]

/-- Closing takes the component off the top of the stack. -/
theorem close_spec {rest : List Nat} (hstack : s.stack = new ++ v :: rest) (hv : v ∉ new) :
    (s.close v).stack = rest ∧ (s.close v).components = s.components ++ [new ++ [v]] ∧
      ∀ w, (s.close v).isWaiting w ↔ w ∉ new ++ [v] ∧ s.isWaiting w := by
  have hpop : popTo v (new ++ v :: rest) = (new ++ [v], rest) := popTo_append hv
  simp only [close, hstack, hpop, true_and]
  intro w
  simp only [isWaiting, lookup_foldl_false]
  simp

/-! ## What holds between steps -/

/-- What holds of a search while it is searching from the nodes `active`. -/
structure Invariant (succ : Nat → List Nat) (nodes : Finset Nat) (active : List Nat)
    (s : ComponentSearch) : Prop where
  mem_nodes : ∀ v, s.isMet v → v ∈ nodes
  index_lt : ∀ v, s.isMet v → s.indexOf v < s.next
  waiting_iff : ∀ v, s.isWaiting v ↔ v ∈ s.stack
  stack_met : ∀ v ∈ s.stack, s.isMet v
  sorted : s.stack.Pairwise fun v w => s.indexOf w < s.indexOf v
  closed_iff : ∀ v, v ∈ s.components.flatten ↔ s.isMet v ∧ v ∉ s.stack
  nodup : s.components.flatten.Nodup
  nonempty : ∀ c ∈ s.components, c ≠ []
  linked : ∀ c ∈ s.components, ∀ v ∈ c, ∀ w, w ∈ c ↔ Linked succ v w
  ordered : ∀ i c, s.components[i]? = some c → ∀ v ∈ c, ∀ w ∈ succ v,
    w ∈ c ∨ w ∈ (s.components.take i).flatten
  active_waits : ∀ v ∈ active, v ∈ s.stack
  searched : ∀ v, s.isMet v → v ∉ active → ∀ w ∈ succ v, s.isMet w
  leads_on : ∀ v ∈ active, ∀ w ∈ s.stack, s.indexOf v ≤ s.indexOf w → Leads succ v w
  leads_back : ∀ w ∈ s.stack, ∃ v ∈ active, s.indexOf v ≤ s.indexOf w ∧ Leads succ w v

theorem invariant_start (succ : Nat → List Nat) (nodes : Finset Nat) :
    start.Invariant succ nodes [] := by
  constructor <;> simp [start, isMet, isWaiting]

namespace Invariant

/-- Closed components lead to closed components only. -/
theorem closed_of_leads (h : s.Invariant succ nodes active) (hv : v ∈ s.components.flatten)
    (hpath : Leads succ v w) : w ∈ s.components.flatten := by
  induction hpath with
  | refl => exact hv
  | tail _ hedge ih =>
    obtain ⟨c, hc, hmem⟩ := List.mem_flatten.mp ih
    obtain ⟨i, hi⟩ := List.mem_iff_getElem?.mp hc
    rcases h.ordered i c hi _ hmem _ hedge with hw | hw
    · exact List.mem_flatten.mpr ⟨c, hc, hw⟩
    · obtain ⟨d, hd, hw⟩ := List.mem_flatten.mp hw
      exact List.mem_flatten.mpr ⟨d, List.mem_of_mem_take hd, hw⟩

theorem stack_nodup (h : s.Invariant succ nodes active) : s.stack.Nodup :=
  h.sorted.imp fun {a b} hlt heq => by subst heq; omega

/-- Low links are of no account here. -/
theorem lower (h : s.Invariant succ nodes active) (v bound : Nat) :
    (s.lower v bound).Invariant succ nodes active :=
  ⟨h.mem_nodes, h.index_lt, h.waiting_iff, h.stack_met, h.sorted, h.closed_iff, h.nodup, h.nonempty,
    h.linked, h.ordered, h.active_waits, h.searched, h.leads_on, h.leads_back⟩

/-- A new node that all active nodes lead to becomes active itself. -/
theorem enter (h : s.Invariant succ nodes active) (hv : v ∈ nodes) (hnew : ¬ s.isMet v)
    (hactive : ∀ x ∈ active, Leads succ x v) :
    (s.enter v).Invariant succ nodes (v :: active) := by
  have hne : ∀ w, s.isMet w → w ≠ v := by
    rintro w hw rfl
    exact hnew hw
  have hindex : ∀ w, s.isMet w → (s.enter v).indexOf w = s.indexOf w := fun w hw =>
    indexOf_enter_of_ne (hne w hw)
  have hstack : ∀ w ∈ s.stack, (s.enter v).indexOf w = s.indexOf w := fun w hw =>
    hindex w (h.stack_met w hw)
  have hlt : ∀ w ∈ s.stack, (s.enter v).indexOf w < (s.enter v).indexOf v := by
    intro w hw
    rw [hstack w hw, indexOf_enter_self]
    exact h.index_lt w (h.stack_met w hw)
  refine ⟨?_, ?_, ?_, ?_, ?_, ?_, h.nodup, h.nonempty, h.linked, h.ordered, ?_, ?_, ?_, ?_⟩
  · intro w hw
    rcases isMet_enter.mp hw with rfl | hw
    · exact hv
    · exact h.mem_nodes w hw
  · intro w hw
    show (s.enter v).indexOf w < s.next + 1
    rcases isMet_enter.mp hw with rfl | hw
    · rw [indexOf_enter_self]
      omega
    · rw [hindex w hw]
      have := h.index_lt w hw
      omega
  · intro w
    show _ ↔ w ∈ v :: s.stack
    rw [isWaiting_enter, List.mem_cons, h.waiting_iff]
  · intro w hw
    rw [isMet_enter]
    exact (List.mem_cons.mp hw).imp_right (h.stack_met w)
  · refine List.pairwise_cons.mpr ⟨hlt, h.sorted.imp_of_mem fun {a b} ha hb hab => ?_⟩
    rw [hstack a ha, hstack b hb]
    exact hab
  · intro w
    show w ∈ s.components.flatten ↔ _ ∧ w ∉ v :: s.stack
    rw [h.closed_iff, isMet_enter, List.mem_cons, not_or]
    constructor
    · rintro ⟨hmet, hw⟩
      exact ⟨Or.inr hmet, hne w hmet, hw⟩
    · rintro ⟨hmet, hwv, hw⟩
      exact ⟨hmet.resolve_left hwv, hw⟩
  · intro x hx
    show x ∈ v :: s.stack
    rcases List.mem_cons.mp hx with rfl | hx
    · exact List.mem_cons_self
    · exact List.mem_cons_of_mem _ (h.active_waits x hx)
  · intro w hw hx x hedge
    rw [List.mem_cons, not_or] at hx
    exact isMet_enter.mpr (Or.inr (h.searched w ((isMet_enter.mp hw).resolve_left hx.1) hx.2 x hedge))
  · intro x hx w hw hle
    rcases List.mem_cons.mp hx with rfl | hold
    · -- nothing stands above the new node
      rcases List.mem_cons.mp hw with rfl | hw
      · exact .refl
      · have := hlt w hw
        omega
    · rcases List.mem_cons.mp hw with rfl | hw
      · exact hactive x hold
      · rw [hstack x (h.active_waits x hold), hstack w hw] at hle
        exact h.leads_on x hold w hw hle
  · intro w hw
    rcases List.mem_cons.mp hw with rfl | hw
    · exact ⟨w, List.mem_cons_self, le_rfl, .refl⟩
    · obtain ⟨x, hx, hle, hpath⟩ := h.leads_back w hw
      refine ⟨x, List.mem_cons_of_mem _ hx, ?_, hpath⟩
      rw [hstack x (h.active_waits x hx), hstack w hw]
      exact hle

end Invariant

/-- The search went from `s` to `t` and left the nodes `new` on top of the stack. -/
structure Extends (s : ComponentSearch) (new : List Nat) (t : ComponentSearch) : Prop where
  met : ∀ v, s.isMet v → t.isMet v
  index : ∀ v, s.isMet v → t.indexOf v = s.indexOf v
  low : ∀ v, s.isMet v → t.lowOf v = s.lowOf v
  stack : t.stack = new ++ s.stack
  fresh : ∀ v ∈ new, ¬ s.isMet v
  later : ∀ v, t.isMet v → ¬ s.isMet v → s.next ≤ t.indexOf v
  next_le : s.next ≤ t.next

theorem Extends.trans {later : List Nat} (h : Extends s new t) (h' : Extends t later u) :
    Extends s (later ++ new) u where
  met v hv := h'.met v (h.met v hv)
  index v hv := (h'.index v (h.met v hv)).trans (h.index v hv)
  low v hv := (h'.low v (h.met v hv)).trans (h.low v hv)
  stack := by rw [h'.stack, h.stack, List.append_assoc]
  fresh v hv := by
    rcases List.mem_append.mp hv with hv | hv
    · exact fun hs => h'.fresh v hv (h.met v hs)
    · exact h.fresh v hv
  later v hu hs := by
    by_cases ht : t.isMet v
    · rw [h'.index v ht]
      exact h.later v ht hs
    · exact h.next_le.trans (h'.later v hu ht)
  next_le := h.next_le.trans h'.next_le

theorem Extends.lower (h : Extends s new t) (hv : ¬ s.isMet v) (bound : Nat) :
    Extends s new (t.lower v bound) where
  met := h.met
  index := h.index
  low w hw := by
    have hne : w ≠ v := by
      rintro rfl
      exact hv hw
    rw [lowOf_lower_of_ne hne]
    exact h.low w hw
  stack := h.stack
  fresh := h.fresh
  later := h.later
  next_le := h.next_le

theorem extends_enter (hv : ¬ s.isMet v) : Extends s [v] (s.enter v) := by
  have hne : ∀ w, s.isMet w → w ≠ v := by
    rintro w hw rfl
    exact hv hw
  refine ⟨fun w hw => isMet_enter.mpr (Or.inr hw), fun w hw => indexOf_enter_of_ne (hne w hw),
    fun w hw => lowOf_enter_of_ne (hne w hw), rfl, ?_, ?_, Nat.le_succ _⟩
  · intro w hw
    rw [List.mem_singleton.mp hw]
    exact hv
  · intro w hw hs
    obtain rfl := (isMet_enter.mp hw).resolve_right hs
    rw [indexOf_enter_self]

end ComponentSearch

end Tenure.Graph

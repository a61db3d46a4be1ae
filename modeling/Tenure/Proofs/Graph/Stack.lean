import Mathlib.Logic.Function.Iterate
import Tenure.Proofs.Graph.Search

/-!
# Searches that keep a stack

Two loops do the work of the recursive search. A `Worklist` keeps the nodes that are still to be
looked at. It runs out of them, and has then met exactly the nodes on a path from the first ones
(`Worklist.exists_end`). A `Trail` keeps the nodes that it has entered and not finished, each with
the index of its next successor. It comes to the end of its trail with the nodes finished that the
recursive search finishes, in the same order (`Trail.leads_visit`).
-/

namespace Tenure.Graph

open Relation

variable {succ : Nat → List Nat} {nodes : Finset Nat}

/-! ## Nodes to be looked at -/

/-- How far a search has come that keeps the nodes to be looked at on a stack. -/
structure Worklist where
  seen : List Nat
  /-- The nodes to be looked at, the next one first. A node may be there more than once. -/
  stack : List Nat

namespace Worklist

variable {roots : List Nat} {s : Worklist}

/-- Take a node from the stack. If it is new, put its successors there, the last one on top. -/
def step (succ : Nat → List Nat) (s : Worklist) : Worklist :=
  match s.stack with
  | [] => s
  | v :: rest =>
    if v ∈ s.seen then ⟨s.seen, rest⟩ else ⟨v :: s.seen, (succ v).reverse ++ rest⟩

/-- What is true of a search from the roots at any time. -/
structure Sound (succ : Nat → List Nat) (roots : List Nat) (s : Worklist) : Prop where
  met : ∀ v ∈ roots, v ∈ s.seen ∨ v ∈ s.stack
  path : ∀ x, x ∈ s.seen ∨ x ∈ s.stack → ∃ v ∈ roots, ReflTransGen (Edge succ) v x
  closed : ∀ x ∈ s.seen, ∀ y ∈ succ x, y ∈ s.seen ∨ y ∈ s.stack

theorem Sound.step (h : s.Sound succ roots) : (s.step succ).Sound succ roots := by
  obtain ⟨seen, stack⟩ := s
  cases stack with
  | nil => exact h
  | cons v rest =>
    rw [Worklist.step]
    dsimp only
    split
    next hseen =>
      -- only a node that has been met leaves the stack
      have hkept : ∀ x, x ∈ seen ∨ x ∈ v :: rest ↔ x ∈ seen ∨ x ∈ rest := by
        intro x
        rw [List.mem_cons]
        exact ⟨by rintro (hx | rfl | hx) <;> tauto, by tauto⟩
      exact ⟨fun x hx => (hkept x).mp (h.met x hx), fun x hx => h.path x ((hkept x).mpr hx),
        fun x hx y hy => (hkept y).mp (h.closed x hx y hy)⟩
    next hseen =>
      have hkept : ∀ x, x ∈ seen ∨ x ∈ v :: rest →
          x ∈ v :: seen ∨ x ∈ (succ v).reverse ++ rest := by
        intro x
        simp only [List.mem_cons, List.mem_append]
        tauto
      refine ⟨fun x hx => hkept x (h.met x hx), fun x hx => ?_, fun x hx y hy => ?_⟩
      · simp only [List.mem_cons, List.mem_append, List.mem_reverse] at hx
        rcases hx with (rfl | hx) | hx | hx
        · exact h.path x (.inr List.mem_cons_self)
        · exact h.path x (.inl hx)
        · obtain ⟨r, hr, hrv⟩ := h.path v (.inr List.mem_cons_self)
          exact ⟨r, hr, hrv.tail hx⟩
        · exact h.path x (.inr (List.mem_cons_of_mem v hx))
      · rcases List.mem_cons.mp hx with rfl | hx
        · exact .inr (List.mem_append_left _ (List.mem_reverse.mpr hy))
        · exact hkept y (h.closed x hx y hy)

theorem Sound.iterate (h : s.Sound succ roots) (n : Nat) :
    ((Worklist.step succ)^[n] s).Sound succ roots := by
  induction n with
  | zero => exact h
  | succ n ih =>
    rw [Function.iterate_succ_apply']
    exact ih.step

/-- The stack runs empty: a node is new only once, and else the stack gets shorter. -/
theorem exists_stack_eq_nil (hclosed : ∀ v ∈ nodes, ∀ w ∈ succ v, w ∈ nodes) (s : Worklist)
    (hstack : ∀ v ∈ s.stack, v ∈ nodes) : ∃ n, ((step succ)^[n] s).stack = [] := by
  obtain ⟨seen, stack⟩ := s
  induction hcount : (unseen nodes ⟨seen, []⟩).card using Nat.strongRecOn
    generalizing seen stack with
  | ind count ih =>
    induction stack with
    | nil => exact ⟨0, rfl⟩
    | cons v rest ihrest =>
      have hv : v ∈ nodes := hstack v List.mem_cons_self
      have hrest : ∀ w ∈ rest, w ∈ nodes := fun w hw => hstack w (List.mem_cons_of_mem v hw)
      by_cases hseen : v ∈ seen
      · obtain ⟨n, hn⟩ := ihrest hrest
        refine ⟨n + 1, ?_⟩
        rw [Function.iterate_succ_apply, step]
        simpa [hseen] using hn
      · have hless := card_unseen_cons (s := ⟨seen, []⟩) hv hseen []
        have hnext : ∀ w ∈ (succ v).reverse ++ rest, w ∈ nodes := by
          intro w hw
          rcases List.mem_append.mp hw with hw | hw
          · exact hclosed v hv w (List.mem_reverse.mp hw)
          · exact hrest w hw
        obtain ⟨n, hn⟩ := ih _ (hcount ▸ hless) (v :: seen) _ hnext rfl
        refine ⟨n + 1, ?_⟩
        rw [Function.iterate_succ_apply, step]
        simpa [hseen] using hn

/-- The search ends, and has then met exactly the nodes on a path from a root. -/
theorem exists_end (hclosed : ∀ v ∈ nodes, ∀ w ∈ succ v, w ∈ nodes)
    (hroots : ∀ v ∈ roots, v ∈ nodes) :
    ∃ n seen, (step succ)^[n] ⟨[], roots⟩ = ⟨seen, []⟩ ∧
      ∀ x, x ∈ seen ↔ ∃ v ∈ roots, ReflTransGen (Edge succ) v x := by
  obtain ⟨n, hn⟩ := exists_stack_eq_nil hclosed ⟨[], roots⟩ hroots
  have hstart : Sound succ roots ⟨[], roots⟩ :=
    ⟨fun v hv => .inr hv, fun x hx => ⟨x, by simpa using hx, .refl⟩, nofun⟩
  have hsound := hstart.iterate n
  generalize hlast : (step succ)^[n] ⟨[], roots⟩ = last at hn hsound
  obtain ⟨seen, stack⟩ := last
  obtain rfl : stack = [] := hn
  refine ⟨n, seen, hlast, fun x => ⟨fun hx => hsound.path x (.inl hx), ?_⟩⟩
  rintro ⟨v, hv, hpath⟩
  induction hpath with
  | refl => exact (hsound.met v hv).resolve_right List.not_mem_nil
  | tail _ hstep ih => exact (hsound.closed _ ih _ hstep).resolve_right List.not_mem_nil

end Worklist

/-! ## Nodes on the way -/

/-- How far a search has come that keeps its way on a stack. -/
structure Trail extends Search where
  /-- The nodes that were entered and are not finished, the latest first, each with the index of its
  next successor. -/
  stack : List (Nat × Nat)

namespace Trail

/-- Look at the next successor of the latest node: enter it if it is new. Without one the node is
finished. -/
def step (succ : Nat → List Nat) (s : Trail) : Trail :=
  match s.stack with
  | [] => s
  | (v, i) :: rest =>
    match (succ v)[i]? with
    | some w =>
      if w ∈ s.seen then ⟨s.toSearch, (v, i + 1) :: rest⟩
      else ⟨⟨w :: s.seen, s.finished⟩, (w, 0) :: (v, i + 1) :: rest⟩
    | none => ⟨⟨s.seen, v :: s.finished⟩, rest⟩

/-- Some number of steps leads from one state to the other. -/
def Leads (succ : Nat → List Nat) (s t : Trail) : Prop := ∃ n, (step succ)^[n] s = t

variable {s t u : Trail} {v : Nat} {rest : List (Nat × Nat)}

theorem Leads.head (h : Leads succ (s.step succ) t) : Leads succ s t := by
  obtain ⟨n, hn⟩ := h
  exact ⟨n + 1, hn⟩

theorem Leads.trans (hst : Leads succ s t) (htu : Leads succ t u) : Leads succ s u := by
  obtain ⟨n, rfl⟩ := hst
  obtain ⟨m, rfl⟩ := htu
  exact ⟨m + n, Function.iterate_add_apply _ m n s⟩

theorem visit_of_seen (succ : Nat → List Nat) (depth : Nat) {v : Nat} {s : Search}
    (h : v ∈ s.seen) : visit succ depth v s = s := by
  cases depth with
  | zero => rfl
  | succ depth => rw [visit, if_pos h]

/-- From some successor on, the trail does what visits to the remaining ones do, and finishes the
node. -/
theorem leads_successors {depth : Nat} {ready : Search → Prop}
    (hready : ∀ w ∈ succ v, ∀ s, ready s → ready (visit succ depth w s))
    (henter : ∀ w ∈ succ v, ∀ s, ready s → w ∉ s.seen → ∀ rest,
      Leads succ ⟨⟨w :: s.seen, s.finished⟩, (w, 0) :: rest⟩ ⟨visit succ depth w s, rest⟩)
    (remaining : List Nat) (i : Nat) (hremaining : (succ v).drop i = remaining) (s : Search)
    (hs : ready s) :
    Leads succ ⟨s, (v, i) :: rest⟩
      ⟨⟨(remaining.foldl (fun s w => visit succ depth w s) s).seen,
        v :: (remaining.foldl (fun s w => visit succ depth w s) s).finished⟩, rest⟩ := by
  induction remaining generalizing i s with
  | nil =>
    have hnone : (succ v)[i]? = none :=
      List.getElem?_eq_none (List.drop_eq_nil_iff.mp hremaining)
    refine ⟨1, ?_⟩
    simp [step, hnone]
  | cons w remaining ih =>
    have hsome : (succ v)[i]? = some w := by
      rw [← List.head?_drop, hremaining]
      rfl
    have hw : w ∈ succ v := List.mem_of_getElem? hsome
    have hnext : (succ v).drop (i + 1) = remaining := by
      rw [← List.tail_drop, hremaining]
      rfl
    have hlater := ih (i + 1) hnext (visit succ depth w s) (hready w hw s hs)
    refine Leads.head ?_
    by_cases hseen : w ∈ s.seen
    · rw [visit_of_seen succ depth hseen] at hlater
      simpa [step, hsome, hseen, visit_of_seen succ depth hseen] using hlater
    · have hvisit := henter w hw s hs hseen ((v, i + 1) :: rest)
      simpa [step, hsome, hseen] using hvisit.trans hlater

/-- Entering a new node does what a visit to it does. The depth must not be less than the number of
nodes still to be met. -/
theorem leads_visit (hclosed : ∀ v ∈ nodes, ∀ w ∈ succ v, w ∈ nodes) (depth v : Nat)
    (hv : v ∈ nodes) (s : Search) (hdepth : (unseen nodes s).card ≤ depth) (hseen : v ∉ s.seen)
    (rest : List (Nat × Nat)) :
    Leads succ ⟨⟨v :: s.seen, s.finished⟩, (v, 0) :: rest⟩ ⟨visit succ depth v s, rest⟩ := by
  induction depth generalizing v s rest with
  | zero => exact absurd (mem_seen_of_card_unseen hv hdepth) hseen
  | succ depth ih =>
    have hless := card_unseen_cons hv hseen s.finished
    have hready : ∀ w ∈ succ v, ∀ s : Search, (unseen nodes s).card ≤ depth →
        (unseen nodes (visit succ depth w s)).card ≤ depth := by
      intro w hw s hs
      obtain ⟨new, hnew, -⟩ := visit_explores hclosed depth w (hclosed v hv w hw) s hs
      exact (Finset.card_le_card (unseen_subset nodes fun x hx => hnew.mono hx)).trans hs
    rw [visit, if_neg hseen]
    have hchild := fun w hw s hs hseen rest => ih w (hclosed v hv w hw) s hs hseen rest
    exact leads_successors hready hchild (succ v) 0 rfl ⟨v :: s.seen, s.finished⟩ (by omega)

end Trail

end Tenure.Graph

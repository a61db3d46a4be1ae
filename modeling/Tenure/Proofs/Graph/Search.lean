import Mathlib.Data.Finset.Card
import Mathlib.Data.List.Nodup
import Mathlib.Logic.Relation
import Tenure.Graph.Search

/-!
# Depth-first search finds what can be reached

A search adds nodes and never takes one back. `Explores` says what one run adds: fresh nodes, each
once, whose successors have all been met. Where no root leads to more nodes than the depth allows,
the finished nodes are exactly those on a path from a root (`mem_reach_iff`), each listed once
(`reach_nodup`), and an edge leads back to an earlier one of the list only inside a cycle
(`reach_ordered`).
-/

namespace Tenure.Graph

open Relation

variable {succ : Nat → List Nat} {s t w : Search} {new : List Nat}

/-- One step along the graph. -/
def Edge (succ : Nat → List Nat) (v w : Nat) : Prop := w ∈ succ v

/-- The search went from `s` to `t` and finished the nodes `new`. -/
structure Explores (succ : Nat → List Nat) (s : Search) (new : List Nat) (t : Search) : Prop where
  seen : ∀ x, x ∈ t.seen ↔ x ∈ new ∨ x ∈ s.seen
  finished : t.finished = new ++ s.finished
  fresh : ∀ x ∈ new, x ∉ s.seen
  nodup : new.Nodup
  closed : ∀ x ∈ new, ∀ y ∈ succ x, y ∈ t.seen
  /-- An edge from a node to one that was finished later closes a cycle. -/
  ordered : new.Pairwise fun x y => Edge succ y x → ReflTransGen (Edge succ) x y

theorem Explores.refl (succ : Nat → List Nat) (s : Search) : Explores succ s [] s where
  seen := by simp
  finished := rfl
  fresh := by simp
  nodup := List.nodup_nil
  closed := by simp
  ordered := List.Pairwise.nil

theorem Explores.mono (h : Explores succ s new t) {x : Nat} (hx : x ∈ s.seen) : x ∈ t.seen :=
  (h.seen x).mpr (Or.inr hx)

theorem Explores.trans {later : List Nat} (h : Explores succ s new t)
    (h' : Explores succ t later w) : Explores succ s (later ++ new) w where
  seen x := by rw [h'.seen, h.seen, List.mem_append, or_assoc]
  finished := by rw [h'.finished, h.finished, List.append_assoc]
  fresh x hx := by
    rcases List.mem_append.mp hx with hx | hx
    · exact fun hs => h'.fresh x hx (h.mono hs)
    · exact h.fresh x hx
  nodup := by
    refine List.nodup_append.mpr ⟨h'.nodup, h.nodup, ?_⟩
    rintro x hx y hy rfl
    exact h'.fresh x hx ((h.seen x).mpr (Or.inl hy))
  closed x hx y hy := by
    rcases List.mem_append.mp hx with hx | hx
    · exact h'.closed x hx y hy
    · exact h'.mono (h.closed x hx y hy)
  ordered := by
    refine List.pairwise_append.mpr ⟨h'.ordered, h.ordered, fun x hx y hy hedge => ?_⟩
    -- what an earlier node leads to had been met before the later run
    exact absurd (h.closed y hy x hedge) (h'.fresh x hx)

/-! ## One visit -/

/-- The nodes of `nodes` that a search has not met. -/
def unseen (nodes : Finset Nat) (s : Search) : Finset Nat := nodes.filter (· ∉ s.seen)

theorem unseen_subset (nodes : Finset Nat) (h : ∀ x ∈ s.seen, x ∈ t.seen) :
    unseen nodes t ⊆ unseen nodes s := by
  intro x hx
  simp only [unseen, Finset.mem_filter] at hx ⊢
  exact ⟨hx.1, fun hs => hx.2 (h x hs)⟩

/-- Meeting a new node leaves one node less to meet. -/
theorem card_unseen_cons {nodes : Finset Nat} {v : Nat} (hv : v ∈ nodes) (hs : v ∉ s.seen)
    (finished : List Nat) :
    (unseen nodes ⟨v :: s.seen, finished⟩).card < (unseen nodes s).card := by
  refine Finset.card_lt_card (Finset.ssubset_iff_subset_ne.mpr ⟨?_, ?_⟩)
  · exact unseen_subset nodes fun x hx => List.mem_cons_of_mem _ hx
  · intro heq
    have hmem : v ∈ unseen nodes s := by simp [unseen, hv, hs]
    rw [← heq] at hmem
    simp [unseen] at hmem

theorem mem_seen_of_card_unseen {nodes : Finset Nat} {v : Nat} (hv : v ∈ nodes)
    (h : (unseen nodes s).card ≤ 0) : v ∈ s.seen := by
  by_contra hs
  have hmem : v ∈ unseen nodes s := by simp [unseen, hv, hs]
  have := Finset.card_pos.mpr ⟨v, hmem⟩
  omega

section Kept

variable {P : Nat → Prop}

theorem foldl_visit_forall {depth : Nat}
    (hvisit : ∀ v, P v → ∀ s : Search, (∀ x ∈ s.finished, P x) →
      ∀ x ∈ (visit succ depth v s).finished, P x)
    (vs : List Nat) (hvs : ∀ v ∈ vs, P v) (s : Search) (hs : ∀ x ∈ s.finished, P x) :
    ∀ x ∈ (vs.foldl (fun s w => visit succ depth w s) s).finished, P x := by
  induction vs generalizing s with
  | nil => exact hs
  | cons v vs ih => exact ih (fun w hw => hvs w (by simp [hw])) _ (hvisit v (hvs v (by simp)) s hs)

variable (hstep : ∀ v w, P v → w ∈ succ v → P w)
include hstep

theorem visit_forall (depth v : Nat) (hv : P v) (s : Search) (hs : ∀ x ∈ s.finished, P x) :
    ∀ x ∈ (visit succ depth v s).finished, P x := by
  induction depth generalizing v s with
  | zero => exact hs
  | succ depth ih =>
    unfold visit
    split
    next => exact hs
    next =>
      intro x hx
      rcases List.mem_cons.mp hx with rfl | hx
      · exact hv
      · exact foldl_visit_forall ih (succ v) (fun w hw => hstep v w hv hw) ⟨v :: s.seen, _⟩ hs x hx

/-- What the roots have and successors inherit, every node that is found has, whatever the depth. -/
theorem reach_forall {depth : Nat} {roots : List Nat} (hroots : ∀ v ∈ roots, P v) :
    ∀ x ∈ reach succ depth roots, P x :=
  foldl_visit_forall (visit_forall hstep depth) roots hroots .start (by simp [Search.start])

end Kept

/-! ## Searches that read the same successors -/

section Congr

variable {succ' : Nat → List Nat} {P : Nat → Prop}
  (hsame : ∀ v, P v → succ v = succ' v) (hclosed : ∀ v, P v → ∀ w ∈ succ v, P w)
include hsame hclosed

theorem visit_congr (depth v : Nat) (hv : P v) (s : Search) :
    visit succ depth v s = visit succ' depth v s := by
  induction depth generalizing v s with
  | zero => rfl
  | succ depth ih =>
    have hbelow : (succ v).foldl (fun s w => visit succ depth w s) ⟨v :: s.seen, s.finished⟩ =
        (succ' v).foldl (fun s w => visit succ' depth w s) ⟨v :: s.seen, s.finished⟩ := by
      rw [← hsame v hv]
      exact List.foldl_ext _ _ _ fun s w hw => ih w (hclosed v hv w hw) s
    rw [visit, visit, hbelow]

/-- A search depends on the successors of the nodes it comes to only. -/
theorem search_congr (depth : Nat) {roots : List Nat} (hroots : ∀ v ∈ roots, P v) :
    search succ depth roots = search succ' depth roots :=
  List.foldl_ext _ _ _ fun s v hv => visit_congr hsame hclosed depth v (hroots v hv) s

theorem reach_congr (depth : Nat) {roots : List Nat} (hroots : ∀ v ∈ roots, P v) :
    reach succ depth roots = reach succ' depth roots :=
  congrArg Search.finished (search_congr hsame hclosed depth hroots)

end Congr

section Visit

/-- Visiting some nodes in order, given what one visit does: all are met, and what is new lies on a
path from one of them. A visit may rely on what stays true while nodes are met. -/
theorem foldl_visit_explores {depth : Nat} {ready : Search → Prop}
    (hready : ∀ s t : Search, (∀ x ∈ s.seen, x ∈ t.seen) → ready s → ready t) (vs : List Nat)
    (hvisit : ∀ v ∈ vs, ∀ s : Search, ready s →
      ∃ new, Explores succ s new (visit succ depth v s) ∧ v ∈ (visit succ depth v s).seen ∧
        ∀ x ∈ new, ReflTransGen (Edge succ) v x)
    (s : Search) (hs : ready s) :
    ∃ new, Explores succ s new (vs.foldl (fun s w => visit succ depth w s) s) ∧
      (∀ v ∈ vs, v ∈ (vs.foldl (fun s w => visit succ depth w s) s).seen) ∧
      ∀ x ∈ new, ∃ v ∈ vs, ReflTransGen (Edge succ) v x := by
  induction vs generalizing s with
  | nil => exact ⟨[], Explores.refl succ s, by simp, by simp⟩
  | cons v vs ihvs =>
    obtain ⟨new, hnew, hv, hpath⟩ := hvisit v List.mem_cons_self s hs
    obtain ⟨later, hlater, hrest, hpaths⟩ :=
      ihvs (fun v hv => hvisit v (List.mem_cons_of_mem _ hv)) (visit succ depth v s)
        (hready _ _ (fun x hx => hnew.mono hx) hs)
    refine ⟨later ++ new, hnew.trans hlater, ?_, ?_⟩
    · intro x hx
      rcases List.mem_cons.mp hx with rfl | hx
      · exact hlater.mono hv
      · exact hrest x hx
    · intro x hx
      rcases List.mem_append.mp hx with hx | hx
      · obtain ⟨u, hu, hux⟩ := hpaths x hx
        exact ⟨u, by simp [hu], hux⟩
      · exact ⟨v, by simp, hpath x hx⟩

variable {nodes : Finset Nat} (hclosed : ∀ v ∈ nodes, ∀ w ∈ succ v, w ∈ nodes)
include hclosed

/-- A visit meets its node, and all that it adds lies on a path from there. The depth must not be
less than the number of nodes still to be met. -/
theorem visit_explores (depth : Nat) (v : Nat) (hv : v ∈ nodes) (s : Search)
    (hdepth : (unseen nodes s).card ≤ depth) :
    ∃ new, Explores succ s new (visit succ depth v s) ∧ v ∈ (visit succ depth v s).seen ∧
      ∀ x ∈ new, ReflTransGen (Edge succ) v x := by
  induction depth generalizing v s with
  | zero =>
    -- nothing is left to be met, so the node has been met before
    exact ⟨[], Explores.refl succ s, mem_seen_of_card_unseen hv hdepth, by simp⟩
  | succ depth ih =>
    rw [visit]
    split
    next hseen => exact ⟨[], Explores.refl succ s, hseen, by simp⟩
    next hseen =>
      have hless := card_unseen_cons hv hseen s.finished
      have hready : ∀ s t : Search, (∀ x ∈ s.seen, x ∈ t.seen) →
          (unseen nodes s).card ≤ depth → (unseen nodes t).card ≤ depth := fun s t hst hs =>
        (Finset.card_le_card (unseen_subset nodes hst)).trans hs
      obtain ⟨new, hnew, hall, hpaths⟩ := foldl_visit_explores hready (succ v)
        (fun w hw => ih w (hclosed v hv w hw)) ⟨v :: s.seen, s.finished⟩ (by omega)
      generalize (succ v).foldl (fun s w => visit succ depth w s) ⟨v :: s.seen, s.finished⟩ = below
        at hnew hall
      have hvbelow : v ∈ below.seen := hnew.mono (by simp)
      have hbelow : ∀ x ∈ new, ReflTransGen (Edge succ) v x := by
        intro x hx
        obtain ⟨w, hw, hwx⟩ := hpaths x hx
        exact ReflTransGen.head hw hwx
      -- the node is met before all that lies below it and finished after it
      refine ⟨v :: new, ⟨?_, ?_, ?_, ?_, ?_, ?_⟩, hvbelow, ?_⟩
      · intro x
        rw [hnew.seen]
        simp only [List.mem_cons]
        tauto
      · simp [hnew.finished]
      · intro x hx
        rcases List.mem_cons.mp hx with rfl | hx
        · exact hseen
        · exact fun hs => hnew.fresh x hx (List.mem_cons_of_mem _ hs)
      · exact List.nodup_cons.mpr ⟨fun hx => hnew.fresh v hx (by simp), hnew.nodup⟩
      · intro x hx y hy
        rcases List.mem_cons.mp hx with rfl | hx
        · exact hall y hy
        · exact hnew.closed x hx y hy
      · exact List.pairwise_cons.mpr ⟨fun x hx _ => hbelow x hx, hnew.ordered⟩
      · intro x hx
        rcases List.mem_cons.mp hx with rfl | hx
        · exact ReflTransGen.refl
        · exact hbelow x hx

/-- Visiting some nodes in order, depth beyond the number of nodes still to be met has no effect if
it has none in a single visit. -/
theorem foldl_visit_eq_of_le {depth larger : Nat}
    (ih : ∀ v ∈ nodes, ∀ s : Search, (unseen nodes s).card ≤ depth →
      visit succ larger v s = visit succ depth v s)
    (vs : List Nat) (hvs : ∀ v ∈ vs, v ∈ nodes) (s : Search)
    (hdepth : (unseen nodes s).card ≤ depth) :
    vs.foldl (fun s w => visit succ larger w s) s = vs.foldl (fun s w => visit succ depth w s) s := by
  induction vs generalizing s with
  | nil => rfl
  | cons v vs ihvs =>
    obtain ⟨new, hnew, -⟩ := visit_explores hclosed depth v (hvs v (by simp)) s hdepth
    rw [List.foldl_cons, List.foldl_cons, ih v (hvs v (by simp)) s hdepth]
    refine ihvs (fun w hw => hvs w (by simp [hw])) _ (le_trans ?_ hdepth)
    exact Finset.card_le_card (unseen_subset nodes fun x hx => hnew.mono hx)

theorem visit_eq_of_le {depth larger : Nat} (hle : depth ≤ larger) (v : Nat) (hv : v ∈ nodes)
    (s : Search) (hdepth : (unseen nodes s).card ≤ depth) :
    visit succ larger v s = visit succ depth v s := by
  induction depth generalizing larger v s with
  | zero =>
    have hseen := mem_seen_of_card_unseen hv hdepth
    cases larger with
    | zero => rfl
    | succ larger => simp only [visit, if_pos hseen]
  | succ depth ih =>
    obtain ⟨larger, rfl⟩ : ∃ n, larger = n + 1 := ⟨larger - 1, by omega⟩
    by_cases hseen : v ∈ s.seen
    · simp only [visit, if_pos hseen]
    · have hless := card_unseen_cons hv hseen s.finished
      simp only [visit, if_neg hseen]
      rw [foldl_visit_eq_of_le hclosed (ih (Nat.le_of_succ_le_succ hle)) (succ v) (hclosed v hv) _
        (by omega)]

/-! ## The whole search -/

variable {depth : Nat} {roots : List Nat} (hroots : ∀ v ∈ roots, v ∈ nodes)
  (hdepth : nodes.card ≤ depth)
include hroots hdepth

/-- A search that is deep enough finds the same, in the same order, as one that is deeper. -/
theorem reach_eq_of_le {larger : Nat} (hle : depth ≤ larger) :
    reach succ larger roots = reach succ depth roots := by
  have hstart : (unseen nodes .start).card ≤ depth :=
    (Finset.card_le_card (Finset.filter_subset _ _)).trans hdepth
  exact congrArg Search.finished
    (foldl_visit_eq_of_le hclosed (visit_eq_of_le hclosed hle) roots hroots .start hstart)

end Visit

/-- The first node of a search from one root is the root: it is finished last. -/
theorem head?_reach_single (succ : Nat → List Nat) (depth v : Nat) :
    (reach succ (depth + 1) [v]).head? = some v := by
  simp [reach, search, visit, Search.start]

/-- No path from the node meets more than `depth` nodes: it stays in a set of that size. -/
def Bounded (succ : Nat → List Nat) (depth v : Nat) : Prop :=
  ∃ nodes : Finset Nat, v ∈ nodes ∧ nodes.card ≤ depth ∧ ∀ x ∈ nodes, ∀ w ∈ succ x, w ∈ nodes

section Roots

variable {depth : Nat} {roots : List Nat} (hroots : ∀ v ∈ roots, Bounded succ depth v)
include hroots

/-- What a search from the roots has finished and met at its end. -/
theorem search_explores :
    Explores succ .start (reach succ depth roots) (search succ depth roots) ∧
      (∀ v ∈ roots, v ∈ (search succ depth roots).seen) ∧
      ∀ x ∈ reach succ depth roots, ∃ v ∈ roots, ReflTransGen (Edge succ) v x := by
  have hvisit : ∀ v ∈ roots, ∀ s : Search, True →
      ∃ new, Explores succ s new (visit succ depth v s) ∧
      v ∈ (visit succ depth v s).seen ∧ ∀ x ∈ new, ReflTransGen (Edge succ) v x := by
    intro v hv s _
    obtain ⟨nodes, hmem, hcard, hclosed⟩ := hroots v hv
    refine visit_explores hclosed depth v hmem s ?_
    exact (Finset.card_le_card (Finset.filter_subset _ _)).trans hcard
  obtain ⟨new, hnew, hall, hpaths⟩ :=
    foldl_visit_explores (fun _ _ _ h => h) roots hvisit .start trivial
  have heq : reach succ depth roots = new := hnew.finished.trans (List.append_nil new)
  rw [heq]
  exact ⟨hnew, hall, hpaths⟩

/-- A node is found exactly if a path leads to it from a root. -/
theorem mem_reach_iff {x : Nat} :
    x ∈ reach succ depth roots ↔ ∃ v ∈ roots, ReflTransGen (Edge succ) v x := by
  obtain ⟨hnew, hall, hpaths⟩ := search_explores hroots
  refine ⟨hpaths x, ?_⟩
  have hmem : ∀ x, x ∈ reach succ depth roots ↔ x ∈ (search succ depth roots).seen := by
    intro x
    rw [hnew.seen]
    simp [Search.start]
  rintro ⟨v, hv, hpath⟩
  -- at the end the nodes met are the nodes finished, and these are closed under successors
  induction hpath with
  | refl => exact (hmem v).mpr (hall v hv)
  | tail _ hstep ih => exact (hmem _).mpr (hnew.closed _ ih _ hstep)

/-- Every node is found once. -/
theorem reach_nodup : (reach succ depth roots).Nodup := (search_explores hroots).1.nodup

/-- Among the nodes that are found, an edge leads from a later one of the list to an earlier one
only if the earlier one reaches the later one. -/
theorem reach_ordered : (reach succ depth roots).Pairwise fun x y =>
    Edge succ y x → ReflTransGen (Edge succ) x y :=
  (search_explores hroots).1.ordered

end Roots

end Tenure.Graph

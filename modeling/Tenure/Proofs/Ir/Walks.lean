import Mathlib.Data.List.Chain
import Tenure.Proofs.Ir.Regions

/-!
# Three walks along parent links

On any table of regions the parent links of a region end, or they run into a circle
(`Func.endsOutward_iff`). `Func.regionAncestors` lists the regions on the way without repeating one,
`Func.regionWithin` looks for one of them and `Func.regionDepth` counts the links. The first stops
at a region that it has met, the others after a number of steps; by counting declared regions this
is never too early, and the three agree (`Func.region_walks_agree`).
-/

namespace Tenure.Func

open Relation

variable {f : Func} {a r s t : RegionId} {limit i k : Nat} {met chain : List RegionId}

/-! ## The chain of a region -/

theorem chainFrom_nodup (limit : Nat) (met : List RegionId) (r : RegionId) :
    (f.chainFrom limit met r).Nodup ∧ ∀ s ∈ f.chainFrom limit met r, s ∉ met := by
  induction limit generalizing met r with
  | zero => simp [chainFrom]
  | succ limit ih =>
    unfold chainFrom
    split
    next => simp
    next hmet =>
      rw [List.contains_iff_mem] at hmet
      cases f.parent? r with
      | none => exact ⟨List.nodup_singleton r, fun s hs => List.mem_singleton.mp hs ▸ hmet⟩
      | some parent =>
        obtain ⟨hnodup, hfresh⟩ := ih (r :: met) parent
        refine ⟨List.nodup_cons.mpr ⟨fun hr => hfresh r hr List.mem_cons_self, hnodup⟩, ?_⟩
        refine List.forall_mem_cons.mpr ⟨hmet, fun s hs hmem => ?_⟩
        exact hfresh s hs (List.mem_cons_of_mem r hmem)

theorem eq_of_mem_head?_chainFrom (h : s ∈ (f.chainFrom limit met r).head?) : s = r := by
  cases limit with
  | zero => simp [chainFrom] at h
  | succ limit =>
    unfold chainFrom at h
    split at h
    · simp at h
    · exact (Option.some.inj h).symm

theorem chainFrom_isChain (limit : Nat) (met : List RegionId) (r : RegionId) :
    (f.chainFrom limit met r).IsChain f.ParentOf := by
  induction limit generalizing met r with
  | zero => exact List.isChain_nil
  | succ limit ih =>
    unfold chainFrom
    split
    next => exact List.isChain_nil
    next =>
      cases hparent : f.parent? r with
      | none => exact List.isChain_singleton r
      | some parent =>
        refine List.isChain_cons.mpr ⟨fun s hs => ?_, ih _ _⟩
        rw [eq_of_mem_head?_chainFrom hs]
        exact hparent

theorem head?_regionAncestors (f : Func) (r : RegionId) : (f.regionAncestors r).head? = some r := by
  simp [regionAncestors, chainFrom]

/-- The chain of a region is complete: with a region it holds its parent. -/
theorem parent_mem_regionAncestors (hs : s ∈ f.regionAncestors a) (hst : f.ParentOf s t) :
    t ∈ f.regionAncestors a :=
  mem_regionAncestors.mpr ((mem_regionAncestors.mp hs).tail hst)

/-- A place in a chain tells how many links lead there. -/
theorem outward_of_getElem? (hchain : chain.IsChain f.ParentOf) (hhead : chain.head? = some a)
    (hs : chain[i]? = some s) : f.outward i a = some s := by
  induction chain generalizing a i with
  | nil => simp at hhead
  | cons r rest ih =>
    obtain rfl : r = a := Option.some.inj hhead
    cases i with
    | zero => exact hs
    | succ i =>
      rw [List.getElem?_cons_succ] at hs
      obtain ⟨hlink, hrest⟩ := List.isChain_cons.mp hchain
      cases hnext : rest.head? with
      | none =>
        rw [List.head?_eq_none_iff.mp hnext] at hs
        simp at hs
      | some t =>
        rw [outward, show f.parent? r = some t from hlink t hnext]
        exact ih hrest hnext hs

/-! ## Links that end and links that do not -/

/-- The parent links of the region end. -/
def EndsOutward (f : Func) (r : RegionId) : Prop := ∃ last, f.Nested r last ∧ f.parent? last = none

/-- The parent links of the region run into a circle. -/
def CirclesOutward (f : Func) (r : RegionId) : Prop :=
  ∃ s, f.Nested r s ∧ TransGen f.ParentOf s s

theorem outward_of_end (hs : f.outward i a = some s) (hend : f.parent? s = none) (hik : i < k) :
    f.outward k a = none := by
  obtain ⟨d, rfl⟩ := Nat.exists_eq_add_of_lt hik
  rw [Nat.add_assoc, outward_add, hs, Option.bind_some, outward, hend]
  rfl

/-- Links end after one number of steps only. -/
theorem outward_end_unique (hs : f.outward i a = some s) (hsend : f.parent? s = none)
    (ht : f.outward k a = some t) (htend : f.parent? t = none) : i = k := by
  rcases Nat.lt_trichotomy i k with hlt | heq | hlt
  · cases (outward_of_end hs hsend hlt).symm.trans ht
  · exact heq
  · cases (outward_of_end ht htend hlt).symm.trans hs

theorem outward_one (r : RegionId) : f.outward 1 r = f.parent? r := by simp [outward]

/-- A region lies on a circle if some positive number of links leads back to it. -/
theorem transGen_parentOf_iff : TransGen f.ParentOf r s ↔ ∃ k, f.outward (k + 1) r = some s := by
  rw [TransGen.head'_iff]
  constructor
  · rintro ⟨t, hparent, hts⟩
    obtain ⟨k, hk⟩ := nested_iff_outward.mp hts
    exact ⟨k, by rw [outward, show f.parent? r = some t from hparent]; exact hk⟩
  · rintro ⟨k, hk⟩
    obtain ⟨t, hparent, hk⟩ := Option.bind_eq_some_iff.mp hk
    exact ⟨t, hparent, nested_iff_outward.mpr ⟨k, hk⟩⟩

theorem CirclesOutward.outward_ne_none (h : f.CirclesOutward a) (k : Nat) :
    f.outward k a ≠ none := by
  obtain ⟨s, hnested, hround⟩ := h
  obtain ⟨i, hi⟩ := nested_iff_outward.mp hnested
  obtain ⟨j, hback⟩ := transGen_parentOf_iff.mp hround
  -- after enough rounds the walk is beyond any number of steps
  have hfar : f.outward (i + (j + 1) * k) a = some s := by
    rw [outward_add, hi]
    exact outward_rounds hback k
  obtain ⟨d, hd⟩ : ∃ d, i + (j + 1) * k = k + d :=
    Nat.exists_eq_add_of_le ((Nat.le_mul_of_pos_left k j.succ_pos).trans (Nat.le_add_left _ _))
  intro hnone
  rw [hd, outward_add, hnone] at hfar
  cases hfar

/-- The last region of a chain has no parent, or its parent closes a circle. -/
theorem exists_last (f : Func) (a : RegionId) :
    ∃ last, f.outward ((f.regionAncestors a).length - 1) a = some last ∧
      (f.parent? last = none ∨ f.CirclesOutward a) := by
  have hchain : (f.regionAncestors a).IsChain f.ParentOf := chainFrom_isChain _ _ _
  have hhead := f.head?_regionAncestors a
  obtain ⟨n, hn⟩ : ∃ n, (f.regionAncestors a).length = n + 1 :=
    Nat.exists_eq_succ_of_ne_zero fun hzero => by
      simp [List.length_eq_zero_iff.mp hzero] at hhead
  rw [hn, Nat.add_sub_cancel]
  obtain ⟨last, hlast⟩ : ∃ last, (f.regionAncestors a)[n]? = some last :=
    ⟨_, List.getElem?_eq_getElem (hn ▸ n.lt_succ_self)⟩
  have hout := outward_of_getElem? hchain hhead hlast
  refine ⟨last, hout, ?_⟩
  cases hparent : f.parent? last with
  | none => exact .inl rfl
  | some t =>
    -- the parent is in the chain, so links lead from it to the last region and back
    have ht := parent_mem_regionAncestors (List.mem_of_getElem? hlast) hparent
    obtain ⟨j, hj⟩ := List.mem_iff_getElem?.mp ht
    have hlt : j < n + 1 := hn ▸ (List.getElem?_eq_some_iff.mp hj).1
    have hjout := outward_of_getElem? hchain hhead hj
    have hagain : f.outward (j + (n - j + 1)) a = some t := by
      rw [show j + (n - j + 1) = n + 1 by omega, outward_add, hout, Option.bind_some, outward_one,
        hparent]
    rw [outward_add, hjout, Option.bind_some] at hagain
    exact .inr ⟨t, mem_regionAncestors.mp ht, transGen_parentOf_iff.mpr ⟨_, hagain⟩⟩

/-- Parent links end exactly if they do not run into a circle. -/
theorem endsOutward_iff : f.EndsOutward a ↔ ¬ f.CirclesOutward a := by
  constructor
  · rintro ⟨last, hnested, hend⟩ hcircles
    obtain ⟨k, hk⟩ := nested_iff_outward.mp hnested
    exact hcircles.outward_ne_none (k + 1) (outward_of_end hk hend k.lt_succ_self)
  · intro hnone
    obtain ⟨last, hout, hend⟩ := f.exists_last a
    exact ⟨last, nested_iff_outward.mpr ⟨_, hout⟩, hend.resolve_right hnone⟩

/-! ## Counting links -/

theorem linksFrom_of_end (hk : f.outward k r = some s) (hend : f.parent? s = none) (limit : Nat) :
    f.linksFrom limit r = min k limit := by
  induction limit generalizing k r with
  | zero => rw [linksFrom, Nat.min_zero]
  | succ limit ih =>
    cases k with
    | zero =>
      obtain rfl := Option.some.inj hk
      rw [linksFrom, hend, Nat.zero_min]
    | succ k =>
      obtain ⟨t, hparent, hk⟩ := Option.bind_eq_some_iff.mp hk
      rw [linksFrom, hparent]
      dsimp only
      rw [ih hk, Nat.succ_min_succ]

theorem linksFrom_of_endless (h : ∀ k, f.outward k r ≠ none) (limit : Nat) :
    f.linksFrom limit r = limit := by
  induction limit generalizing r with
  | zero => rfl
  | succ limit ih =>
    cases hparent : f.parent? r with
    | none => exact absurd ((outward_one r).trans hparent) (h 1)
    | some t =>
      rw [linksFrom, hparent]
      dsimp only
      rw [ih fun k hk => h (k + 1) ?_]
      rw [outward, hparent]
      exact hk

/-- Where the links end, the depth is their number. -/
theorem regionDepth_of_end (hk : f.outward k r = some s) (hend : f.parent? s = none) :
    f.regionDepth r = k := by
  obtain ⟨j, hj, hout⟩ := exists_outward_le ⟨k, hk⟩
  obtain rfl := outward_end_unique hk hend hout hend
  rw [regionDepth, linksFrom_of_end hk hend, Nat.min_eq_left (Nat.le_succ_of_le hj)]

/-- On every table of regions, with circles and dangling links or not: the regions that a region is
found to lie in are those of its chain. The chain starts with the region, repeats none, follows the
parent links, and leaves out none of them. The links end or run into a circle, but not both. In the
first case the depth is the number of regions in the chain after the first, in the second it is one
more than the number of regions in the table. -/
theorem region_walks_agree (f : Func) (a : RegionId) :
    (∀ b, f.regionWithin a b = true ↔ b ∈ f.regionAncestors a) ∧
    (f.regionAncestors a).head? = some a ∧ (f.regionAncestors a).Nodup ∧
    (f.regionAncestors a).IsChain f.ParentOf ∧
    (∀ s ∈ f.regionAncestors a, ∀ t, f.ParentOf s t → t ∈ f.regionAncestors a) ∧
    (f.EndsOutward a ↔ ¬ f.CirclesOutward a) ∧
    (f.EndsOutward a → f.regionDepth a = (f.regionAncestors a).length - 1) ∧
    (f.CirclesOutward a → f.regionDepth a = f.regions.length + 1) := by
  refine ⟨fun b => regionWithin_iff.trans mem_regionAncestors.symm, f.head?_regionAncestors a,
    (chainFrom_nodup _ _ _).1, chainFrom_isChain _ _ _,
    fun s hs t hst => parent_mem_regionAncestors hs hst, endsOutward_iff, fun hends => ?_,
    fun hcircles => linksFrom_of_endless hcircles.outward_ne_none _⟩
  obtain ⟨last, hout, hend⟩ := f.exists_last a
  exact regionDepth_of_end hout (hend.resolve_right (endsOutward_iff.mp hends))

/-- A function with a table of regions that have these parents. -/
def withParents (parents : List (Option RegionId)) : Func where
  id := 0
  name := "f"
  span := ⟨0, 20⟩
  params := []
  bindings := []
  blocks := []
  regions := parents.zipIdx.map fun (parent, r) => ⟨r, .region, parent, none, ⟨0, 20⟩⟩
  allocations := []
  isAsync := false

/-- A chain over all regions of a table that goes on to a region that is not there, and links that
run into a circle without being on it. -/
theorem withParents_walks :
    (withParents [some 1, some 7]).regionDepth 0 = 2 ∧
    (withParents [some 1, some 7]).regionAncestors 0 = [0, 1, 7] ∧
    (withParents [some 1, some 7]).regionWithin 0 7 = true ∧
    (withParents [some 1, some 2, some 1]).regionDepth 0 = 4 ∧
    (withParents [some 1, some 2, some 1]).regionAncestors 0 = [0, 1, 2] := by
  have hchain : (withParents [some 1, some 7]).regionAncestors 0 = [0, 1, 7] := by decide
  have hloop : (withParents [some 1, some 2, some 1]).regionAncestors 0 = [0, 1, 2] := by decide
  obtain ⟨hwithin, -, -, -, -, -, hdepth, -⟩ := region_walks_agree (withParents [some 1, some 7]) 0
  have hnested : (withParents [some 1, some 7]).Nested 0 7 :=
    mem_regionAncestors.mp (by rw [hchain]; decide)
  have hround : TransGen (withParents [some 1, some 2, some 1]).ParentOf 1 1 :=
    transGen_parentOf_iff.mpr ⟨1, by decide⟩
  refine ⟨?_, hchain, (hwithin 7).mpr (by rw [hchain]; decide), ?_, hloop⟩
  · rw [hdepth ⟨7, hnested, by decide⟩, hchain]
    rfl
  · obtain ⟨-, -, -, -, -, -, -, hcircles⟩ :=
      region_walks_agree (withParents [some 1, some 2, some 1]) 0
    exact hcircles ⟨1, mem_regionAncestors.mp (by rw [hloop]; decide), hround⟩

end Tenure.Func

import Mathlib.Data.Finset.Card
import Mathlib.Data.Fintype.Card
import Mathlib.Logic.Relation
import Tenure.Ir.Nesting
import Tenure.Proofs.Ascending
import Tenure.Proofs.Ir.Valid

/-!
# Nesting of regions

A region is nested in another one if the parent links lead there. The bounded walk of
`Func.regionWithin` finds exactly the regions around a region, also on tables with cycles and
dangling links (`Func.regionWithin_iff`): a shortest walk meets no declared region twice. In an
accepted function every region is nested in the body (`Func.nested_body`).
-/

namespace Tenure

namespace Func

open Relation

variable {f : Func} {r s t : RegionId} {b : BlockId}

/-- The parent link of `r` leads to `s`. -/
def ParentOf (f : Func) (r s : RegionId) : Prop := f.parent? r = some s

/-- The region is `outer` or lies somewhere inside it. -/
def Nested (f : Func) : RegionId → RegionId → Prop := ReflTransGen f.ParentOf

/-- The block lies in the region or in one nested in it. -/
def Inside (f : Func) (r : RegionId) (b : BlockId) : Prop :=
  ∃ block, f.blocks[b]? = some block ∧ f.Nested block.region r

/-! ## Counted walks -/

/-- The region that is reached over this many parent links. -/
def outward (f : Func) : Nat → RegionId → Option RegionId
  | 0, r => some r
  | steps + 1, r => (f.parent? r).bind (f.outward steps)

theorem outward_add (i j : Nat) (r : RegionId) :
    f.outward (i + j) r = (f.outward i r).bind (f.outward j) := by
  induction i generalizing r with
  | zero => simp [outward]
  | succ i ih =>
    rw [Nat.add_right_comm, outward, outward, Option.bind_assoc]
    congr 1
    funext s
    exact ih s

/-- Links that lead back to a region do so again and again. -/
theorem outward_rounds {back : Nat} (h : f.outward back r = some r) (n : Nat) :
    f.outward (back * n) r = some r := by
  induction n with
  | zero => rfl
  | succ n ih =>
    rw [Nat.mul_succ, outward_add, ih]
    exact h

theorem nested_iff_outward : f.Nested r s ↔ ∃ k, f.outward k r = some s := by
  constructor
  · intro h
    induction h using ReflTransGen.head_induction_on with
    | refl => exact ⟨0, rfl⟩
    | head hstep _ ih =>
      obtain ⟨k, hk⟩ := ih
      refine ⟨k + 1, ?_⟩
      rw [outward, show f.parent? _ = some _ from hstep]
      exact hk
  · rintro ⟨k, hk⟩
    induction k generalizing r with
    | zero =>
      obtain rfl := Option.some.inj hk
      exact ReflTransGen.refl
    | succ k ih =>
      obtain ⟨t, hparent, ht⟩ := Option.bind_eq_some_iff.mp hk
      exact ReflTransGen.head hparent (ih ht)

theorem within_iff {steps : Nat} :
    f.within s steps r = true ↔ ∃ k ≤ steps, f.outward k r = some s := by
  induction steps generalizing r with
  | zero => simp [within, outward]
  | succ steps ih =>
    unfold within
    rw [Bool.or_eq_true, decide_eq_true_eq]
    constructor
    · rintro (rfl | h)
      · exact ⟨0, Nat.zero_le _, rfl⟩
      · cases hparent : f.parent? r with
        | none => simp [hparent] at h
        | some t =>
          rw [hparent] at h
          obtain ⟨k, hk, hout⟩ := ih.mp h
          exact ⟨k + 1, Nat.succ_le_succ hk, by rw [outward, hparent]; exact hout⟩
    · rintro ⟨k, hk, hout⟩
      cases k with
      | zero => exact Or.inl (Option.some.inj hout)
      | succ k =>
        obtain ⟨t, hparent, ht⟩ := Option.bind_eq_some_iff.mp hout
        refine Or.inr ?_
        rw [hparent]
        exact ih.mpr ⟨k, Nat.le_of_succ_le_succ hk, ht⟩

/-- A region with a parent is declared. -/
theorem lt_of_parent? (h : f.parent? r = some s) : r < f.regions.length := by
  unfold parent? at h
  obtain ⟨decl, hdecl, -⟩ := Option.bind_eq_some_iff.mp h
  exact (List.getElem?_eq_some_iff.mp hdecl).1

/-- A shortest walk has at most as many links as there are regions. -/
theorem exists_outward_le (h : ∃ k, f.outward k r = some s) :
    ∃ k ≤ f.regions.length, f.outward k r = some s := by
  classical
  refine ⟨Nat.find h, ?_, Nat.find_spec h⟩
  by_contra hlong
  have hend : f.outward (Nat.find h) r = some s := Nat.find_spec h
  -- every region before the last one is declared, since it has a parent
  have hlt : ∀ i < Nat.find h, ∃ t < f.regions.length, f.outward i r = some t := by
    intro i hi
    have hsplit := outward_add (f := f) i (Nat.find h - i - 1 + 1) r
    rw [show i + (Nat.find h - i - 1 + 1) = Nat.find h by omega, hend] at hsplit
    obtain ⟨t, ht, hrest⟩ := Option.bind_eq_some_iff.mp hsplit.symm
    obtain ⟨t', hparent, -⟩ := Option.bind_eq_some_iff.mp hrest
    exact ⟨t, lt_of_parent? hparent, ht⟩
  choose! at_ hat using hlt
  -- so two of them are the same, and the walk between them can be left out
  obtain ⟨i, hi, j, hj, hne, heq⟩ := Finset.exists_ne_map_eq_of_card_lt_of_maps_to
    (s := Finset.range (Nat.find h)) (t := Finset.range f.regions.length) (f := at_)
    (by simp only [Finset.card_range]; omega)
    (fun i hi => Finset.mem_coe.mpr (Finset.mem_range.mpr (hat i (Finset.mem_range.mp hi)).1))
  rw [Finset.mem_range] at hi hj
  have hshort : ∀ {i j : Nat}, i < j → j < Nat.find h → at_ i = at_ j → False := by
    intro i j hij hj heq
    have hskip : f.outward (i + (Nat.find h - j)) r = some s := by
      rw [outward_add, (hat i (hij.trans hj)).2, heq, ← (hat j hj).2, ← outward_add,
        show j + (Nat.find h - j) = Nat.find h by omega, hend]
    exact Nat.find_min h (by omega) hskip
  rcases Nat.lt_or_gt_of_ne hne with hij | hij
  · exact hshort hij hj heq
  · exact hshort hij hi heq.symm

/-- The bounded walk finds exactly the regions around a region. -/
theorem regionWithin_iff : f.regionWithin r s = true ↔ f.Nested r s := by
  rw [regionWithin, within_iff, nested_iff_outward]
  exact ⟨fun ⟨k, _, hk⟩ => ⟨k, hk⟩, exists_outward_le⟩

/-- The chain of a region leads over regions around it. -/
theorem nested_of_mem_chainFrom {limit : Nat} {met : List RegionId}
    (h : s ∈ f.chainFrom limit met r) : f.Nested r s := by
  induction limit generalizing met r with
  | zero => simp [chainFrom] at h
  | succ limit ih =>
    unfold chainFrom at h
    split at h
    next => simp at h
    next =>
      rcases List.mem_cons.mp h with rfl | h
      · exact ReflTransGen.refl
      · cases hparent : f.parent? r with
        | none => simp [hparent] at h
        | some t =>
          rw [hparent] at h
          exact ReflTransGen.head hparent (ih h)

theorem nested_of_mem_regionAncestors (h : s ∈ f.regionAncestors r) : f.Nested r s :=
  nested_of_mem_chainFrom h

/-- In the chain of a region each one is nested in all that follow. -/
theorem chainFrom_pairwise (limit : Nat) (met : List RegionId) (r : RegionId) :
    (f.chainFrom limit met r).Pairwise f.Nested := by
  induction limit generalizing met r with
  | zero => exact List.Pairwise.nil
  | succ limit ih =>
    unfold chainFrom
    split
    next => exact List.Pairwise.nil
    next =>
      cases hparent : f.parent? r with
      | none => exact List.pairwise_singleton _ _
      | some t =>
        refine List.pairwise_cons.mpr ⟨fun s hs => ?_, ih _ _⟩
        exact ReflTransGen.head hparent (nested_of_mem_chainFrom hs)

theorem regionAncestors_pairwise (f : Func) (r : RegionId) :
    (f.regionAncestors r).Pairwise f.Nested :=
  chainFrom_pairwise _ _ _

/-- A chain that may still go over all regions that were not met holds its first region and with a
region its parent, unless these were met before. -/
theorem chainFrom_closed {limit : Nat} {met : List RegionId} (hnodup : met.Nodup)
    (hlt : ∀ t ∈ met, t < f.regions.length) (hlimit : f.regions.length < limit + met.length)
    (r : RegionId) : (r ∈ f.chainFrom limit met r ∨ r ∈ met) ∧
      ∀ s ∈ f.chainFrom limit met r, ∀ t, f.ParentOf s t →
        t ∈ f.chainFrom limit met r ∨ t ∈ met := by
  induction limit generalizing met r with
  | zero =>
    -- so many regions cannot have been met
    have hcard : met.toFinset.card ≤ (Finset.range f.regions.length).card :=
      Finset.card_le_card fun t ht => Finset.mem_range.mpr (hlt t (List.mem_toFinset.mp ht))
    rw [List.toFinset_card_of_nodup hnodup, Finset.card_range] at hcard
    omega
  | succ limit ih =>
    unfold chainFrom
    split
    next hmet => exact ⟨.inr (List.contains_iff_mem.mp hmet), nofun⟩
    next hmet =>
      rw [List.contains_iff_mem] at hmet
      cases hparent : f.parent? r with
      | none =>
        refine ⟨.inl List.mem_cons_self, fun s hs t hst => ?_⟩
        obtain rfl := List.mem_singleton.mp hs
        cases hparent.symm.trans hst
      | some p =>
        have hr : r < f.regions.length := lt_of_parent? hparent
        have hmore : (r :: met).Nodup := List.nodup_cons.mpr ⟨hmet, hnodup⟩
        obtain ⟨hfirst, hclosed⟩ :=
          ih hmore (List.forall_mem_cons.mpr ⟨hr, hlt⟩) (by rw [List.length_cons]; omega) p
        have hback : ∀ t, t ∈ f.chainFrom limit (r :: met) p ∨ t ∈ r :: met →
            t ∈ r :: f.chainFrom limit (r :: met) p ∨ t ∈ met := by
          simp only [List.mem_cons]
          tauto
        refine ⟨.inl List.mem_cons_self, fun s hs t hst => hback t ?_⟩
        rcases List.mem_cons.mp hs with rfl | hs
        · obtain rfl : p = t := Option.some.inj (hparent.symm.trans hst)
          exact hfirst
        · exact hclosed s hs t hst

/-- The chain of a region lists exactly the regions around it. -/
theorem mem_regionAncestors : s ∈ f.regionAncestors r ↔ f.Nested r s := by
  refine ⟨nested_of_mem_regionAncestors, fun h => ?_⟩
  have hlimit : f.regions.length < f.regions.length + 1 + ([] : List RegionId).length := by simp
  obtain ⟨hfirst, hclosed⟩ := chainFrom_closed List.nodup_nil nofun hlimit r
  induction h with
  | refl => exact hfirst.resolve_right (List.not_mem_nil)
  | tail _ hparent ih => exact (hclosed _ ih _ hparent).resolve_right List.not_mem_nil

/-- The blocks of a region are listed by their positions. -/
theorem mem_blocksIn (hf : f.Valid) : b ∈ f.blocksIn r ↔ f.Inside r b := by
  simp only [blocksIn, mem_ascending, List.mem_map, List.mem_filter, regionWithin_iff]
  constructor
  · rintro ⟨block, ⟨hmem, hnested⟩, rfl⟩
    obtain ⟨i, hi⟩ := List.mem_iff_getElem?.mp hmem
    obtain rfl := hf.id_eq hi
    exact ⟨block, hi, hnested⟩
  · rintro ⟨block, hb, hnested⟩
    exact ⟨block, ⟨List.mem_of_getElem? hb, hnested⟩, hf.id_eq hb⟩

/-! ## The body -/

theorem root_of_checkRoot {steps : Nat} (h : f.checkRoot s steps r = .ok ()) :
    ∃ root decl, f.Nested r root ∧ f.regions[root]? = some decl ∧ decl.parent = none := by
  induction steps generalizing r with
  | zero => simp [checkRoot] at h
  | succ steps ih =>
    unfold checkRoot at h
    split at h
    next => simp at h
    next =>
      cases hdecl : f.regions[r]? with
      | none => simp [hdecl] at h
      | some decl =>
        cases hparent : decl.parent with
        | none => exact ⟨r, decl, ReflTransGen.refl, hdecl, hparent⟩
        | some t =>
          simp only [hdecl, hparent] at h
          obtain ⟨root, top, hnested, htop⟩ := ih h
          have hstep : f.ParentOf r t := by simp [ParentOf, parent?, hdecl, hparent]
          exact ⟨root, top, ReflTransGen.head hstep hnested, htop⟩

theorem parent_of_checkNested {decl : Region} (h : f.checkNested r decl = .ok ()) :
    ∃ parent, decl.parent = some parent ∧
      f.checkRoot r (f.regions.length + 1) parent = .ok () := by
  unfold checkNested at h
  obtain ⟨-, h⟩ := Check.bind_eq_ok.mp h
  cases hparent : decl.parent with
  | none => simp [hparent] at h
  | some parent =>
    simp only [hparent] at h
    obtain ⟨-, h⟩ := Check.bind_eq_ok.mp h
    refine ⟨parent, rfl, ?_⟩
    cases hexit : decl.exit with
    | none => simpa [hexit, Check.bind_eq_ok] using h
    | some exit =>
      simp only [hexit, Check.bind_eq_ok] at h
      exact h.2

theorem checkNested_of_validate (h : f.validate = .ok ()) {decl : Region} (hr : 0 < r)
    (hdecl : f.regions[r]? = some decl) : f.checkNested r decl = .ok () := by
  simp only [validate, checkRegions, Check.bind_eq_ok, Check.all_eq_ok] at h
  refine h.2.1.2 (decl, r) (List.mem_iff_getElem?.mpr ⟨r - 1, ?_⟩)
  rw [List.getElem?_drop, List.getElem?_zipIdx, Nat.add_sub_cancel' hr, hdecl]
  simp

/-- In an accepted function every declared region is nested in the body. -/
theorem nested_body (h : f.validate = .ok ()) (hr : r < f.regions.length) :
    f.Nested r bodyRegion := by
  -- a region without a parent can only be the first one
  have hroot : ∀ i decl, f.regions[i]? = some decl → decl.parent = none → i = bodyRegion := by
    intro i decl hi hparent
    by_contra hne
    obtain ⟨parent, hsome, -⟩ :=
      parent_of_checkNested (checkNested_of_validate h (Nat.pos_of_ne_zero hne) hi)
    rw [hparent] at hsome
    cases hsome
  rcases Nat.eq_zero_or_pos r with rfl | hpos
  · exact ReflTransGen.refl
  · have hdecl := List.getElem?_eq_getElem hr
    obtain ⟨parent, hparent, hcheck⟩ :=
      parent_of_checkNested (checkNested_of_validate h hpos hdecl)
    obtain ⟨root, decl, hpath, hi, hnone⟩ := root_of_checkRoot hcheck
    have hstep : f.ParentOf r parent := by
      unfold ParentOf parent?
      rw [hdecl]
      exact hparent
    rw [← hroot root decl hi hnone]
    exact ReflTransGen.head hstep hpath

theorem parent?_body (h : f.validate = .ok ()) : f.parent? bodyRegion = none := by
  cases hparent : f.parent? bodyRegion with
  | none => rfl
  | some t =>
    obtain ⟨decl, hdecl, ht⟩ := Option.bind_eq_some_iff.mp hparent
    simp only [validate, checkRegions, Check.bind_eq_ok, Check.require_eq_ok, hasBodyRegion,
      List.head?_eq_getElem?, show f.regions[0]? = some decl from hdecl] at h
    simp [ht] at h

/-- In an accepted function the parent of a region is declared. -/
theorem lt_of_parentOf (h : f.validate = .ok ()) (hparent : f.ParentOf r s) :
    s < f.regions.length := by
  obtain ⟨decl, hdecl, hs⟩ := Option.bind_eq_some_iff.mp hparent
  rcases Nat.eq_zero_or_pos r with rfl | hpos
  · cases (parent?_body h).symm.trans hparent
  · obtain ⟨parent, hsome, hcheck⟩ :=
      parent_of_checkNested (checkNested_of_validate h hpos hdecl)
    obtain rfl : s = parent := Option.some.inj (hs.symm.trans hsome)
    obtain ⟨root, rootDecl, hpath, hroot, -⟩ := root_of_checkRoot hcheck
    rcases hpath.cases_head with rfl | ⟨t, hstep, -⟩
    · exact (List.getElem?_eq_some_iff.mp hroot).1
    · exact lt_of_parent? hstep

theorem lt_of_nested (h : f.validate = .ok ()) (hr : r < f.regions.length) (hs : f.Nested r s) :
    s < f.regions.length := by
  rcases hs.cases_tail with rfl | ⟨t, -, hstep⟩
  · exact hr
  · exact lt_of_parentOf h hstep

/-- In an accepted function parent links do not lead back, so no two regions are nested in each
other. -/
theorem nested_antisymm (h : f.validate = .ok ()) (hr : r < f.regions.length) (hrs : f.Nested r s)
    (hsr : f.Nested s r) : r = s := by
  by_contra hne
  -- otherwise some number of links leads from `r` back to `r`
  obtain ⟨back, hpos, hback⟩ : ∃ back, 0 < back ∧ f.outward back r = some r := by
    obtain ⟨i, hi⟩ := nested_iff_outward.mp hrs
    obtain ⟨j, hj⟩ := nested_iff_outward.mp hsr
    refine ⟨i + j, Nat.pos_of_ne_zero fun hzero => hne ?_, ?_⟩
    · obtain rfl : i = 0 := by omega
      exact Option.some.inj hi
    · rw [outward_add, hi]
      exact hj
  -- but the links end at the body
  obtain ⟨k, hk⟩ := nested_iff_outward.mp (nested_body h hr)
  have hlong : k < back * (k + 1) := Nat.lt_of_lt_of_le (Nat.lt_succ_self k)
    (Nat.le_mul_of_pos_left _ hpos)
  have hbeyond : f.outward (k + (back * (k + 1) - k - 1 + 1)) r = none := by
    rw [outward_add, hk]
    simp [outward, parent?_body h]
  rw [show k + (back * (k + 1) - k - 1 + 1) = back * (k + 1) by omega, outward_rounds hback]
    at hbeyond
  cases hbeyond

end Func

end Tenure

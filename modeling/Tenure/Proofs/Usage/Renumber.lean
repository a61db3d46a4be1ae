import Mathlib.Order.Monotone.Basic
import Tenure.Proofs.Ir.DeadCode

/-!
# Uses under new numbers

Uses and argument lists are numbered through a whole function, dead code included, so that code
control never comes to changes the numbers of what follows it. It changes nothing else about the
other uses, and their order stays: leaving out some program points gives the same uses under
increasing numbers (`exists_renumbering`). In particular the recorded uses of live code are those of
the pruned function (`Func.exists_live_renumbering`).
-/

namespace Tenure

/-- New numbers for uses and for argument lists. -/
structure Renumbering where
  use : UseId → UseId
  group : Nat → Nat

/-- What comes later has a larger number. -/
structure Renumbering.Increasing (r : Renumbering) : Prop where
  use : StrictMono r.use
  group : StrictMono r.group

/-- The use under its new number. -/
def Use.renumber (r : Renumbering) (u : Use) : Use :=
  { u with id := r.use u.id, group := u.group.map r.group }

namespace Renumbering

variable {bound shift : Nat} {ρ : Nat → Nat}

/-- Numbers below the bound are shifted, the others are as given. -/
def shiftBelow (bound shift : Nat) (ρ : Nat → Nat) (i : Nat) : Nat :=
  if i < bound then i + shift else ρ i

theorem shiftBelow_of_lt {i : Nat} (hi : i < bound) : shiftBelow bound shift ρ i = i + shift :=
  if_pos hi

theorem shiftBelow_of_le {i : Nat} (hi : bound ≤ i) : shiftBelow bound shift ρ i = ρ i :=
  if_neg (Nat.not_lt.mpr hi)

theorem le_shiftBelow (hle : ∀ i ≥ bound, i + shift ≤ ρ i) (i : Nat) :
    i + shift ≤ shiftBelow bound shift ρ i := by
  by_cases hi : i < bound
  · exact (shiftBelow_of_lt hi).ge
  · have hi : bound ≤ i := Nat.le_of_not_lt hi
    exact (shiftBelow_of_le hi).symm ▸ hle i hi

theorem strictMono_shiftBelow (hmono : StrictMono ρ) (hle : ∀ i ≥ bound, i + shift ≤ ρ i) :
    StrictMono (shiftBelow bound shift ρ) := by
  intro i j hij
  have hj := le_shiftBelow hle j
  by_cases hi : i < bound
  · rw [shiftBelow_of_lt hi]
    omega
  · have hi : bound ≤ i := Nat.le_of_not_lt hi
    rw [shiftBelow_of_le hi, shiftBelow_of_le (hi.trans hij.le)]
    exact hmono hij

end Renumbering

/-! ## Numbers of some sites -/

open Renumbering

variable {r r' : Renumbering}

theorem Use.renumber_congr {u : Use} (hid : r.use u.id = r'.use u.id)
    (hgroup : ∀ n, u.group = some n → r.group n = r'.group n) : u.renumber r = u.renumber r' := by
  have hmap : u.group.map r.group = u.group.map r'.group := Option.map_congr hgroup
  rw [renumber, renumber, hid, hmap]

theorem Site.renumber_uses {s : Site} {a b n g : Nat}
    (huse : ∀ i < s.step.accesses.length, r.use (a + i) = n + i)
    (hgroup : s.step.isGrouping = true → r.group b = g) :
    (s.uses a b).map (Use.renumber r) = s.uses n g := by
  refine List.ext_getElem? fun i => ?_
  simp only [Site.uses, List.getElem?_map, List.getElem?_zipIdx, Option.map_map]
  refine Option.map_congr fun access haccess => ?_
  have hi : i < s.step.accesses.length := (List.getElem?_eq_some_iff.mp haccess).1
  simp only [Function.comp_apply, Use.renumber, Site.use, huse i hi]
  congr 1
  split
  · have hgrouping := Func.isGrouping_of_mem_accesses (List.mem_of_getElem? haccess) ‹_›
    rw [Option.map_some, hgroup hgrouping]
  · rfl

theorem le_id_of_mem_collectUses {sites : List Site} {a b : Nat} {u : Use}
    (hu : u ∈ collectUses a b sites) : a ≤ u.id := by
  induction sites generalizing a b with
  | nil => simp [collectUses] at hu
  | cons s rest ih =>
    rcases List.mem_append.mp hu with hu | hu
    · have hid : u.id ∈ (s.uses a b).map Use.id := List.mem_map_of_mem hu
      rw [Func.map_id_uses, List.mem_range'_1] at hid
      exact hid.1
    · exact Nat.le_of_add_right_le (ih hu)

theorem filter_uses (s : Site) (keep : Point → Bool) (n g : Nat) :
    (s.uses n g).filter (fun u => keep u.point) = if keep s.point then s.uses n g else [] := by
  split
  · rename_i hkeep
    rw [List.filter_eq_self]
    intro u hu
    rwa [Func.point_of_mem_uses hu]
  · rename_i hkeep
    rw [List.filter_eq_nil_iff]
    intro u hu
    rwa [Func.point_of_mem_uses hu]

/-- Numbers below those of the sites may change. -/
theorem map_collectUses_shiftBelow (sites : List Site) (a b : Nat) {shift shift' : Nat} :
    (collectUses a b sites).map
        (Use.renumber ⟨shiftBelow a shift r.use, shiftBelow b shift' r.group⟩) =
      (collectUses a b sites).map (Use.renumber r) := by
  refine List.map_congr_left fun u hu => Use.renumber_congr ?_ fun i hi => ?_
  · exact shiftBelow_of_le (le_id_of_mem_collectUses hu)
  · exact shiftBelow_of_le (Func.le_group_of_mem_collectUses hu hi)

/-- The uses at some of the sites are what these sites alone would be numbered to, under larger and
increasing numbers. -/
theorem exists_renumbering (keep : Point → Bool) (sites : List Site) {a b n g : Nat} (han : a ≤ n)
    (hbg : b ≤ g) :
    ∃ r : Renumbering, r.Increasing ∧ (∀ i ≥ a, i + (n - a) ≤ r.use i) ∧
      (∀ i ≥ b, i + (g - b) ≤ r.group i) ∧
      (collectUses n g sites).filter (fun u => keep u.point) =
        (collectUses a b (sites.filter fun s => keep s.point)).map (Use.renumber r) := by
  induction sites generalizing a b n g with
  | nil =>
    have hshift : ∀ k, StrictMono fun i => i + k := fun k i j hij => Nat.add_lt_add_right hij k
    exact ⟨⟨fun i => i + (n - a), fun i => i + (g - b)⟩, ⟨hshift _, hshift _⟩,
      fun _ _ => le_rfl, fun _ _ => le_rfl, rfl⟩
  | cons s rest ih =>
    obtain ⟨taken, htaken⟩ : ∃ taken, ∀ n, (if s.step.isGrouping then n + 1 else n) = n + taken :=
      ⟨if s.step.isGrouping then 1 else 0, fun n => by split <;> rfl⟩
    rw [collectUses, List.filter_append, filter_uses, htaken]
    by_cases hkeep : keep s.point = true
    · -- the numbers of the first site are shifted, those of the rest come by induction
      obtain ⟨r, hr, huse, hgroup, heq⟩ :=
        ih (Nat.add_le_add_right han s.step.accesses.length) (Nat.add_le_add_right hbg taken)
      rw [Nat.add_sub_add_right] at huse hgroup
      refine ⟨⟨shiftBelow (a + s.step.accesses.length) (n - a) r.use,
        shiftBelow (b + taken) (g - b) r.group⟩,
        ⟨strictMono_shiftBelow hr.use huse, strictMono_shiftBelow hr.group hgroup⟩,
        fun i _ => le_shiftBelow huse i, fun i _ => le_shiftBelow hgroup i, ?_⟩
      rw [if_pos hkeep, List.filter_cons_of_pos (by exact hkeep), collectUses, htaken,
        List.map_append, heq, map_collectUses_shiftBelow]
      congr 1
      refine (Site.renumber_uses (fun i hi => ?_) fun hgrouping => ?_).symm
      · have hshift : shiftBelow (a + s.step.accesses.length) (n - a) r.use (a + i) =
            a + i + (n - a) := shiftBelow_of_lt (Nat.add_lt_add_left hi a)
        exact hshift.trans (by omega)
      · have hone : taken = 1 := by simpa [hgrouping] using (htaken 0).symm
        have hshift : shiftBelow (b + taken) (g - b) r.group b = b + (g - b) :=
          shiftBelow_of_lt (by omega)
        exact hshift.trans (by omega)
    · rw [if_neg hkeep, List.filter_cons_of_neg (by exact hkeep), List.nil_append]
      obtain ⟨r, hr, huse, hgroup, heq⟩ :=
        ih (han.trans (Nat.le_add_right n s.step.accesses.length))
          (hbg.trans (Nat.le_add_right g taken))
      refine ⟨r, hr, fun i hi => ?_, fun i hi => ?_, heq⟩
      · have := huse i hi
        omega
      · have := hgroup i hi
        omega

/-- Sites without operands take no numbers. -/
theorem collectUses_filter {keep : Site → Bool} {sites : List Site}
    (h : ∀ s ∈ sites, keep s = false → s.step.accesses = [] ∧ s.step.isGrouping = false)
    (n g : Nat) : collectUses n g (sites.filter keep) = collectUses n g sites := by
  induction sites generalizing n g with
  | nil => rfl
  | cons s rest ih =>
    have ih := ih fun t ht => h t (List.mem_cons_of_mem _ ht)
    cases hkeep : keep s with
    | true => rw [List.filter_cons_of_pos hkeep, collectUses, collectUses, ih]
    | false =>
      obtain ⟨haccesses, hgrouping⟩ := h s List.mem_cons_self hkeep
      rw [List.filter_cons_of_neg (by simp [hkeep]), collectUses, ih]
      simp [Site.uses, haccesses, hgrouping]

/-! ## Live code -/

namespace Func

variable {f : Func} {live : List BlockId}

/-- The sites of the blocks that are not listed are those of empty blocks. -/
theorem filter_sites_prune (f : Func) (live : List BlockId) :
    (f.prune live).sites.filter (fun s => live.contains s.point.block) =
      f.sites.filter fun s => live.contains s.point.block := by
  have hblock : ∀ block : Block, block.sites.filter (fun s => live.contains s.point.block) =
      if live.contains block.id then block.sites else [] := by
    intro block
    have hid : ∀ s ∈ block.sites, s.point.block = block.id := fun s hs => (mem_blockSites.mp hs).1
    split
    · rename_i hlive
      exact List.filter_eq_self.mpr fun s hs => by rwa [hid s hs]
    · rename_i hlive
      exact List.filter_eq_nil_iff.mpr fun s hs => by rwa [hid s hs]
  simp only [sites, prune, List.filter_flatMap, List.flatMap_map, hblock]
  refine List.flatMap_congr fun block _ => ?_
  by_cases hlive : block.id ∈ live
  · simp [hlive]
  · simp [hlive, Block.emptied]

/-- A site outside of the listed blocks does nothing. -/
theorem step_of_mem_sites_prune {s : Site} (hs : s ∈ (f.prune live).sites)
    (hdead : live.contains s.point.block = false) :
    s.step = .terminator (some ⟨.unreachable, ⟨0, 0⟩⟩) := by
  obtain ⟨block, hblock, hs⟩ := List.mem_flatMap.mp hs
  obtain ⟨old, -, rfl⟩ := List.mem_map.mp hblock
  obtain ⟨hid, hstep, -⟩ := mem_blockSites.mp hs
  by_cases hlive : live.contains old.id = true
  · rw [if_pos hlive] at hid
    rw [hid, hlive] at hdead
    cases hdead
  · rw [if_neg hlive] at hstep
    exact List.mem_singleton.mp (List.mem_of_getElem? hstep)

/-- The uses recorded in live code are those of the pruned function. -/
theorem exists_live_renumbering (f : Func) (live : List BlockId) :
    ∃ r : Renumbering, r.Increasing ∧
      f.usage.uses.filter (fun u => live.contains u.point.block) =
        (f.prune live).usage.uses.map (Use.renumber r) := by
  obtain ⟨r, hr, -, -, heq⟩ :=
    exists_renumbering (fun p => live.contains p.block) f.sites (Nat.le_refl 0) (Nat.le_refl 0)
  refine ⟨r, hr, ?_⟩
  rw [usage_uses, usage_uses, heq, ← filter_sites_prune, collectUses_filter]
  · intro s hs hdead
    exact step_of_mem_sites_prune hs hdead ▸ ⟨rfl, rfl⟩

theorem mem_live_of_mem_usage_prune {u : Use} (hu : u ∈ (f.prune live).usage.uses) :
    u.point.block ∈ live := by
  obtain ⟨r, -, heq⟩ := f.exists_live_renumbering live
  have hmem := heq ▸ List.mem_map_of_mem (f := Use.renumber r) hu
  exact List.contains_iff_mem.mp (List.mem_filter.mp hmem).2

/-- The allocations evaluated in live code are those of the pruned function. -/
theorem filter_allocations_prune (f : Func) (live : List BlockId) :
    (f.prune live).usage.allocations =
      f.usage.allocations.filter fun site => live.contains site.point.block := by
  have hfilter : ∀ g : Func, g.usage.allocations.filter (fun a => live.contains a.point.block) =
      (g.sites.filter fun s => live.contains s.point.block).filterMap Site.allocation? := by
    intro g
    rw [List.filterMap_filter, usage_allocations, List.filter_filterMap]
    refine List.filterMap_congr fun s _ => ?_
    cases ha : s.allocation? with
    | none => simp
    | some site => simp [Option.filter, (allocation?_eq_some ha).1]
  have hdead : (f.prune live).usage.allocations.filter
      (fun a => live.contains a.point.block) = (f.prune live).usage.allocations := by
    refine List.filter_eq_self.mpr fun site hsite => ?_
    rw [usage_allocations] at hsite
    obtain ⟨s, hs, ha⟩ := List.mem_filterMap.mp hsite
    rw [(allocation?_eq_some ha).1]
    by_contra hdead
    rw [Site.allocation?, step_of_mem_sites_prune hs (by simpa using hdead)] at ha
    cases ha
  rw [← hdead, hfilter, hfilter, filter_sites_prune]

end Func

end Tenure

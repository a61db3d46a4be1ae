import Mathlib.Data.List.Perm.Basic
import Mathlib.Order.Bounds.Basic
import Tenure.CallGraph
import Tenure.Proofs.Graph.Components
import Tenure.Proofs.Ir.Regions

/-!
# The order of analysis

Units are the components of the call relation. A unit is built from the units before it, so what it
reads of them is described once, by `CallGraph.getElem?_units`; that callees stand before their
callers makes those reads meet a unit that is there (`CallGraph.groupOf_lt`). The levels are a
partition of the units in which a call leads to a lower level or stays in its unit.
-/

namespace Tenure

open Relation

/-- One function calls the other or makes a closure of it, and both are defined. -/
def Program.Calls (p : Program) (f c : FuncId) : Prop :=
  ∃ func, p.function? f = some func ∧ c ∈ func.directCallees ∧ p.defines c

/-- A member of the one unit calls a member of the other, different unit. -/
def Program.CallsUnit (p : Program) (u v : AnalysisUnit) : Prop :=
  v ≠ u ∧ ∃ f ∈ u.functions, ∃ c ∈ v.functions, p.Calls f c

theorem le_foldl_max {α : Type} (height : α → Nat) (l : List α) (start n : Nat) :
    n ≤ l.foldl (fun m a => max m (height a)) start ↔ n ≤ start ∨ ∃ a ∈ l, n ≤ height a := by
  induction l generalizing start with
  | nil => simp
  | cons a l ih =>
    rw [List.foldl_cons, ih, le_max_iff, or_assoc]
    simp

namespace CallGraph

/-! ## The call relation -/

section Calls

variable {p : Program} {f c : FuncId}

theorem mem_functions : f ∈ p.callGraph.functions ↔ p.defines f := by
  simp [functions, Program.callGraph, Program.defines]

theorem mem_callees : c ∈ p.callGraph.callees f ↔ p.Calls f c := by
  have hfind : p.callGraph.callees f =
      ((p.function? f).map fun func => ascending (func.directCallees.filter p.defines)).getD [] := by
    rw [callees, Program.callGraph, List.find?_map, Option.map_map]
    rfl
  rw [hfind, Program.Calls]
  cases p.function? f with
  | none => simp
  | some func => simp [mem_ascending]

theorem edge_callees : Graph.Edge p.callGraph.callees = p.Calls := by
  funext f c
  exact propext mem_callees

theorem callees_closed :
    ∀ f ∈ p.callGraph.functions, ∀ c ∈ p.callGraph.callees f, c ∈ p.callGraph.functions := by
  intro f _ c hc
  obtain ⟨_, _, _, hdefines⟩ := mem_callees.mp hc
  exact mem_functions.mpr hdefines

theorem length_functions (g : CallGraph) : g.functions.length ≤ g.edges.length := by
  rw [functions, List.length_map]

end Calls

/-! ## Units from the units before them -/

section Units

variable {g : CallGraph} {i : Nat} {u : AnalysisUnit}

theorem foldl_toUnit (groups rest : List (List FuncId)) (units : List AnalysisUnit) :
    ∃ added,
      rest.foldl (fun units members => units ++ [g.toUnit groups units members]) units =
        units ++ added ∧
      ∀ i, added[i]? = rest[i]?.map (g.toUnit groups (units ++ added.take i)) := by
  induction rest generalizing units with
  | nil => exact ⟨[], by simp⟩
  | cons members rest ih =>
    obtain ⟨added, hfold, hadded⟩ := ih (units ++ [g.toUnit groups units members])
    refine ⟨g.toUnit groups units members :: added, ?_, fun i => ?_⟩
    · rw [List.foldl_cons, hfold, List.append_assoc, List.singleton_append]
    · cases i with
      | zero => simp
      | succ i => simp [hadded i]

/-- The unit at a position is made of the group there and the units before it. -/
theorem getElem?_units (g : CallGraph) (i : Nat) :
    g.units[i]? = g.groups[i]?.map (g.toUnit g.groups (g.units.take i)) := by
  obtain ⟨added, hfold, hadded⟩ := foldl_toUnit (g := g) g.groups g.groups []
  have hunits : g.units = added := hfold
  rw [hunits, hadded i, List.nil_append]

theorem length_units (g : CallGraph) : g.units.length = g.groups.length := by
  refine Nat.le_antisymm ?_ ?_
  · have h := g.getElem?_units g.groups.length
    rw [List.getElem?_eq_none (Nat.le_refl _)] at h
    exact List.getElem?_eq_none_iff.mp h
  · have h := g.getElem?_units g.units.length
    rw [List.getElem?_eq_none (Nat.le_refl _)] at h
    exact List.getElem?_eq_none_iff.mp (Option.map_eq_none_iff.mp h.symm)

theorem toUnit_of_getElem? (h : g.units[i]? = some u) :
    ∃ members, g.groups[i]? = some members ∧ u = g.toUnit g.groups (g.units.take i) members := by
  rw [getElem?_units, Option.map_eq_some_iff] at h
  obtain ⟨members, hmembers, rfl⟩ := h
  exact ⟨members, hmembers, rfl⟩

theorem mem_toUnit_functions {groups : List (List FuncId)} {units : List AnalysisUnit}
    {members : List FuncId} {f : FuncId} :
    f ∈ (g.toUnit groups units members).functions ↔ f ∈ members :=
  List.mem_mergeSort

theorem functions_perm (g : CallGraph) :
    List.Forall₂ List.Perm (g.units.map AnalysisUnit.functions) g.groups := by
  refine List.forall₂_iff_get.mpr ⟨by rw [List.length_map, length_units], fun i hi hi' => ?_⟩
  have hunit : g.units[i]? = some (g.toUnit g.groups (g.units.take i) (g.groups.get ⟨i, hi'⟩)) := by
    rw [getElem?_units, List.getElem?_eq_getElem hi']
    rfl
  have hget : (g.units.map AnalysisUnit.functions).get ⟨i, hi⟩ =
      (g.toUnit g.groups (g.units.take i) (g.groups.get ⟨i, hi'⟩)).functions := by
    rw [List.get_eq_getElem, List.getElem_map]
    rw [List.length_map] at hi
    rw [List.getElem?_eq_getElem hi, Option.some.injEq] at hunit
    rw [hunit]
  rw [hget]
  exact List.mergeSort_perm _ _

theorem flatten_functions_perm (g : CallGraph) :
    (g.units.flatMap AnalysisUnit.functions).Perm g.groups.flatten := by
  rw [List.flatMap_def]
  exact List.Perm.flatten_congr g.functions_perm

end Units

/-! ## Groups -/

section Groups

variable {p : Program} {i j : Nat} {members : List FuncId} {f c : FuncId}

theorem mem_groups : f ∈ p.callGraph.groups.flatten ↔ p.defines f :=
  (Graph.mem_components callees_closed (length_functions _)).trans mem_functions

theorem groups_nodup (p : Program) : p.callGraph.groups.flatten.Nodup :=
  Graph.components_nodup callees_closed (length_functions _)

theorem mem_group_iff (hmembers : members ∈ p.callGraph.groups) (hf : f ∈ members) :
    c ∈ members ↔ ReflTransGen p.Calls f c ∧ ReflTransGen p.Calls c f := by
  rw [Graph.mem_component_iff callees_closed (length_functions _) hmembers hf, Graph.Linked,
    Graph.Leads, edge_callees]

/-- Groups do not overlap. -/
theorem group_unique (hi : p.callGraph.groups[i]? = some members) (hf : f ∈ members)
    {others : List FuncId} (hj : p.callGraph.groups[j]? = some others) (hf' : f ∈ others) :
    i = j := by
  by_contra hne
  obtain ⟨hilt, hget⟩ := List.getElem?_eq_some_iff.mp hi
  obtain ⟨hjlt, hget'⟩ := List.getElem?_eq_some_iff.mp hj
  have hdisjoint := List.pairwise_iff_getElem.mp (List.nodup_flatten.mp (groups_nodup p)).2
  rcases Nat.lt_or_gt_of_ne hne with hlt | hlt
  · exact hdisjoint i j hilt hjlt hlt (hget ▸ hf) (hget' ▸ hf')
  · exact hdisjoint j i hjlt hilt hlt (hget' ▸ hf') (hget ▸ hf)

/-- The position that is looked up for a function is that of its group. -/
theorem groupOf?_eq_some_iff (hj : p.callGraph.groups[j]? = some members) :
    groupOf? p.callGraph.groups f = some j ↔ f ∈ members := by
  constructor
  · intro h
    obtain ⟨hlt, hcontains, _⟩ := List.findIdx?_eq_some_iff_getElem.mp h
    obtain ⟨_, rfl⟩ := List.getElem?_eq_some_iff.mp hj
    simpa using hcontains
  · intro hf
    cases h : groupOf? p.callGraph.groups f with
    | none =>
      have hnone := List.findIdx?_eq_none_iff.mp h members (List.mem_of_getElem? hj)
      simp [hf] at hnone
    | some k =>
      obtain ⟨hlt, hcontains, _⟩ := List.findIdx?_eq_some_iff_getElem.mp h
      have hk := group_unique (List.getElem?_eq_getElem hlt) (by simpa using hcontains) hj hf
      rw [hk]

/-- A call leads to the same group or to an earlier one. -/
theorem calls_le (hi : p.callGraph.groups[i]? = some members) (hf : f ∈ members)
    (hcalls : p.Calls f c) {others : List FuncId} (hj : p.callGraph.groups[j]? = some others)
    (hc : c ∈ others) : j ≤ i := by
  rcases Graph.components_ordered callees_closed (length_functions _) hi hf
    (mem_callees.mpr hcalls) with hmem | hmem
  · exact Nat.le_of_eq (group_unique hj hc hi hmem)
  · obtain ⟨earlier, hearlier, hc'⟩ := List.mem_flatten.mp hmem
    obtain ⟨k, hk⟩ := List.mem_iff_getElem?.mp hearlier
    rw [List.getElem?_take] at hk
    split at hk
    next hlt =>
      have := group_unique hj hc hk hc'
      omega
    next => cases hk

/-- The other positions that the level of a unit is computed from are before it. -/
theorem groupOf_lt (hi : p.callGraph.groups[i]? = some members) (hf : f ∈ members)
    (hc : c ∈ p.callGraph.callees f) (hj : groupOf? p.callGraph.groups c = some j) (hne : j ≠ i) :
    j < i := by
  have hlt : j < p.callGraph.groups.length := (List.findIdx?_eq_some_iff_getElem.mp hj).1
  have hget := List.getElem?_eq_getElem hlt
  have hmem := (groupOf?_eq_some_iff hget).mp hj
  exact Nat.lt_of_le_of_ne (calls_le hi hf (mem_callees.mp hc) hget hmem) hne

end Groups

/-! ## Units of a program -/

section Schedule

variable {p : Program} {i j : Nat} {u v : AnalysisUnit} {f c : FuncId}

theorem mem_units_functions :
    f ∈ p.callGraph.units.flatMap AnalysisUnit.functions ↔ p.defines f :=
  (flatten_functions_perm _).mem_iff.trans mem_groups

theorem units_functions_nodup (p : Program) :
    (p.callGraph.units.flatMap AnalysisUnit.functions).Nodup :=
  (flatten_functions_perm _).nodup_iff.mpr (groups_nodup p)

/-- A unit has the functions of the group at its position. -/
theorem group_of_unit (hu : p.callGraph.units[i]? = some u) :
    ∃ members, p.callGraph.groups[i]? = some members ∧ ∀ f, f ∈ u.functions ↔ f ∈ members := by
  obtain ⟨members, hmembers, rfl⟩ := toUnit_of_getElem? hu
  exact ⟨members, hmembers, fun f => mem_toUnit_functions⟩

theorem functions_ne_nil (hu : u ∈ p.callGraph.units) : ∃ f, f ∈ u.functions := by
  obtain ⟨i, hi⟩ := List.mem_iff_getElem?.mp hu
  obtain ⟨members, hmembers, hmem⟩ := group_of_unit hi
  have hne := Graph.ne_nil_of_mem_components callees_closed (length_functions _)
    (List.mem_of_getElem? hmembers)
  obtain ⟨f, hf⟩ := List.exists_mem_of_ne_nil members hne
  exact ⟨f, (hmem f).mpr hf⟩

theorem mem_unit_iff (hu : u ∈ p.callGraph.units) (hf : f ∈ u.functions) :
    c ∈ u.functions ↔ ReflTransGen p.Calls f c ∧ ReflTransGen p.Calls c f := by
  obtain ⟨i, hi⟩ := List.mem_iff_getElem?.mp hu
  obtain ⟨members, hmembers, hmem⟩ := group_of_unit hi
  rw [hmem, mem_group_iff (List.mem_of_getElem? hmembers) ((hmem f).mp hf)]

theorem unit_position_unique (hi : p.callGraph.units[i]? = some u) (hf : f ∈ u.functions)
    (hj : p.callGraph.units[j]? = some v) (hf' : f ∈ v.functions) : i = j := by
  obtain ⟨members, hmembers, hmem⟩ := group_of_unit hi
  obtain ⟨others, hothers, hmem'⟩ := group_of_unit hj
  exact group_unique hmembers ((hmem f).mp hf) hothers ((hmem' f).mp hf')

theorem unit_unique (hu : u ∈ p.callGraph.units) (hf : f ∈ u.functions)
    (hv : v ∈ p.callGraph.units) (hf' : f ∈ v.functions) : u = v := by
  obtain ⟨i, hi⟩ := List.mem_iff_getElem?.mp hu
  obtain ⟨j, hj⟩ := List.mem_iff_getElem?.mp hv
  obtain rfl := unit_position_unique hi hf hj hf'
  exact Option.some.inj (hi.symm.trans hj)

theorem units_nodup (p : Program) : p.callGraph.units.Nodup := by
  refine List.nodup_iff_getElem?_ne_getElem?.mpr fun i j hij hj heq => ?_
  have hget := List.getElem?_eq_getElem hj
  obtain ⟨f, hf⟩ := functions_ne_nil (List.mem_of_getElem? hget)
  have := unit_position_unique (heq.trans hget) hf hget hf
  omega

theorem unit_of_defines (hf : p.defines f) : ∃ u ∈ p.callGraph.units, f ∈ u.functions :=
  List.mem_flatMap.mp (mem_units_functions.mpr hf)

theorem callee_position_le (hi : p.callGraph.units[i]? = some u) (hf : f ∈ u.functions)
    (hcalls : p.Calls f c) (hj : p.callGraph.units[j]? = some v) (hc : c ∈ v.functions) :
    j ≤ i := by
  obtain ⟨members, hmembers, hmem⟩ := group_of_unit hi
  obtain ⟨others, hothers, hmem'⟩ := group_of_unit hj
  exact calls_le hmembers ((hmem f).mp hf) hcalls hothers ((hmem' c).mp hc)

/-- A unit is recursive exactly if one of its members comes back to itself. -/
theorem recursive_iff (hu : u ∈ p.callGraph.units) :
    u.recursive ↔ ∃ f ∈ u.functions, TransGen p.Calls f f := by
  obtain ⟨i, hi⟩ := List.mem_iff_getElem?.mp hu
  obtain ⟨members, hmembers, rfl⟩ := toUnit_of_getElem? hi
  have hgroup := List.mem_of_getElem? hmembers
  have hnodup : members.Nodup := (List.nodup_flatten.mp (groups_nodup p)).1 members hgroup
  simp only [mem_toUnit_functions]
  match members, hgroup, hnodup with
  | [], hgroup, _ =>
    exact absurd rfl (Graph.ne_nil_of_mem_components callees_closed (length_functions _) hgroup)
  | [f], hgroup, _ =>
    simp only [toUnit, callsItself, List.length_singleton, List.head?_cons, Option.any_some,
      Nat.lt_irrefl, decide_false, Bool.false_or, List.contains_iff_mem, mem_callees,
      List.mem_singleton, exists_eq_left]
    constructor
    · exact TransGen.single
    · intro hloop
      -- the first call of the way round stays in the group, which has no other member
      obtain ⟨c, hcalls, hback⟩ := TransGen.head'_iff.mp hloop
      have hc : c ∈ [f] :=
        (mem_group_iff hgroup (List.mem_singleton_self f)).mpr ⟨.single hcalls, hback⟩
      rwa [List.mem_singleton.mp hc] at hcalls
  | f :: c :: rest, hgroup, hnodup =>
    have hne : f ≠ c := fun h => by simp [h] at hnodup
    obtain ⟨hto, hback⟩ := (mem_group_iff (f := f) (c := c) hgroup (by simp)).mp (by simp)
    simp only [toUnit, List.length_cons, show 1 < rest.length + 1 + 1 by omega, decide_true,
      Bool.true_or, true_iff]
    refine ⟨f, by simp, ?_⟩
    rcases reflTransGen_iff_eq_or_transGen.mp hto with heq | hto
    · exact absurd heq.symm hne
    · exact hto.trans_left hback

/-- A unit that is not recursive has one member. -/
theorem length_functions_le_one (hu : u ∈ p.callGraph.units) (hrec : u.recursive = false) :
    u.functions.length ≤ 1 := by
  obtain ⟨i, hi⟩ := List.mem_iff_getElem?.mp hu
  obtain ⟨members, -, rfl⟩ := toUnit_of_getElem? hi
  simp only [toUnit, Bool.or_eq_false_iff, decide_eq_false_iff_not] at hrec
  rw [toUnit, List.length_mergeSort]
  omega

/-! ## Levels -/

/-- A level is above a bound exactly if the bound is zero or a called unit is at least that high. -/
theorem le_level_iff (hu : u ∈ p.callGraph.units) {n : Nat} :
    n ≤ u.level ↔ n = 0 ∨ ∃ v ∈ p.callGraph.units, p.CallsUnit u v ∧ n ≤ v.level + 1 := by
  obtain ⟨i, hi⟩ := List.mem_iff_getElem?.mp hu
  obtain ⟨members, hmembers, heq⟩ := toUnit_of_getElem? hi
  have hlevel : u.level = p.callGraph.levelOf p.callGraph.groups (p.callGraph.units.take i) members :=
    congrArg AnalysisUnit.level heq
  have hmem : ∀ f, f ∈ u.functions ↔ f ∈ members := by
    intro f
    rw [heq, mem_toUnit_functions]
  have hlength : (p.callGraph.units.take i).length = i := by
    have := (List.getElem?_eq_some_iff.mp hi).1
    rw [List.length_take]
    omega
  rw [hlevel, levelOf, le_foldl_max, Nat.le_zero, hlength]
  refine or_congr_right ⟨?_, ?_⟩
  · rintro ⟨j, hj, hle⟩
    simp only [List.mem_filter, List.mem_filterMap, List.mem_flatMap, decide_eq_true_eq] at hj
    obtain ⟨⟨c, ⟨f, hf, hc⟩, hposition⟩, hne⟩ := hj
    have hlt := groupOf_lt hmembers hf hc hposition hne
    have hjlt : j < p.callGraph.units.length := Nat.lt_trans hlt (List.getElem?_eq_some_iff.mp hi).1
    have hget := List.getElem?_eq_getElem hjlt
    obtain ⟨others, hothers, hmem'⟩ := group_of_unit hget
    have hc' := (hmem' c).mpr ((groupOf?_eq_some_iff hothers).mp hposition)
    have hdiff : p.callGraph.units[j] ≠ u := by
      intro h
      rw [h] at hget hc'
      exact hne (unit_position_unique hget hc' hi hc')
    refine ⟨_, List.getElem_mem hjlt,
      ⟨hdiff, f, (hmem f).mpr hf, c, hc', mem_callees.mp hc⟩, ?_⟩
    rwa [List.getD_eq_getElem?_getD, List.getElem?_take_of_lt hlt, hget, Option.getD_some] at hle
  · rintro ⟨v, hv, ⟨hne, f, hf, c, hc, hcalls⟩, hle⟩
    obtain ⟨j, hj⟩ := List.mem_iff_getElem?.mp hv
    obtain ⟨others, hothers, hmem'⟩ := group_of_unit hj
    have hposition := (groupOf?_eq_some_iff hothers).mpr ((hmem' c).mp hc)
    have hij : j ≠ i := by
      rintro rfl
      exact hne (Option.some.inj (hj.symm.trans hi))
    have hlt := groupOf_lt hmembers ((hmem f).mp hf) (mem_callees.mpr hcalls) hposition hij
    refine ⟨j, ?_, ?_⟩
    · simp only [List.mem_filter, List.mem_filterMap, List.mem_flatMap, decide_eq_true_eq]
      exact ⟨⟨c, ⟨f, (hmem f).mp hf, mem_callees.mpr hcalls⟩, hposition⟩, hij⟩
    · rwa [List.getD_eq_getElem?_getD, List.getElem?_take_of_lt hlt, hj, Option.getD_some]

theorem level_lt_of_callsUnit (hu : u ∈ p.callGraph.units) (hv : v ∈ p.callGraph.units)
    (h : p.CallsUnit u v) : v.level < u.level :=
  (le_level_iff hu).mpr (.inr ⟨v, hv, h, Nat.le_refl _⟩)

theorem lt_depth_iff (g : CallGraph) {n : Nat} :
    n < g.levels.length ↔ ∃ u ∈ g.units, n ≤ u.level := by
  have hdepth : g.levels.length = g.units.foldl (fun depth unit => max depth (unit.level + 1)) 0 := by
    rw [levels, List.length_map, List.length_range]
  rw [hdepth, ← Nat.succ_le_iff, le_foldl_max (fun unit : AnalysisUnit => unit.level + 1)]
  simp

theorem mem_level_iff {g : CallGraph} {n : Nat} {level : List AnalysisUnit}
    (hn : g.levels[n]? = some level) : u ∈ level ↔ u ∈ g.units ∧ u.level = n := by
  have hlt := (List.getElem?_eq_some_iff.mp hn).1
  rw [levels, List.length_map, List.length_range] at hlt
  rw [levels, List.getElem?_map, List.getElem?_range hlt, Option.map_some, Option.some.injEq] at hn
  rw [← hn, List.mem_filter, decide_eq_true_eq]

/-- The levels hold every unit once. -/
theorem levels_perm (p : Program) : p.callGraph.levels.flatten.Perm p.callGraph.units := by
  refine (List.perm_ext_iff_of_nodup ?_ (units_nodup p)).mpr fun u => ?_
  · refine List.nodup_flatten.mpr ⟨fun level h => ?_, ?_⟩
    · obtain ⟨n, -, rfl⟩ := List.mem_map.mp h
      exact (units_nodup p).filter _
    · refine List.pairwise_iff_getElem.mpr fun i j hi hj hlt u hu hu' => ?_
      have hlevel := (mem_level_iff (List.getElem?_eq_getElem hi)).mp hu
      have hlevel' := (mem_level_iff (List.getElem?_eq_getElem hj)).mp hu'
      omega
  · rw [List.mem_flatten]
    constructor
    · rintro ⟨level, h, hu⟩
      obtain ⟨n, hn⟩ := List.mem_iff_getElem?.mp h
      exact ((mem_level_iff hn).mp hu).1
    · intro hu
      have hdepth := (lt_depth_iff p.callGraph).mpr ⟨u, hu, Nat.le_refl _⟩
      have hget := List.getElem?_eq_getElem hdepth
      exact ⟨_, List.mem_of_getElem? hget, (mem_level_iff hget).mpr ⟨hu, rfl⟩⟩

end Schedule

end CallGraph

/-! ## Schedules -/

/-- What the order of analysis is to do for a program. -/
structure Program.Scheduled (p : Program) : Prop where
  /-- Every defined function is in a unit. -/
  covers : ∀ f, f ∈ p.callGraph.units.flatMap AnalysisUnit.functions ↔ p.defines f
  /-- No function is listed twice. -/
  once : (p.callGraph.units.flatMap AnalysisUnit.functions).Nodup
  /-- Functions share a unit if they lead to each other. -/
  shared : ∀ u ∈ p.callGraph.units, ∀ f ∈ u.functions, ∀ c,
    c ∈ u.functions ↔ ReflTransGen p.Calls f c ∧ ReflTransGen p.Calls c f
  /-- No unit stands before one that it calls. -/
  callees_first : ∀ (i j : Nat) (u v : AnalysisUnit), p.callGraph.units[i]? = some u →
    p.callGraph.units[j]? = some v → p.CallsUnit u v → j < i
  recursive : ∀ u ∈ p.callGraph.units,
    u.recursive ↔ ∃ f ∈ u.functions, TransGen p.Calls f f
  /-- A unit that calls no other one is at the bottom. -/
  bottom : ∀ u ∈ p.callGraph.units,
    (∀ v ∈ p.callGraph.units, ¬ p.CallsUnit u v) → u.level = 0
  /-- Any other unit is right above the highest unit that it calls. -/
  above : ∀ u ∈ p.callGraph.units, (∃ v ∈ p.callGraph.units, p.CallsUnit u v) →
    IsGreatest {n | ∃ v ∈ p.callGraph.units, p.CallsUnit u v ∧ n = v.level + 1} u.level
  /-- When the level of a unit is computed, the units that it calls are there. -/
  in_range : ∀ (i : Nat) (members : List FuncId), p.callGraph.groups[i]? = some members →
    ∀ f ∈ members, ∀ c ∈ p.callGraph.callees f, ∀ j,
      CallGraph.groupOf? p.callGraph.groups c = some j → j ≠ i →
      j < (p.callGraph.units.take i).length
  /-- The levels hold every unit once. -/
  partition : p.callGraph.levels.flatten.Perm p.callGraph.units
  /-- A unit stands in the list of its level. -/
  at_level : ∀ (n : Nat) (level : List AnalysisUnit), p.callGraph.levels[n]? = some level →
    ∀ u ∈ level, u.level = n

/-- Every program is scheduled by the components of its call graph. -/
theorem Program.callGraph_scheduled (p : Program) : p.Scheduled where
  covers _ := CallGraph.mem_units_functions
  once := CallGraph.units_functions_nodup p
  shared _ hu _ hf _ := CallGraph.mem_unit_iff hu hf
  callees_first i j u v hi hj hcalls := by
    obtain ⟨hne, f, hf, c, hc, hcalls⟩ := hcalls
    refine Nat.lt_of_le_of_ne (CallGraph.callee_position_le hi hf hcalls hj hc) ?_
    rintro rfl
    exact hne (Option.some.inj (hj.symm.trans hi))
  recursive _ := CallGraph.recursive_iff
  bottom u hu hnone := by
    by_contra hlevel
    obtain hzero | ⟨v, hv, hcalls, -⟩ := (CallGraph.le_level_iff hu).mp (Nat.le_refl u.level)
    · exact hlevel hzero
    · exact hnone v hv hcalls
  above u hu hsome := by
    refine ⟨?_, ?_⟩
    · obtain ⟨v, hv, hcalls⟩ := hsome
      have hpos := CallGraph.level_lt_of_callsUnit hu hv hcalls
      obtain hzero | ⟨w, hw, hcalls', hle⟩ := (CallGraph.le_level_iff hu).mp (Nat.le_refl u.level)
      · omega
      · exact ⟨w, hw, hcalls',
          Nat.le_antisymm hle (CallGraph.level_lt_of_callsUnit hu hw hcalls')⟩
    · rintro n ⟨v, hv, hcalls, rfl⟩
      exact CallGraph.level_lt_of_callsUnit hu hv hcalls
  in_range i members hi f hf c hc j hj hne := by
    have hlt := CallGraph.groupOf_lt hi hf hc hj hne
    have hilt := (List.getElem?_eq_some_iff.mp hi).1
    rw [List.length_take, CallGraph.length_units]
    omega
  partition := CallGraph.levels_perm p
  at_level _ _ hn _ hu := ((CallGraph.mem_level_iff hn).mp hu).2

end Tenure

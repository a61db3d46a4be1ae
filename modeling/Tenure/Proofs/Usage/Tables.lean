import Tenure.Proofs.Table
import Tenure.Usage

/-!
# The tables of the collected usage

Recording an access adds one use and its id to two tables, and every other operation of the walk
leaves uses and ids alone. So the tables stay in step with what is recorded (`Usage.Consistent`):
the entry of a declared binding, and that of a point, has the ids of the uses which a filter of all
uses would find (`Func.usesOf_eq_filter`, `Func.usesAt_eq_filter`), and the entry of a point in the
table of definitions is the last definition there.

Without the tables, the recorded uses are those of one site after the other (`Func.usage_uses`).
-/

namespace Tenure

theorem PointTable.get?_alter {α : Type} (t : PointTable α) (p q : Point) (change : Option α → α) :
    (t.alter p change).get? q = if q = p then some (change (t.get? p)) else t.get? q := by
  induction t with
  | nil =>
    by_cases hq : q = p
    · simp [alter, get?, hq]
    · simp [alter, get?, hq, Ne.symm hq]
  | cons e rest ih =>
    rw [alter]
    by_cases he : e.1 = p
    · subst he
      by_cases hq : q = e.1
      · simp [get?, hq]
      · simp [get?, hq, Ne.symm hq]
    · rw [if_neg he]
      by_cases hq : q = e.1
      · subst hq
        simp [get?, he]
      · simp only [get?, List.find?_cons, decide_eq_false (Ne.symm hq), decide_eq_false he] at ih ⊢
        exact ih

/-! ## What is recorded -/

/-- The uses at a point, numbered from `firstUse`; those of a list belong to the group `group`. -/
def Site.uses (s : Site) (firstUse group : Nat) : List Use :=
  (s.step.accesses.zipIdx firstUse).map fun (a, id) => s.use group a id

/-- The uses of consecutive points, with the next free use and group number. -/
def collectUses : Nat → Nat → List Site → List Use
  | _, _, [] => []
  | nextUse, nextGroup, s :: rest =>
    s.uses nextUse nextGroup ++
      collectUses (nextUse + s.step.accesses.length)
        (if s.step.isGrouping then nextGroup + 1 else nextGroup) rest

namespace Usage

variable {u : Usage}

theorem uses_foldl_record (s : Site) (group : Nat) (accesses : List Access) (u : Usage) :
    (accesses.foldl (fun u a => u.record s group a) u).uses =
      u.uses ++ (accesses.zipIdx u.uses.length).map fun (a, id) => s.use group a id := by
  induction accesses generalizing u with
  | nil => simp
  | cons a rest ih =>
    rw [List.foldl_cons, ih]
    simp [record, List.zipIdx_cons, List.append_assoc]

/-- Accesses change neither the definitions and allocations nor the number of bindings. -/
theorem foldl_record_keeps (s : Site) (group : Nat) (accesses : List Access) (u : Usage) :
    (accesses.foldl (fun u a => u.record s group a) u).definitions = u.definitions ∧
    (accesses.foldl (fun u a => u.record s group a) u).allocations = u.allocations ∧
    (accesses.foldl (fun u a => u.record s group a) u).byBinding.length = u.byBinding.length := by
  induction accesses generalizing u with
  | nil => exact ⟨rfl, rfl, rfl⟩
  | cons a rest ih =>
    obtain ⟨hdefinitions, hallocations, hlength⟩ := ih (u.record s group a)
    exact ⟨hdefinitions, hallocations, hlength.trans (List.length_modify _ _ _)⟩

end Usage

namespace Recorder

/-- What the walk adds at one point. -/
theorem visit_adds (r : Recorder) (s : Site) :
    (r.visit s).usage.uses = r.usage.uses ++ s.uses r.usage.uses.length r.nextGroup ∧
    (r.visit s).usage.definitions = r.usage.definitions ++ s.definition?.toList ∧
    (r.visit s).usage.allocations = r.usage.allocations ++ s.allocation?.toList ∧
    (r.visit s).usage.byBinding.length = r.usage.byBinding.length := by
  have huses := Usage.uses_foldl_record s r.nextGroup s.step.accesses r.usage
  obtain ⟨hdefinitions, hallocations, hlength⟩ :=
    Usage.foldl_record_keeps s r.nextGroup s.step.accesses r.usage
  rw [visit]
  cases s.definition? <;> cases s.allocation? <;>
    simp [Usage.define, Usage.allocate, huses, hdefinitions, hallocations, hlength, Site.uses]

/-- What the walk adds at consecutive points. -/
theorem foldl_visit_adds (sites : List Site) (r : Recorder) :
    (sites.foldl visit r).usage.uses =
      r.usage.uses ++ collectUses r.usage.uses.length r.nextGroup sites ∧
    (sites.foldl visit r).usage.definitions =
      r.usage.definitions ++ sites.filterMap Site.definition? ∧
    (sites.foldl visit r).usage.allocations =
      r.usage.allocations ++ sites.filterMap Site.allocation? ∧
    (sites.foldl visit r).usage.byBinding.length = r.usage.byBinding.length := by
  induction sites generalizing r with
  | nil => simp [collectUses]
  | cons s rest ih =>
    obtain ⟨huses, hdefinitions, hallocations, hlength⟩ := r.visit_adds s
    obtain ⟨iuses, idefinitions, iallocations, ilength⟩ := ih (r.visit s)
    have hcount : (r.visit s).usage.uses.length = r.usage.uses.length + s.step.accesses.length := by
      rw [huses]
      simp [Site.uses]
    refine ⟨?_, ?_, ?_, ilength.trans hlength⟩
    · rw [List.foldl_cons, iuses, hcount, huses, collectUses, List.append_assoc]
      rfl
    · rw [List.foldl_cons, idefinitions, hdefinitions, List.append_assoc, List.filterMap_cons]
      cases s.definition? <;> rfl
    · rw [List.foldl_cons, iallocations, hallocations, List.append_assoc, List.filterMap_cons]
      cases s.allocation? <;> rfl

end Recorder

/-! ## Tables in step with what is recorded -/

/-- Uses are numbered in order, and each table has what a search of all records would give. -/
structure Usage.Consistent (u : Usage) : Prop where
  ids : u.uses.map Use.id = List.range u.uses.length
  idsOf : ∀ b < u.byBinding.length, u.idsOf b = (u.uses.filter fun x => x.binding = b).map Use.id
  idsAt : ∀ p, u.idsAt p = (u.uses.filter fun x => x.point = p).map Use.id
  definitionAt : ∀ p, u.definitionAt p =
    (u.definitions.reverse.find? fun d => d.point = p).map Definition.binding

namespace Usage.Consistent

variable {u : Usage}

theorem start (bindings : Nat) : (Usage.start bindings).Consistent where
  ids := rfl
  idsOf b hb := by simp [Usage.start, Usage.idsOf, List.getD_eq_getElem?_getD]
  idsAt p := rfl
  definitionAt p := rfl

/-- The new use has the next number, and the entries that it belongs to get that number at their
end. -/
theorem record (h : u.Consistent) (s : Site) (group : Nat) (a : Access) :
    (u.record s group a).Consistent where
  ids := by
    simp only [Usage.record, List.map_append, h.ids, List.length_append, List.length_singleton,
      List.range_succ]
    rfl
  idsOf b hb := by
    have hlt : b < u.byBinding.length := by simpa [Usage.record] using hb
    have hold := h.idsOf b hlt
    rw [Usage.idsOf] at hold
    simp only [Usage.idsOf, Usage.record, List.filter_append, List.map_append]
    by_cases heq : a.binding = b
    · subst heq
      rw [Table.getD_modify_self hlt, hold]
      simp [Site.use]
    · rw [Table.getD_modify_ne heq, hold]
      simp [Site.use, heq]
  idsAt p := by
    have hold := h.idsAt p
    simp only [Usage.idsAt] at hold
    simp only [Usage.idsAt, Usage.record, PointTable.get?_alter, List.filter_append,
      List.map_append]
    by_cases hp : p = s.point
    · subst hp
      simp [hold, Site.use]
    · simp [hp, Ne.symm hp, hold, Site.use]
  definitionAt := h.definitionAt

/-- The new definition is the last one at its point. -/
theorem define (h : u.Consistent) (d : Definition) : (u.define d).Consistent where
  ids := h.ids
  idsOf := h.idsOf
  idsAt := h.idsAt
  definitionAt p := by
    have hold := h.definitionAt p
    rw [Usage.definitionAt] at hold
    rw [Usage.definitionAt, Usage.define, PointTable.get?_alter, List.reverse_append,
      List.reverse_singleton, List.singleton_append, List.find?_cons]
    by_cases hp : p = d.point
    · simp [hp]
    · simp only [if_neg hp, decide_eq_false (Ne.symm hp)]
      exact hold

theorem allocate (h : u.Consistent) (site : AllocSite) : (u.allocate site).Consistent :=
  ⟨h.ids, h.idsOf, h.idsAt, h.definitionAt⟩

theorem foldl_record (h : u.Consistent) (s : Site) (group : Nat) (accesses : List Access) :
    (accesses.foldl (fun u a => u.record s group a) u).Consistent := by
  induction accesses generalizing u with
  | nil => exact h
  | cons a rest ih => exact ih (h.record s group a)

/-- One point. -/
theorem visit {r : Recorder} (h : r.usage.Consistent) (s : Site) :
    (r.visit s).usage.Consistent := by
  have hused := h.foldl_record s r.nextGroup s.step.accesses
  rw [Recorder.visit]
  cases s.definition? with
  | none =>
    cases s.allocation? with
    | none => exact hused
    | some site => exact hused.allocate site
  | some d =>
    cases s.allocation? with
    | none => exact hused.define d
    | some site => exact (hused.define d).allocate site

/-- All points. -/
theorem foldl_visit {r : Recorder} (h : r.usage.Consistent) (sites : List Site) :
    (sites.foldl Recorder.visit r).usage.Consistent := by
  induction sites generalizing r with
  | nil => exact h
  | cons s rest ih => exact ih (h.visit s)

/-- Uses are found by their ids. -/
theorem withIds_map_id (h : u.Consistent) {l : List Use} (hl : ∀ x ∈ l, x ∈ u.uses) :
    u.withIds (l.map Use.id) = l := by
  rw [Usage.withIds, List.filterMap_map]
  refine (List.filterMap_congr fun x hx => ?_).trans List.filterMap_some
  exact Table.getElem?_key h.ids (hl x hx)

end Usage.Consistent

/-! ## The usage of a function -/

theorem Usage.mem_uses_of_mem_usesAt {u : Usage} {p : Point} {x : Use} (h : x ∈ u.usesAt p) :
    x ∈ u.uses := by
  obtain ⟨id, -, hget⟩ := List.mem_filterMap.mp h
  exact List.mem_of_getElem? hget

namespace Func

variable {f : Func} {p : Point} {b : BindingId}

theorem usage_consistent (f : Func) : f.usage.Consistent :=
  (Usage.Consistent.start f.bindings.length).foldl_visit f.sites (r := ⟨_, 0⟩)

theorem usage_uses (f : Func) : f.usage.uses = collectUses 0 0 f.sites :=
  (Recorder.foldl_visit_adds f.sites _).1

theorem usage_definitions (f : Func) :
    f.usage.definitions = f.sites.filterMap Site.definition? :=
  (Recorder.foldl_visit_adds f.sites _).2.1

theorem usage_allocations (f : Func) :
    f.usage.allocations = f.sites.filterMap Site.allocation? :=
  (Recorder.foldl_visit_adds f.sites _).2.2.1

/-- There is one entry for each declared binding. -/
theorem length_byBinding (f : Func) : f.usage.byBinding.length = f.bindings.length :=
  (Recorder.foldl_visit_adds f.sites _).2.2.2.trans List.length_replicate

/-- The ids of the uses of a function are 0, 1, 2, … in order. -/
theorem usage_ids (f : Func) : f.usage.uses.map Use.id = List.range f.usage.uses.length :=
  f.usage_consistent.ids

theorem usesAt_eq_filter (f : Func) (p : Point) :
    f.usage.usesAt p = f.usage.uses.filter fun u => u.point = p := by
  rw [Usage.usesAt, f.usage_consistent.idsAt]
  exact f.usage_consistent.withIds_map_id fun _ hx => (List.mem_filter.mp hx).1

theorem idsAt_eq (f : Func) (p : Point) : f.usage.idsAt p = (f.usage.usesAt p).map Use.id := by
  rw [f.usage_consistent.idsAt, usesAt_eq_filter]

theorem mem_usesAt {u : Use} : u ∈ f.usage.usesAt p ↔ u ∈ f.usage.uses ∧ u.point = p := by
  rw [usesAt_eq_filter, List.mem_filter, decide_eq_true_eq]

theorem usesOf_eq_filter (hb : b < f.bindings.length) :
    f.usage.usesOf b = f.usage.uses.filter fun u => u.binding = b := by
  rw [Usage.usesOf, f.usage_consistent.idsOf b (f.length_byBinding.symm ▸ hb)]
  exact f.usage_consistent.withIds_map_id fun _ hx => (List.mem_filter.mp hx).1

/-- The uses of a binding that is not declared are not found by it. -/
theorem usesOf_eq_nil (hb : f.bindings.length ≤ b) : f.usage.usesOf b = [] := by
  have hnone : f.usage.byBinding[b]? = none :=
    List.getElem?_eq_none (f.length_byBinding.symm ▸ hb)
  rw [Usage.usesOf, Usage.idsOf, List.getD_eq_getElem?_getD, hnone]
  rfl

end Func

end Tenure

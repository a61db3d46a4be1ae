import Tenure.Proofs.Usage

/-!
# Every reference is recorded once

The references of a function are read off its text: block by block, statement by statement, and in a
statement in the order of evaluation. In a function whose blocks are numbered by their positions the
recorded uses are these references, one for one and in the same order (`Func.map_written_uses`), and
the ids of uses are positions in that list. The tables by binding and by point therefore hold the
positions of the references to the binding and at the point (`Func.every_reference_recorded_once`).
-/

namespace Tenure

/-- The references of the block at a position, with the points where they are written. -/
def Block.references (block : Block) (b : BlockId) : List (Point × Reference) :=
  block.steps.zipIdx.flatMap fun (step, i) => step.references.map (Prod.mk ⟨b, i⟩)

/-- The references of a function in the order of blocks, statements and evaluation. -/
def Func.references (f : Func) : List (Point × Reference) :=
  f.blocks.zipIdx.flatMap fun (block, b) => block.references b

/-- What is written where a use is made. -/
def Use.written (u : Use) : Point × Reference := (u.point, u.reference)

/-- The statement at a point assigns a binding. -/
def Func.AssignedAt (f : Func) (p : Point) (b : BindingId) : Prop :=
  ∃ block value span, f.blocks[p.block]? = some block ∧
    block.statements[p.index]? = some ⟨.assign b value, span⟩

/-- The ids are the positions, in increasing order, of the entries of a listing with a property. -/
structure Positions {α : Type} (ids : List Nat) (l : List α) (P : α → Prop) : Prop where
  increasing : ids.Pairwise (· < ·)
  mem_iff : ∀ i, i ∈ ids ↔ ∃ a, l[i]? = some a ∧ P a

/-! ## Uses in program order -/

namespace Func

variable {f : Func}

theorem map_written_siteUses (s : Site) (first group : Nat) :
    (s.uses first group).map Use.written = s.step.references.map (Prod.mk s.point) := by
  calc (s.uses first group).map Use.written
      = (s.uses first group).map fun u => (s.point, u.reference) := by
        refine List.map_congr_left fun u hu => ?_
        rw [Use.written, point_of_mem_uses hu]
    _ = (((s.uses first group).map Use.toAccess).map Access.reference).map (Prod.mk s.point) := by
        rw [List.map_map, List.map_map]
        rfl
    _ = s.step.references.map (Prod.mk s.point) := by
        rw [map_toAccess_uses, s.step.map_reference_accesses]

theorem map_written_collectUses (sites : List Site) (nextUse nextGroup : Nat) :
    (collectUses nextUse nextGroup sites).map Use.written =
      sites.flatMap fun s => s.step.references.map (Prod.mk s.point) := by
  induction sites generalizing nextUse nextGroup with
  | nil => rfl
  | cons s rest ih =>
    rw [collectUses, List.map_append, map_written_siteUses, ih, List.flatMap_cons]

theorem flatMap_blockSites (block : Block) :
    (block.sites.flatMap fun s => s.step.references.map (Prod.mk s.point)) =
      block.references block.id := by
  rw [Block.sites, List.flatMap_map]
  rfl

theorem references_eq_flatMap (hf : f.Numbered) :
    f.references = f.blocks.flatMap fun block => block.references block.id := by
  have hposition : ∀ entry ∈ f.blocks.zipIdx,
      entry.1.references entry.2 = entry.1.references entry.1.id := by
    rintro ⟨block, b⟩ hmem
    rw [hf.id_eq (List.mem_zipIdx_iff_getElem?.mp hmem)]
  calc f.references
      = f.blocks.zipIdx.flatMap fun entry => entry.1.references entry.1.id :=
        List.flatMap_congr hposition
    _ = (f.blocks.zipIdx.map Prod.fst).flatMap fun block => block.references block.id := by
        rw [List.flatMap_map]
    _ = f.blocks.flatMap fun block => block.references block.id := by
        rw [List.zipIdx_map_fst]

/-- The uses are the references of the function, read in program order. -/
theorem map_written_uses (hf : f.Numbered) : f.usage.uses.map Use.written = f.references := by
  rw [usage_uses, map_written_collectUses, sites, List.flatMap_assoc, references_eq_flatMap hf]
  simp only [flatMap_blockSites]

/-! ## Entries of the tables -/

/-- Where uses are numbered in order, those with a property have the positions of the property. -/
theorem positions_filter {uses : List Use} (hids : uses.map Use.id = List.range uses.length)
    (P : Point × Reference → Prop) [DecidablePred P] :
    Positions ((uses.filter fun u => P u.written).map Use.id) (uses.map Use.written) P where
  increasing := by
    have hsorted : (uses.map Use.id).Pairwise (· < ·) := by
      rw [hids]
      exact List.pairwise_lt_range
    exact hsorted.sublist (List.filter_sublist.map Use.id)
  mem_iff i := by
    rw [List.mem_map]
    constructor
    · rintro ⟨u, hu, rfl⟩
      obtain ⟨hmem, hP⟩ := List.mem_filter.mp hu
      refine ⟨u.written, ?_, of_decide_eq_true hP⟩
      rw [List.getElem?_map, Table.getElem?_key hids hmem]
      rfl
    · rintro ⟨r, hr, hP⟩
      rw [List.getElem?_map, Option.map_eq_some_iff] at hr
      obtain ⟨u, hu, rfl⟩ := hr
      exact ⟨u, List.mem_filter.mpr ⟨List.mem_of_getElem? hu, decide_eq_true hP⟩,
        Table.key_eq_of_getElem? hids hu⟩

theorem getElem?_byBinding {b : BindingId} (hb : b < f.bindings.length) :
    f.usage.byBinding[b]? = some ((f.usage.usesOf b).map Use.id) := by
  have hlt : b < f.usage.byBinding.length := f.length_byBinding.symm ▸ hb
  have hids := f.usage_consistent.idsOf b hlt
  rw [Usage.idsOf, List.getD_eq_getElem _ _ hlt] at hids
  rw [List.getElem?_eq_getElem hlt, hids, usesOf_eq_filter hb]

/-! ## Definitions -/

theorem getElem?_steps_eq_statement {block : Block} {i : Nat} {s : Statement} :
    block.steps[i]? = some (.statement s) ↔ block.statements[i]? = some s := by
  rw [Block.steps, List.getElem?_append, List.length_map]
  split
  next hlt => simp [hlt]
  next hge =>
    -- the last step is no statement
    rw [List.getElem?_eq_none (Nat.not_lt.mp hge), List.getElem?_singleton]
    split <;> simp

theorem definitionAt_eq_some_iff_assignedAt (hf : f.Numbered) {p : Point} {b : BindingId} :
    f.usage.definitionAt p = some b ↔ f.AssignedAt p b := by
  rw [hf.definitionAt_eq, Option.bind_eq_some_iff]
  constructor
  · rintro ⟨step, hstep, hdest⟩
    obtain ⟨block, hblock, hget⟩ := step?_eq_some.mp hstep
    unfold Step.dest? at hdest
    split at hdest
    next dest value span =>
      obtain rfl := Option.some.inj hdest
      exact ⟨block, value, span, hblock, getElem?_steps_eq_statement.mp hget⟩
    next => cases hdest
  · rintro ⟨block, value, span, hblock, hget⟩
    exact ⟨_, step?_eq_some.mpr ⟨block, hblock, getElem?_steps_eq_statement.mpr hget⟩, rfl⟩

/-! ## The recorded usage -/

/-- In a function whose block ids are the positions of the blocks, the uses have the ids 0, 1, 2, …
and are the references of the function in program order. The table by binding has one entry for each
declared binding and none for others, and an entry has the positions of the references to the
binding; the entry of a point has the positions of the references at the point. The uses found
through the tables are those with the ids in them. A binding is defined at a point exactly if the
statement there assigns it. -/
theorem every_reference_recorded_once (f : Func) (hids : f.Numbered) :
    f.usage.uses.map Use.id = List.range f.usage.uses.length ∧
    f.usage.uses.map Use.written = f.references ∧
    f.usage.byBinding.length = f.bindings.length ∧
    (∀ b < f.bindings.length,
      f.usage.byBinding[b]? = some ((f.usage.usesOf b).map Use.id) ∧
      Positions ((f.usage.usesOf b).map Use.id) f.references fun r => r.2.binding = b) ∧
    (∀ b ≥ f.bindings.length, f.usage.usesOf b = []) ∧
    (∀ p, f.usage.idsAt p = (f.usage.usesAt p).map Use.id ∧
      Positions (f.usage.idsAt p) f.references fun r => r.1 = p) ∧
    ∀ p b, f.usage.definitionAt p = some b ↔ f.AssignedAt p b := by
  have hwritten := map_written_uses hids
  refine ⟨f.usage_ids, hwritten, f.length_byBinding, fun b hb => ⟨getElem?_byBinding hb, ?_⟩,
    fun b => usesOf_eq_nil, fun p => ⟨f.idsAt_eq p, ?_⟩, fun p b => ?_⟩
  · rw [← hwritten, usesOf_eq_filter hb]
    exact positions_filter f.usage_ids fun r => r.2.binding = b
  · rw [← hwritten, f.usage_consistent.idsAt]
    exact positions_filter f.usage_ids fun r => r.1 = p
  · exact definitionAt_eq_some_iff_assignedAt hids

/-- A function with a stored binding, a reference to a constant, captures and a send without a
destination, a suspension that keeps an undeclared binding, and a dead block. -/
def manyForms : Func where
  id := 0
  name := "f"
  span := ⟨0, 99⟩
  params := [0, 1]
  bindings := [⟨"job", .named "Job", .param, 0, none, ⟨2, 5⟩⟩,
    ⟨"chan", .named "Channel", .param, 0, none, ⟨6, 10⟩⟩,
    ⟨"pair", .named "Pair", .letBound, 0, none, ⟨12, 16⟩⟩]
  blocks := [
    ⟨0, 0, [
      ⟨.assign 2 (.call (.constructor "Pair")
        [.binding ⟨0, some .borrow, ⟨20, 23⟩⟩, .constant .unit, .field ⟨1, none, ⟨25, 29⟩⟩ "peer"]),
        ⟨12, 30⟩⟩,
      ⟨.fieldWrite ⟨2, none, ⟨31, 35⟩⟩ "job" (.use (.binding ⟨0, none, ⟨38, 41⟩⟩)), ⟨31, 41⟩⟩,
      ⟨.eval (.ref (.constant .unit) true), ⟨42, 44⟩⟩,
      ⟨.eval (.closure none [.binding ⟨2, none, ⟨46, 50⟩⟩, .field ⟨0, none, ⟨52, 55⟩⟩ "size"]),
        ⟨45, 60⟩⟩,
      ⟨.send (.binding ⟨1, none, ⟨61, 65⟩⟩) (.field ⟨2, none, ⟨67, 71⟩⟩ "job"), ⟨61, 75⟩⟩,
      ⟨.suspend .await [.binding ⟨7, none, ⟨76, 77⟩⟩, .binding ⟨1, none, ⟨78, 82⟩⟩], ⟨76, 83⟩⟩],
      some ⟨.ret (some (.binding ⟨2, some .move, ⟨85, 89⟩⟩)), ⟨84, 90⟩⟩⟩,
    ⟨1, 0, [], some ⟨.branch (.field ⟨0, none, ⟨91, 94⟩⟩ "ready") 1 0, ⟨91, 98⟩⟩⟩]
  regions := [⟨0, .body, none, none, ⟨0, 99⟩⟩]
  allocations := []
  isAsync := true

/-- All twelve references are recorded, the value of the stored field before the field itself, and
the binding that is not declared has no entry. -/
theorem manyForms_recorded : manyForms.Numbered ∧
    manyForms.usage.uses.map Use.written = manyForms.references ∧
    manyForms.references.map (fun r => r.2.binding) = [0, 1, 0, 2, 2, 0, 1, 2, 7, 1, 2, 0] ∧
    manyForms.usage.byBinding = [[0, 2, 5, 11], [1, 6, 9], [3, 4, 7, 10]] ∧
    Positions [3, 4, 7, 10] manyForms.references (fun r => r.2.binding = 2) ∧
    manyForms.usage.usesOf 7 = [] ∧
    Positions [2, 3] manyForms.references (fun r => r.1 = ⟨0, 1⟩) ∧
    manyForms.usage.definitionAt ⟨0, 0⟩ = some 2 := by
  have hids : manyForms.Numbered := rfl
  obtain ⟨-, hwritten, -, hbinding, hundeclared, hpoint, hdefined⟩ :=
    every_reference_recorded_once manyForms hids
  exact ⟨hids, hwritten, rfl, rfl, (hbinding 2 (by decide)).2, hundeclared 7 (by decide),
    (hpoint ⟨0, 1⟩).2, (hdefined _ _).mpr ⟨_, _, _, rfl, rfl⟩⟩

end Func

end Tenure

import Tenure.Proofs.Ir.Mentions
import Tenure.Proofs.Liveness.Paths

/-!
# Liveness and the text of the program

What is recorded as used and defined at a point is what the step there reads and initialises. So
liveness, which is computed from the records, says which bindings a path through the program text
reads before it initialises them, at every point of every block, also of those that control never
comes to (`liveness_exact`).
-/

namespace Tenure.Func

open Relation

variable {f : Func} {l : Liveness} {p : Point} {x : BindingId}

/-- The step at the point reads the binding, or writes a field of it. -/
def ReadAt (f : Func) (p : Point) (x : BindingId) : Prop :=
  ∃ step, f.step? p = some step ∧ x ∈ step.reads

/-- The step at the point initialises the binding. -/
def InitialisedAt (f : Func) (p : Point) (x : BindingId) : Prop :=
  ∃ step, f.step? p = some step ∧ step.dest? = some x

/-- Some path from the point comes to a step that reads the binding, and no step before that one
initialises it. -/
def ReadLater (f : Func) (p : Point) (x : BindingId) : Prop :=
  ∃ q, ReflTransGen (fun r r' => ¬ f.InitialisedAt r x ∧ f.Next r r') p q ∧ f.ReadAt q x

/-- The live bindings at the entries of the blocks after this many sweeps. -/
def liveAfter (f : Func) (blocks : List LiveBlock) (sweeps : Nat) : List BindingSet :=
  (liveSweep f.usage f.bindings.length blocks)^[sweeps]
    (List.replicate f.blocks.length (.empty f.bindings.length))

/-! ## Records and text -/

theorem used_iff_readAt (hf : f.Valid) :
    (∃ u ∈ f.usage.usesAt p, u.binding = x) ↔ f.ReadAt p x := by
  cases hstep : f.step? p with
  | none =>
    refine iff_of_false ?_ ?_
    · rintro ⟨u, hu, -⟩
      obtain ⟨hmem, hpoint⟩ := mem_usesAt.mp hu
      obtain ⟨step, hsome⟩ := step?_of_mem_uses hf hmem
      rw [hpoint, hstep] at hsome
      cases hsome
    · rintro ⟨step, hsome, -⟩
      cases hstep.symm.trans hsome
  | some step =>
    have hbindings : (f.usage.usesAt p).map (fun u => u.binding) = step.reads := by
      rw [← step.map_binding_accesses, ← map_toAccess_usesAt hf hstep, List.map_map]
      rfl
    have hread : f.ReadAt p x ↔ x ∈ step.reads := by
      constructor
      · rintro ⟨other, hother, hx⟩
        exact Option.some.inj (hstep.symm.trans hother) ▸ hx
      · exact fun hx => ⟨step, hstep, hx⟩
    rw [hread, ← hbindings, List.mem_map]

theorem definitionAt_eq_some_iff (hf : f.Valid) :
    f.usage.definitionAt p = some x ↔ f.InitialisedAt p x := by
  rw [definitionAt_eq hf, Option.bind_eq_some_iff]
  rfl

theorem live_iff_readLater (hf : f.Valid) : f.Live p x ↔ f.ReadLater p x := by
  simp only [Live, ReadLater, ne_eq, definitionAt_eq_some_iff hf, used_iff_readAt hf]

/-! ## Outside of the program -/

/-- Sets are recorded around the points of the function only. -/
theorem mem_pointsOf_of_at? (hf : f.Valid) (h : f.liveness f.usage = .ok l) {around : LivePoint}
    (hat : l.at? p = some around) : p ∈ f.pointsOf p.block := by
  simp only [liveness, bind_eq_ok, pure_eq_ok] at h
  obtain ⟨blocks, hblocks, entries, -, rfl⟩ := h
  have hpoint : around.point = p := by simpa using List.find?_some hat
  have hmem := List.mem_reverse.mp (List.mem_of_find?_eq_some hat)
  obtain ⟨lb, hlb, hmem⟩ := List.mem_flatMap.mp hmem
  obtain ⟨i, hi, rfl⟩ := List.mem_map.mp hmem
  obtain ⟨b, hget⟩ := List.mem_iff_getElem?.mp hlb
  rw [getElem?_liveBlocks hf hblocks, Option.map_eq_some_iff] at hget
  obtain ⟨block, hblock, rfl⟩ := hget
  subst hpoint
  exact (mem_pointsOf hblock).mpr ⟨rfl, Nat.lt_succ_iff.mp (List.mem_range.mp hi)⟩

theorem not_isLive_of_notMem (hf : f.Valid) (h : f.liveness f.usage = .ok l)
    (hp : p ∉ f.pointsOf p.block) : l.isLiveIn p x = false ∧ l.isLiveOut p x = false := by
  have hnone : l.at? p = none := by
    cases hat : l.at? p with
    | none => rfl
    | some around => exact absurd (mem_pointsOf_of_at? hf h hat) hp
  simp [Liveness.isLiveIn, Liveness.liveIn, Liveness.isLiveOut, Liveness.liveOut, hnone]

/-! ## At every point -/

theorem isLiveIn_iff_readLater (hf : f.Valid) (h : f.liveness f.usage = .ok l) :
    l.isLiveIn p x = true ↔ f.ReadLater p x := by
  by_cases hp : p ∈ f.pointsOf p.block
  · exact (isLiveIn_iff_live hf h hp).trans (live_iff_readLater hf)
  -- where there is no point there is no step to read, and none to go on to
  refine iff_of_false (by simp [not_isLive_of_notMem hf h hp]) ?_
  rintro ⟨q, hpath, step, hstep, -⟩
  rcases hpath.cases_head with rfl | ⟨r, ⟨-, hnext⟩, -⟩
  · exact hp (exists_step?_iff.mp ⟨step, hstep⟩)
  · exact hp (hnext.mem_pointsOf hf).1

theorem isLiveOut_iff_next (hf : f.Valid) (h : f.liveness f.usage = .ok l) :
    l.isLiveOut p x = true ↔ ∃ block, f.blocks[p.block]? = some block ∧
      (p.index < block.statements.length ∧ l.isLiveIn ⟨p.block, p.index + 1⟩ x = true ∨
        p.index = block.statements.length ∧ ∃ c ∈ block.successors, l.isLiveIn ⟨c, 0⟩ x = true) := by
  by_cases hp : p ∈ f.pointsOf p.block
  · obtain ⟨step, hstep⟩ := exists_step?_iff.mpr hp
    obtain ⟨block, hb, -⟩ := step?_eq_some.mp hstep
    simp only [isLiveOut_iff hf h hp, hb, Option.some.injEq, exists_eq_left']
    constructor
    · rintro ⟨q, hnext, hlive⟩
      rcases (next_iff hb).mp hnext with ⟨hlt, rfl⟩ | ⟨hlast, c, hc, rfl⟩
      · exact .inl ⟨hlt, hlive⟩
      · exact .inr ⟨hlast, c, hc, hlive⟩
    · rintro (⟨hlt, hlive⟩ | ⟨hlast, c, hc, hlive⟩)
      · exact ⟨_, (next_iff hb).mpr (.inl ⟨hlt, rfl⟩), hlive⟩
      · exact ⟨_, (next_iff hb).mpr (.inr ⟨hlast, c, hc, rfl⟩), hlive⟩
  · refine iff_of_false (by simp [not_isLive_of_notMem hf h hp]) ?_
    rintro ⟨block, hb, hindex⟩
    refine hp ((mem_pointsOf hb).mpr ⟨rfl, ?_⟩)
    rcases hindex with ⟨hlt, -⟩ | ⟨hlast, -⟩
    · exact Nat.le_of_lt hlt
    · exact Nat.le_of_eq hlast

/-- The sweeps of liveness come to an end. -/
theorem liveAfter_settles (h : f.liveness f.usage = .ok l) :
    ∃ blocks n, f.liveBlocks = .ok blocks ∧ f.liveAfter blocks (n + 1) = f.liveAfter blocks n := by
  simp only [liveness, bind_eq_ok] at h
  obtain ⟨blocks, hblocks, entries, hentries, -⟩ := h
  obtain ⟨hfixed, n, hn⟩ := Graph.settle_spec (settled_eq_ok.mp hentries)
  refine ⟨blocks, n, hblocks, ?_⟩
  rw [liveAfter, Function.iterate_succ_apply', liveAfter, ← hn, hfixed]

/-- Liveness of an accepted function comes to an end and is exact. A binding is live before a point
if and only if some path from there reads it before any step initialises it. It is live after a point
if and only if it is live before the next point of the block, or, at the terminator, before the first
point of a successor. -/
theorem liveness_exact (f : Func) (hvalid : f.validate = .ok ()) :
    ∃ l, f.liveness f.usage = .ok l ∧
      (∃ blocks n, f.liveBlocks = .ok blocks ∧
        f.liveAfter blocks (n + 1) = f.liveAfter blocks n) ∧
      ∀ (p : Point) (x : BindingId),
        (l.isLiveIn p x = true ↔ f.ReadLater p x) ∧
        (l.isLiveOut p x = true ↔ ∃ block, f.blocks[p.block]? = some block ∧
          (p.index < block.statements.length ∧ l.isLiveIn ⟨p.block, p.index + 1⟩ x = true ∨
            p.index = block.statements.length ∧
              ∃ c ∈ block.successors, l.isLiveIn ⟨c, 0⟩ x = true)) := by
  have hf := valid_of_validate hvalid
  obtain ⟨l, hl⟩ := liveness_isOk hf
  exact ⟨l, hl, liveAfter_settles hl,
    fun p x => ⟨isLiveIn_iff_readLater hf hl, isLiveOut_iff_next hf hl⟩⟩

/-- Block 0 makes `item`, and the loop of blocks 1 and 2 reads it in every round. Block 4 reads it
too, but control never comes there. -/
def roundReader : Func where
  id := 0
  name := "f"
  span := ⟨0, 80⟩
  params := [0]
  bindings := [⟨"more", .bool, .param, 0, none, ⟨2, 6⟩⟩,
    ⟨"item", .named "Data", .letBound, 0, none, ⟨10, 14⟩⟩]
  blocks := [
    ⟨0, 0, [⟨.assign 1 (.alloc 0 []), ⟨10, 20⟩⟩], some ⟨.goto 1, ⟨21, 22⟩⟩⟩,
    ⟨1, 0, [], some ⟨.branch (.binding ⟨0, none, ⟨30, 34⟩⟩) 2 3, ⟨29, 35⟩⟩⟩,
    ⟨2, 0, [⟨.eval (.use (.field ⟨1, none, ⟨40, 44⟩⟩ "size")), ⟨40, 50⟩⟩], some ⟨.goto 1, ⟨51, 52⟩⟩⟩,
    ⟨3, 0, [], some ⟨.ret none, ⟨60, 66⟩⟩⟩,
    ⟨4, 0, [], some ⟨.ret (some (.binding ⟨1, none, ⟨70, 74⟩⟩)), ⟨68, 76⟩⟩⟩]
  regions := [⟨0, .body, none, none, ⟨0, 80⟩⟩]
  allocations := [⟨15, 20⟩]
  isAsync := false

/-- The loop keeps `item` live from the end of a round to the next, and dead code keeps it live in
the same way. It is dead before the step that makes it. -/
theorem roundReader_liveness : roundReader.validate = .ok () ∧
    ∃ l, roundReader.liveness roundReader.usage = .ok l ∧ l.isLiveOut ⟨2, 1⟩ 1 = true ∧
      l.isLiveIn ⟨4, 0⟩ 1 = true ∧ ¬ l.isLiveIn ⟨0, 0⟩ 1 = true := by
  have hvalid : roundReader.validate = .ok () := by decide
  obtain ⟨l, hl, -, hexact⟩ := liveness_exact roundReader hvalid
  refine ⟨hvalid, l, hl, (hexact _ _).2.mpr ?_, (hexact _ _).1.mpr ?_, fun hlive => ?_⟩
  · -- over the back edge and the branch to the read in block 2
    refine ⟨_, rfl, .inr ⟨rfl, 1, by decide, (hexact _ _).1.mpr ⟨⟨2, 0⟩, .single ⟨?_, ?_⟩, ?_⟩⟩⟩
    · rintro ⟨step, hstep, hdest⟩
      cases hstep
      cases hdest
    · have hbranch : roundReader.blocks[1]? = some _ := rfl
      exact (next_iff hbranch).mpr (.inr ⟨rfl, 2, by decide, rfl⟩)
    · exact ⟨_, rfl, by decide⟩
  · exact ⟨_, .refl, _, rfl, by decide⟩
  · obtain ⟨q, hpath, hread⟩ := (hexact _ _).1.mp hlive
    rcases hpath.cases_head with rfl | ⟨r, ⟨hkeep, -⟩, -⟩
    · obtain ⟨step, hstep, hmem⟩ := hread
      cases hstep
      exact absurd hmem (by decide)
    · exact hkeep ⟨_, rfl, rfl⟩

end Tenure.Func

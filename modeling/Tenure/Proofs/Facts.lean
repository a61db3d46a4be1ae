import Tenure.Facts
import Tenure.Proofs.Liveness
import Tenure.Proofs.Solution

/-!
# The facts about a valid function

For a valid function all analyses before the checks have a result (`Environment.facts_isOk`), and
`Facts.Of` says how its parts hang together. The uses of the solution are told apart by their ids,
stand in the order of their ids, and always need some privilege.
-/

namespace Tenure

variable {env : Environment} {f : Func}

/-! ## Modes of uses -/

theorem Mode.glb_ne_unused {m n : Mode} (hm : m ≠ .unused) (hn : n ≠ .unused) :
    m.glb n ≠ .unused := by
  rw [Mode.glb]
  split <;> assumption

theorem Environment.wholeMode_ne_unused (env : Environment) (a : Access) (decl : Binding) :
    env.wholeMode a decl ≠ .unused := by
  have hparam : ∀ slot, env.paramMode slot ≠ .unused := by
    intro slot
    cases slot with
    | none => simp [Environment.paramMode]
    | some slot =>
      intro h
      have hrank := congrArg Mode.rank h
      rw [Environment.paramMode, Mode.rank_lub] at hrank
      simp [Mode.rank] at hrank
  have hsuspension : env.suspensionMode decl ≠ .unused := by
    rw [Environment.suspensionMode]
    split
    · simp
    · simp
    · split <;> simp
  rw [Environment.wholeMode]
  cases a.kind with
  | read => simp
  | fieldWrite => simp
  | receiver => exact hparam _
  | argument => exact hparam _
  | returned => simp
  | capture => exact hparam _
  | suspended => exact hsuspension
  | reference isMutable => cases isMutable <;> simp

/-- Every use needs at least to read its binding. -/
theorem Environment.resolvedMode_ne_unused (env : Environment) (a : Access) (decl : Binding) :
    env.resolvedMode a decl ≠ .unused := by
  rw [Environment.resolvedMode]
  split
  next keyword _ => cases keyword <;> simp [Mode.ofKeyword]
  next =>
    rw [Environment.requiredMode]
    have hbase : (if a.field.isSome then (env.wholeMode a decl).glb .mutableBorrow
        else env.wholeMode a decl) ≠ .unused := by
      split
      · exact Mode.glb_ne_unused (env.wholeMode_ne_unused a decl) (by simp)
      · exact env.wholeMode_ne_unused a decl
    by_cases hcopy : (decl.ty.isCopy && decide ((if a.field.isSome then
        (env.wholeMode a decl).glb .mutableBorrow else env.wholeMode a decl) = .moved)) = true
    · simp [hcopy]
    · simpa [hcopy] using hbase

/-! ## The parts of the facts -/

/-- The facts are those of the function `f` in the environment `env`. -/
structure Facts.Of (env : Environment) (f : Func) (facts : Facts) : Prop where
  func : facts.func = f
  usage : facts.usage = f.usage
  solved : env.Solved f facts.solution
  liveness : f.liveness f.usage = .ok facts.liveness

theorem Environment.of_facts {facts : Facts} (h : env.facts f = .ok facts) : facts.Of env f := by
  simp only [Environment.facts, bind_eq_ok, pure_eq_ok] at h
  obtain ⟨liveness, hliveness, solution, hsolution, rfl⟩ := h
  exact ⟨rfl, rfl, Environment.solved_of_solve hsolution, hliveness⟩

theorem Environment.solve_of_facts {facts : Facts} (h : env.facts f = .ok facts) :
    env.solve f f.usage = .ok facts.solution := by
  simp only [Environment.facts, bind_eq_ok, pure_eq_ok] at h
  obtain ⟨-, -, solution, hsolution, rfl⟩ := h
  exact hsolution

/-- A valid function has facts. -/
theorem Environment.facts_isOk (env : Environment) (hf : f.Valid) :
    ∃ facts, env.facts f = .ok facts := by
  obtain ⟨liveness, hliveness⟩ := Func.liveness_isOk hf
  obtain ⟨solution, hsolution⟩ := env.solve_isOk hf
  simp only [Environment.facts, bind_eq_ok, pure_eq_ok]
  exact ⟨_, liveness, hliveness, solution, hsolution, rfl⟩

/-- A function that the program accepts has facts. -/
theorem Environment.facts_of_validateFunction (h : env.program.validateFunction f = .ok ()) :
    f.validate = .ok () ∧ ∃ facts, env.facts f = .ok facts ∧ facts.Of env f := by
  have hvalid : f.validate = .ok () := (Check.bind_eq_ok.mp h).1
  obtain ⟨facts, hfacts⟩ := env.facts_isOk (Func.valid_of_validate hvalid)
  exact ⟨hvalid, facts, hfacts, of_facts hfacts⟩

/-! ## Uses of a solution -/

namespace Environment.Solved

variable {s : Solution} (h : env.Solved f s)
include h

theorem mem_usage {u : SolvedUse} (hu : u ∈ s.uses) : u.toUse ∈ f.usage.uses := by
  rw [← h.uses]
  exact List.mem_map_of_mem hu

theorem ids : s.uses.map (·.id) = List.range s.uses.length := by
  have hids := f.usage_ids
  rw [← h.uses, List.map_map, List.length_map] at hids
  exact hids

/-- Uses stand in the order of their ids. -/
theorem uses_sorted : s.uses.Pairwise fun u v => u.id < v.id := by
  have hsorted : (s.uses.map (·.id)).Pairwise (· < ·) := by
    rw [h.ids]
    exact List.pairwise_lt_range
  exact List.pairwise_map.mp hsorted

theorem usesAt_sorted (p : Point) : (s.usesAt p).Pairwise fun u v => u.id < v.id :=
  h.uses_sorted.filter _

theorem eq_of_id_eq {u v : SolvedUse} (hu : u ∈ s.uses) (hv : v ∈ s.uses) (hid : u.id = v.id) :
    u = v := by
  have hnodup : (s.uses.map (·.id)).Nodup := by
    rw [h.ids]
    exact List.nodup_range
  exact List.inj_on_of_nodup_map hnodup hu hv hid

theorem map_toUse_usesAt (p : Point) : (s.usesAt p).map SolvedUse.toUse = f.usage.usesAt p := by
  rw [Func.usesAt_eq_filter, ← h.uses, List.filter_map]
  rfl

theorem map_toAccess_usesAt (hf : f.Valid) {p : Point} {step : Step}
    (hstep : f.step? p = some step) : (s.usesAt p).map (·.toAccess) = step.accesses := by
  rw [← Func.map_toAccess_usesAt hf hstep, ← h.map_toUse_usesAt, List.map_map]
  rfl

/-- A use is one of the accesses at its point. -/
theorem mem_accesses (hf : f.Valid) {p : Point} {step : Step} (hstep : f.step? p = some step)
    {u : SolvedUse} (hu : u ∈ s.usesAt p) : u.toAccess ∈ step.accesses := by
  rw [← h.map_toAccess_usesAt hf hstep]
  exact List.mem_map.mpr ⟨u, hu, rfl⟩

theorem binding_lt (hf : f.Valid) {u : SolvedUse} (hu : u ∈ s.uses) :
    u.binding < f.bindings.length :=
  Func.use_binding_lt hf (h.mem_usage hu)

theorem resolved_ne_unused {u : SolvedUse} (hu : u ∈ s.uses) : u.resolved ≠ .unused := by
  rw [h.resolved u hu]
  exact env.resolvedMode_ne_unused _ _

theorem reachable_spec {order : List BlockId} (horder : f.reversePostorder = .ok order)
    (ht : f.Traversal order) : s.reachable.Nodup ∧ ∀ b, b ∈ s.reachable ↔ b ∈ order := by
  obtain ⟨blocks, hblocks, hspec⟩ := Func.reachable_spec horder ht
  rw [h.reachable] at hblocks
  obtain rfl := Except.ok.inj hblocks
  exact hspec

theorem mem_reachable_iff (hf : f.Valid) {b : BlockId} :
    b ∈ s.reachable ↔ f.Reachable ⟨b, 0⟩ := by
  obtain ⟨order, horder, ht⟩ := Func.reversePostorder_spec hf
  rw [(h.reachable_spec horder ht).2]
  exact ⟨ht.reachable_start, fun hb => (ht.reachable_iff.mp hb).1⟩

/-- A use is in a reachable block exactly if some path leads to its point. -/
theorem isReachable_iff (hf : f.Valid) {u : SolvedUse} (hu : u ∈ s.uses) :
    s.isReachable u.point = true ↔ f.Reachable u.point := by
  obtain ⟨order, horder, ht⟩ := Func.reversePostorder_spec hf
  have hstep := Func.step?_of_mem_uses hf (h.mem_usage hu)
  rw [Solution.isReachable, List.contains_iff_mem, (h.reachable_spec horder ht).2,
    ht.reachable_iff]
  exact ⟨fun hmem => ⟨hmem, Func.exists_step?_iff.mp hstep⟩, And.left⟩

theorem mem_liveUses (hf : f.Valid) {u : SolvedUse} :
    u ∈ s.liveUses ↔ u ∈ s.uses ∧ f.Reachable u.point := by
  rw [Solution.liveUses, List.mem_filter]
  exact and_congr_right fun hu => h.isReachable_iff hf hu

end Environment.Solved

/-- An environment with default settings in which only foreign functions are known. -/
def Environment.ofForeigns (foreigns : List Foreign) : Environment where
  program := { Program.empty "main.vs" with foreigns }
  config := .default
  signature? := fun _ => none

/-- The foreign function `consume` takes its argument by value. -/
def consumingEnv : Environment := .ofForeigns [⟨"consume", [some .move]⟩]

/-- The foreign functions `update` and `inspect` borrow their arguments. -/
def lendingEnv : Environment :=
  .ofForeigns [⟨"update", [some .mutable]⟩, ⟨"inspect", [some .borrow]⟩]

theorem Solution.mem_usesAt {s : Solution} {u : SolvedUse} {p : Point} :
    u ∈ s.usesAt p ↔ u ∈ s.uses ∧ u.point = p := by
  simp [Solution.usesAt]

end Tenure

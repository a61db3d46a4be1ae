import Tenure.Hint
import Tenure.Proofs.Facts
import Tenure.Proofs.Placement.RegionExits
import Tenure.Proofs.Solution.Monotone

/-!
# Parameters that need not be moved

The hint on a parameter declared `move` merges what the operations on it need. Without the keyword
on its declaration the parameter gets what its uses have (`Environment.mode_dropKeyword`), and a
keyword on a use can give it more or less than the operation needs. So dropping the `move` gives the
parameter the mode of the hint exactly if no use asks for more and some use has that mode, and the
parameter is still moved exactly if some use of it is written `move`
(`Facts.dropped_move_gives_needed_iff`).
-/

namespace Tenure

/-! ## Merged modes -/

namespace Mode

variable {m : Mode} {modes : List Mode}

theorem within_moved (m : Mode) : m.within .moved = true := within_iff.mpr m.rank_le_three

theorem eq_lubAll_iff : m = lubAll modes ↔ ∀ k, m.within k = true ↔ ∀ n ∈ modes, n.within k = true := by
  constructor
  · rintro rfl k
    exact lubAll_within_iff
  · intro h
    refine within_antisymm ((h _).mpr (lubAll_within_iff.mp (within_refl _))) ?_
    exact lubAll_within_iff.mpr ((h m).mp (within_refl m))

/-- Modes that differ are ordered, so their least upper bound is one of them. -/
theorem lubAll_eq_unused_or_mem (modes : List Mode) :
    lubAll modes = .unused ∨ lubAll modes ∈ modes := by
  have hfold : ∀ (rest : List Mode) (start : Mode),
      rest.foldl lub start = start ∨ rest.foldl lub start ∈ rest := by
    intro rest
    induction rest with
    | nil => exact fun _ => .inl rfl
    | cons m rest ih =>
      intro start
      rw [List.foldl_cons]
      rcases ih (start.lub m) with h | h
      · rw [h, lub]
        split
        · exact .inr List.mem_cons_self
        · exact .inl rfl
      · exact .inr (List.mem_cons_of_mem m h)
  exact hfold modes .unused

theorem lubAll_eq_iff : lubAll modes = m ↔
    (∀ n ∈ modes, n.within m = true) ∧ (m = .unused ∨ m ∈ modes) := by
  constructor
  · rintro rfl
    exact ⟨lubAll_within_iff.mp (within_refl _), lubAll_eq_unused_or_mem modes⟩
  · rintro ⟨hle, hm⟩
    refine within_antisymm (lubAll_within_iff.mpr hle) ?_
    rcases hm with rfl | hm
    · exact within_iff.mpr (Nat.zero_le _)
    · exact lubAll_within_iff.mp (within_refl _) m hm

end Mode

/-! ## Declarations without a keyword -/

/-- The declaration without its keyword. -/
def Binding.withoutKeyword (decl : Binding) : Binding := { decl with keyword := none }

/-- The function with the keyword removed from one declaration. -/
def Func.dropKeyword (f : Func) (b : BindingId) : Func :=
  { f with bindings := f.bindings.modify b Binding.withoutKeyword }

namespace Func

variable {f : Func} {b : BindingId} {decl : Binding}

theorem bindings_dropKeyword (hdecl : f.bindings[b]? = some decl) :
    (f.dropKeyword b).bindings[b]? = some decl.withoutKeyword := by
  rw [dropKeyword, List.getElem?_modify_eq, hdecl]
  rfl

theorem length_bindings_dropKeyword (f : Func) (b : BindingId) :
    (f.dropKeyword b).bindings.length = f.bindings.length := List.length_modify _ _ _

theorem dropKeyword_valid (hf : f.Valid) (b : BindingId) : (f.dropKeyword b).Valid where
  nonempty := hf.nonempty
  id_eq := hf.id_eq
  successor_lt := hf.successor_lt
  access_lt hblock step hstep a ha :=
    (f.length_bindings_dropKeyword b).symm ▸ hf.access_lt hblock step hstep a ha
  dest_lt hblock _ _ _ hmem := (f.length_bindings_dropKeyword b).symm ▸ hf.dest_lt hblock hmem
  param_lt p hp := (f.length_bindings_dropKeyword b).symm ▸ hf.param_lt p hp

/-- The text of the body stays. -/
theorem usage_dropKeyword (f : Func) (b : BindingId) : (f.dropKeyword b).usage = f.usage := by
  rw [usage, length_bindings_dropKeyword]
  rfl

theorem liveUse_dropKeyword {c : BindingId} {x : Use} :
    (f.dropKeyword b).LiveUse c x ↔ f.LiveUse c x := by
  have husage := f.usage_dropKeyword b
  exact ⟨fun h => ⟨husage ▸ h.use, h.binding, h.live⟩,
    fun h => ⟨husage.symm ▸ h.use, h.binding, h.live⟩⟩

end Func

namespace Environment

variable {env : Environment} {f : Func} {s s' : Solution} {p : BindingId} {decl : Binding}

theorem Solved.liveUse_iff (h : env.Solved f s) {x : Use} :
    f.LiveUse p x ↔ ∃ u ∈ s.liveUses, u.binding = p ∧ u.toUse = x := by
  simp only [Solution.liveUses, List.mem_filter, Solution.isReachable, List.contains_iff_mem]
  constructor
  · rintro ⟨huse, hbinding, reachable, hreachable, hlive⟩
    obtain rfl := Except.ok.inj (h.reachable.symm.trans hreachable)
    rw [← h.uses] at huse
    obtain ⟨u, hu, rfl⟩ := List.mem_map.mp huse
    exact ⟨u, ⟨hu, hlive⟩, hbinding, rfl⟩
  · rintro ⟨u, ⟨hu, hlive⟩, hbinding, rfl⟩
    exact ⟨h.mem_usage hu, hbinding, s.reachable, h.reachable, hlive⟩

/-- The mode of a parameter stands in the signature, at every position of the parameter. -/
theorem solve_param_mode (h : env.solve f f.usage = .ok s) (hdecl : f.bindings[p]? = some decl)
    (hp : p ∈ f.params) : env.ParamMode f p decl (s.mode p) ∧
      ∀ i : Nat, f.params[i]? = some p → s.signature.param? i = some (s.mode p) := by
  have hentry : ∀ i : Nat, f.params[i]? = some p →
      s.signature.param? i = some (s.mode p) ∧ env.ParamMode f p decl (s.mode p) := by
    intro i hi
    obtain ⟨decl', m, hdecl', hm, hmode⟩ := solve_param h hi
    obtain rfl := Option.some.inj (hdecl.symm.trans hdecl')
    obtain ⟨hlt, hget⟩ := List.getElem?_eq_some_iff.mp hi
    obtain ⟨hlt', hget'⟩ := List.getElem?_eq_some_iff.mp hm
    have hmodes := (List.forall₂_iff_get.mp (solve_signature h).2).2 i hlt hlt'
    rw [List.get_eq_getElem, List.get_eq_getElem, hget, hget'] at hmodes
    have heq : s.mode p = m := by rw [Solution.mode, List.getD_eq_getElem?_getD, hmodes]; rfl
    exact heq ▸ ⟨hm, hmode⟩
  obtain ⟨i, hi⟩ := List.mem_iff_getElem?.mp hp
  exact ⟨(hentry i hi).2, fun i hi => (hentry i hi).1⟩

/-- Without the keyword on its declaration a parameter gets what its live uses have. -/
theorem mode_dropKeyword (hsolved : env.Solved f s)
    (hs' : env.solve (f.dropKeyword p) (f.dropKeyword p).usage = .ok s')
    (hdecl : f.bindings[p]? = some decl) (hp : p ∈ f.params) :
    s'.mode p = Mode.lubAll ((s.liveUses.filter fun u => u.binding = p).map SolvedUse.resolved) := by
  have hmode := (solve_param_mode hs' (Func.bindings_dropKeyword hdecl) hp).1
  rw [Mode.eq_lubAll_iff]
  intro k
  rw [hmode.least rfl k]
  simp only [Func.liveUse_dropKeyword, List.mem_map, List.mem_filter, decide_eq_true_eq,
    forall_exists_index, and_imp]
  -- what a use needs does not depend on the keyword of the declaration
  have hresolved : ∀ u ∈ s.liveUses, u.binding = p →
      u.resolved = env.resolvedMode u.toAccess decl.withoutKeyword := by
    rintro u hu rfl
    have hmem := (List.mem_filter.mp hu).1
    rw [hsolved.resolved u hmem, Option.some.inj ((hsolved.decl u hmem).symm.trans hdecl)]
    rfl
  constructor
  · rintro h _ u hu hbinding rfl
    rw [hresolved u hu hbinding]
    exact h u.toUse (hsolved.liveUse_iff.mpr ⟨u, hu, hbinding, rfl⟩)
  · intro h x hx
    obtain ⟨u, hu, hbinding, rfl⟩ := hsolved.liveUse_iff.mp hx
    rw [← hresolved u hu hbinding]
    exact h _ u hu hbinding rfl

end Environment

/-! ## The hint -/

namespace Facts

variable {env : Environment} {f : Func} {facts : Facts} {p : BindingId} {decl : Binding}
  {needed : Mode}

theorem paramHint?_eq_some {hint : Hint} : facts.paramHint? p decl = some hint ↔
    ∃ needed, hint = .unneededMove decl.name needed decl.span ∧ decl.keyword = some .move ∧
      needed ≠ .moved ∧ needed = Mode.lubAll
        ((facts.solution.liveUses.filter fun u => u.binding = p).map SolvedUse.required) := by
  unfold paramHint?
  dsimp only
  split
  next h =>
    simp only [Bool.and_eq_true, decide_eq_true_eq] at h
    refine ⟨fun heq => ⟨_, (Option.some.inj heq).symm, h.1, h.2, rfl⟩, ?_⟩
    rintro ⟨_, rfl, -, -, rfl⟩
    rfl
  next h =>
    refine ⟨fun heq => absurd heq (by simp), ?_⟩
    rintro ⟨_, rfl, hkeyword, hmoved, rfl⟩
    exact absurd (by simp [hkeyword, hmoved]) h

/-- Hints are given parameter by parameter and then region by region. -/
theorem hints_eq (hf : f.Valid) (h : facts.Of env f) (config : Config) (plan : Plan) :
    facts.hints config plan = .ok (if config.suggestOptimizations then
      f.params.filterMap (fun p => (f.bindings[p]?).bind (facts.paramHint? p)) ++
        f.regions.flatMap (facts.regionHints config plan) else []) := by
  have hparams : f.params.mapM (fun p => do return facts.paramHint? p (← f.binding p)) =
      .ok (f.params.map fun p => (f.bindings[p]?).bind (facts.paramHint? p)) := by
    refine mapM_eq_ok_map fun p hp => ?_
    have hget := List.getElem?_eq_getElem (hf.param_lt p hp)
    rw [Func.binding, lookup_eq_ok.mpr hget, hget, ok_bind]
    rfl
  unfold hints
  split
  next =>
    rw [h.func, hparams, ok_bind, List.filterMap_map]
    rfl
  next => rfl

/-- The hints that a parameter need not be moved are given parameter by parameter. -/
theorem mem_hints_unneededMove (hf : f.Valid) (h : facts.Of env f) (config : Config) (plan : Plan) :
    ∃ hints, facts.hints config plan = .ok hints ∧ ∀ name needed span,
      .unneededMove name needed span ∈ hints ↔ config.suggestOptimizations = true ∧
        ∃ p ∈ f.params, ∃ decl, f.bindings[p]? = some decl ∧
          facts.paramHint? p decl = some (.unneededMove name needed span) := by
  refine ⟨_, hints_eq hf h config plan, fun name needed span => ?_⟩
  have hregions : .unneededMove name needed span ∉
      f.regions.flatMap (facts.regionHints config plan) := by
    simp only [List.mem_flatMap, not_exists, not_and, regionHints]
    intro r _ hmem
    rcases List.mem_append.mp hmem with hmem | hmem <;> split at hmem <;> simp at hmem
  split
  next hsuggest =>
    rw [List.mem_append, or_iff_left hregions]
    simp only [List.mem_filterMap, Option.bind_eq_some_iff, hsuggest, true_and]
  next hsuggest => simp [hsuggest]

section Dropped

variable (hhint : facts.paramHint? p decl = some (.unneededMove decl.name needed decl.span))
include hhint

theorem required_within_needed {u : SolvedUse} (hu : u ∈ facts.solution.liveUses)
    (hbinding : u.binding = p) : needed ≠ .moved ∧ u.required.within needed = true := by
  obtain ⟨needed', heq, -, hmoved, hneeded⟩ := paramHint?_eq_some.mp hhint
  obtain rfl : needed = needed' := by injection heq
  refine ⟨hmoved, (Mode.eq_lubAll_iff.mp hneeded needed).mp (Mode.within_refl _) _ ?_⟩
  exact List.mem_map.mpr ⟨u, List.mem_filter.mpr ⟨hu, decide_eq_true hbinding⟩, rfl⟩

variable (h : facts.Of env f)
include h

/-- A use without a keyword has what its operation needs. -/
theorem resolved_within_needed_iff {u : SolvedUse} (hu : u ∈ facts.solution.liveUses)
    (hbinding : u.binding = p) : u.resolved.within needed = true ↔
      ∀ k, u.keyword = some k → (Mode.ofKeyword k).within needed = true := by
  have hmem := (List.mem_filter.mp hu).1
  have hrequired := (required_within_needed hhint hu hbinding).2
  rw [h.solved.resolved u hmem, Environment.resolvedMode]
  cases hkeyword : u.keyword with
  | none => simpa [← h.solved.required u hmem] using hrequired
  | some k => simp

theorem resolved_eq_moved_iff {u : SolvedUse} (hu : u ∈ facts.solution.liveUses)
    (hbinding : u.binding = p) : u.resolved = .moved ↔ u.keyword = some .move := by
  have hmem := (List.mem_filter.mp hu).1
  obtain ⟨hmoved, hrequired⟩ := required_within_needed hhint hu hbinding
  rw [h.solved.resolved u hmem, Environment.resolvedMode]
  cases hkeyword : u.keyword with
  | none =>
    dsimp only
    rw [← h.solved.required u hmem]
    refine ⟨fun heq => absurd ?_ hmoved, fun heq => by simp at heq⟩
    exact Mode.within_antisymm needed.within_moved (heq ▸ hrequired)
  | some k => cases k <;> simp [Mode.ofKeyword]

end Dropped

/-- The hint that a parameter need not be moved is given for the parameters declared `move` for which
no live use needs a move, and names the least mode that all of them can do with. If the `move` is
dropped, the function still has a solution, and its signature has the mode of the parameter. This is
the mode that the hint names exactly if no keyword on a live use of the parameter asks for more and
some live use has that mode, if there is one at all. The parameter is still moved exactly if one of
its live uses is written `move`. -/
theorem dropped_move_gives_needed_iff (env : Environment) (f : Func)
    (hvalid : f.validate = .ok ()) :
    ∃ facts, env.facts f = .ok facts ∧
      (∀ config plan, ∃ hints, facts.hints config plan = .ok hints ∧ ∀ name needed span,
        .unneededMove name needed span ∈ hints ↔ config.suggestOptimizations = true ∧
          ∃ p ∈ f.params, ∃ decl, f.bindings[p]? = some decl ∧
            facts.paramHint? p decl = some (.unneededMove name needed span)) ∧
      ∀ p ∈ f.params, ∀ decl needed, f.bindings[p]? = some decl →
        facts.paramHint? p decl = some (.unneededMove decl.name needed decl.span) →
        ∃ s, env.solve (f.dropKeyword p) (f.dropKeyword p).usage = .ok s ∧
          (∀ i : Nat, f.params[i]? = some p → s.signature.param? i = some (s.mode p)) ∧
          (s.mode p = needed ↔
            (∀ u ∈ facts.solution.liveUses, u.binding = p → ∀ k, u.keyword = some k →
              (Mode.ofKeyword k).within needed = true) ∧
            (needed = .unused ∨
              ∃ u ∈ facts.solution.liveUses, u.binding = p ∧ u.resolved = needed)) ∧
          (s.mode p = .moved ↔
            ∃ u ∈ facts.solution.liveUses, u.binding = p ∧ u.keyword = some .move) := by
  have hf := Func.valid_of_validate hvalid
  obtain ⟨facts, hfacts⟩ := env.facts_isOk hf
  have h := Environment.of_facts hfacts
  refine ⟨facts, hfacts, mem_hints_unneededMove hf h, ?_⟩
  intro p hp decl needed hdecl hhint
  obtain ⟨s, hs⟩ := env.solve_isOk (Func.dropKeyword_valid hf p)
  have hmode := Environment.mode_dropKeyword h.solved hs hdecl hp
  refine ⟨s, hs, (Environment.solve_param_mode hs (Func.bindings_dropKeyword hdecl) hp).2, ?_, ?_⟩
  · rw [hmode, Mode.lubAll_eq_iff]
    simp only [List.mem_map, List.mem_filter, decide_eq_true_eq, forall_exists_index, and_imp,
      and_assoc]
    refine and_congr_left fun _ => ?_
    constructor
    · intro hle u hu hbinding
      exact (resolved_within_needed_iff hhint h hu hbinding).mp (hle _ u hu hbinding rfl)
    · rintro hle _ u hu hbinding rfl
      exact (resolved_within_needed_iff hhint h hu hbinding).mpr (hle u hu hbinding)
  · rw [hmode, Mode.lubAll_eq_iff]
    simp only [List.mem_map, List.mem_filter, decide_eq_true_eq, Mode.within_moved, implies_true,
      true_and, reduceCtorEq, false_or, and_assoc]
    refine exists_congr fun u => and_congr_right fun hu => and_congr_right fun hbinding => ?_
    exact resolved_eq_moved_iff hhint h hu hbinding

/-- Declares its parameter `move`, and hands it with a `move` to a function that borrows it. -/
def movedTwice : Func where
  id := 0
  name := "f"
  span := ⟨0, 20⟩
  params := [0]
  bindings := [⟨"x", .named "Data", .param, 0, some .move, ⟨1, 2⟩⟩]
  blocks := [
    ⟨0, 0, [⟨.eval (.call (.foreign "inspect") [.binding ⟨0, some .move, ⟨6, 7⟩⟩]), ⟨5, 7⟩⟩],
      some ⟨.ret none, ⟨8, 10⟩⟩⟩]
  regions := [⟨0, .body, none, none, ⟨0, 20⟩⟩]
  allocations := []
  isAsync := false

/-- The hint says that an immutable borrow is enough. Without the `move` on its declaration the
parameter is still moved. -/
theorem movedTwice_still_moved :
    movedTwice.validate = .ok () ∧
    ∃ facts s, inspectingEnv.facts movedTwice = .ok facts ∧
      facts.hints .default ⟨[], [], []⟩ = .ok [.unneededMove "x" .immutableBorrow ⟨1, 2⟩] ∧
      inspectingEnv.solve (movedTwice.dropKeyword 0) (movedTwice.dropKeyword 0).usage = .ok s ∧
      s.mode 0 = .moved ∧ s.signature.param? 0 = some .moved := by
  have hvalid : movedTwice.validate = .ok () := by decide +kernel
  have hrun : (inspectingEnv.facts movedTwice >>= fun facts => do
      return (facts.solution.liveUses.map fun u => (u.binding, u.keyword),
        ← facts.hints .default ⟨[], [], []⟩)) =
      .ok ([(0, some .move)], [.unneededMove "x" .immutableBorrow ⟨1, 2⟩]) := by
    decide +kernel
  obtain ⟨facts, hfacts, hhints, hall⟩ :=
    dropped_move_gives_needed_iff inspectingEnv movedTwice hvalid
  rw [hfacts, ok_bind, bind_eq_ok] at hrun
  obtain ⟨hints, hints_eq, hrun⟩ := hrun
  obtain ⟨huses, rfl⟩ := Prod.mk.inj (pure_eq_ok.mp hrun)
  obtain ⟨_, hints_eq', hmem⟩ := hhints .default ⟨[], [], []⟩
  obtain rfl := Except.ok.inj (hints_eq.symm.trans hints_eq')
  obtain ⟨-, p, hp, decl, hdecl, hhint⟩ := (hmem _ _ _).mp List.mem_cons_self
  obtain rfl := List.mem_singleton.mp hp
  obtain rfl := Option.some.inj hdecl
  obtain ⟨s, hs, hsignature, -, hmoved⟩ := hall 0 hp _ _ hdecl hhint
  obtain ⟨u, hu, hpair⟩ := List.mem_map.mp (huses ▸ List.mem_cons_self)
  obtain ⟨hbinding, hkeyword⟩ := Prod.mk.inj hpair
  have hmode := hmoved.mpr ⟨u, hu, hbinding, hkeyword⟩
  exact ⟨hvalid, facts, s, hfacts, hints_eq, hs, hmode, hmode ▸ hsignature 0 rfl⟩

end Facts

end Tenure

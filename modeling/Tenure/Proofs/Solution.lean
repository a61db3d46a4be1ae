import Tenure.Proofs.Forward.Settling
import Tenure.Proofs.Usage
import Tenure.Solution

/-!
# Solving a valid function

A valid function has a solution (`Environment.solve_isOk`): every use is of a declared binding, and
the running modes settle because paths only raise them. A solution keeps every recorded use and adds
its declaration and its modes (`Environment.Solved`).
-/

namespace Tenure

/-! ## The order of modes -/

namespace Mode

theorem rank_lub (m n : Mode) : (m.lub n).rank = max m.rank n.rank := by
  cases m <;> cases n <;> rfl

theorem rank_le_three (m : Mode) : m.rank ≤ 3 := by
  cases m <;> decide

theorem rank_injective : Function.Injective rank := by
  intro m n h
  cases m <;> cases n <;> simp [rank] at h ⊢

end Mode

/-! ## Running modes -/

section Running

variable {width : Nat} {usage : Usage} {uses : List SolvedUse}

theorem length_foldl_use (us : List SolvedUse) (s : ModeState) :
    (us.foldl ModeState.use s).length = s.length := by
  induction us generalizing s with
  | nil => rfl
  | cons u us ih => rw [List.foldl_cons, ih, ModeState.use, List.length_modify]

theorem runningModes_shaped (width : Nat) (usage : Usage) (uses : List SolvedUse) :
    (runningModes width usage uses).Shaped fun s => s.length = width where
  start := by simp [runningModes]
  join hs ht := by simp [runningModes, hs, ht]
  step {p s} hs := by
    simp only [runningModes]
    split
    · rw [List.length_set, length_foldl_use, hs]
    · rw [length_foldl_use, hs]

/-- After some uses a binding has reached a level exactly if it had before or a use raises it. -/
theorem le_rank_foldl_use (us : List SolvedUse) {s : ModeState} {b : BindingId} (hb : b < s.length)
    (level : Nat) :
    level ≤ ((us.foldl ModeState.use s).getD b .unused).rank ↔
      (∃ u ∈ us, u.binding = b ∧ level ≤ u.resolved.rank) ∨ level ≤ (s.getD b .unused).rank := by
  induction us generalizing s with
  | nil => simp
  | cons u us ih =>
    have hlen : b < (s.use u).length := by rw [ModeState.use, List.length_modify]; exact hb
    rw [List.foldl_cons, ih hlen, ModeState.use]
    by_cases hub : u.binding = b
    · subst hub
      rw [Table.getD_modify_self hb, Mode.rank_lub, le_max_iff]
      simp only [List.mem_cons, exists_eq_or_imp, true_and]
      rw [or_comm (a := level ≤ (s.getD u.binding .unused).rank), ← or_assoc,
        or_comm (b := level ≤ u.resolved.rank)]
    · rw [Table.getD_modify_ne hub]
      simp [hub]

/-- The running mode of a binding has reached a level exactly if a use on the way has raised it and
no definition came after. -/
theorem runningModes_tracks {b : BindingId} (hb : b < width) {level : Nat} (hlevel : 0 < level) :
    (runningModes width usage uses).Tracks (fun s => s.length = width)
      (fun s => level ≤ (s.getD b .unused).rank)
      (fun p => usage.definitionAt p ≠ some b ∧
        ∃ u ∈ uses, u.point = p ∧ u.binding = b ∧ level ≤ u.resolved.rank)
      (fun p => usage.definitionAt p ≠ some b) where
  start := by
    simp only [runningModes, Table.getD_replicate, Mode.rank]
    omega
  join {s t} hs ht := by
    simp only [runningModes]
    rw [Table.getD_zipWith (hs.trans ht.symm) rfl, Mode.rank_lub, le_max_iff]
  step {p s} hs := by
    have hused := le_rank_foldl_use (uses.filter fun x => x.point = p) (hs ▸ hb) level
    have hlen := length_foldl_use (uses.filter fun x => x.point = p) s
    simp only [runningModes]
    cases hdef : usage.definitionAt p with
    | none =>
      simp only [hused]
      simp [and_assoc]
    | some c =>
      by_cases hcb : c = b
      · subst hcb
        rw [Table.getD_set_self (by rw [hlen, hs]; exact hb)]
        simp [Mode.rank]
        omega
      · rw [Table.getD_set_ne hcb, hused]
        simp [hcb, and_assoc]

private theorem three_mul_le_four_pow (n : Nat) : n * 3 ≤ 4 ^ n := by
  induction n with
  | zero => decide
  | succ n ih =>
    have hpos : 0 < 4 ^ n := Nat.pow_pos (by decide)
    rw [Nat.pow_succ]
    omega

/-- The running modes settle. -/
theorem runningModes_exits_isOk (f : Func) (order : List BlockId) (usage : Usage)
    (uses : List SolvedUse) (width : Nat) :
    ∃ exits, (runningModes width usage uses).exits f order (Nat.pow 4 width) = .ok exits := by
  -- a mode is told by which of three levels it has reached, so there are three facts a binding
  refine Forward.exits_isOk ((Finset.range width) ×ˢ (Finset.range 3))
    (fun k s => k.2 + 1 ≤ (s.getD k.1 .unused).rank) (runningModes_shaped width usage uses)
    (fun k hk => runningModes_tracks (Finset.mem_range.mp (Finset.mem_product.mp hk).1)
      (Nat.succ_pos _)) ?_ ?_
  · intro s t hs ht hiff
    refine Table.ext_getD (hs.trans ht.symm) .unused fun b hb => Mode.rank_injective ?_
    have hlevel : ∀ k < 3, (k + 1 ≤ (s.getD b .unused).rank ↔ k + 1 ≤ (t.getD b .unused).rank) :=
      fun k hk => hiff (b, k) (Finset.mk_mem_product (Finset.mem_range.mpr (hs ▸ hb))
        (Finset.mem_range.mpr hk))
    have hs3 := Mode.rank_le_three (s.getD b .unused)
    have ht3 := Mode.rank_le_three (t.getD b .unused)
    have h0 := hlevel 0 (by decide)
    have h1 := hlevel 1 (by decide)
    have h2 := hlevel 2 (by decide)
    omega
  · rw [Finset.card_product, Finset.card_range, Finset.card_range, ← Nat.mul_assoc]
    calc f.blocks.length * width * 3 ≤ 4 ^ (f.blocks.length * width) := three_mul_le_four_pow _
      _ = (4 ^ width) ^ f.blocks.length := by rw [← Nat.pow_mul, Nat.mul_comm]

end Running

/-! ## Solutions -/

namespace Environment

variable {env : Environment} {f : Func} {s : Solution}

/-- What a solution says about the uses of a function. -/
structure Solved (env : Environment) (f : Func) (s : Solution) : Prop where
  uses : s.uses.map SolvedUse.toUse = f.usage.uses
  reachable : f.reachable = .ok s.reachable
  decl : ∀ u ∈ s.uses, f.bindings[u.binding]? = some u.decl
  required : ∀ u ∈ s.uses, u.required = env.requiredMode u.toAccess u.decl
  resolved : ∀ u ∈ s.uses, u.resolved = env.resolvedMode u.toAccess u.decl

theorem solveUse_eq_ok {u : Use} {x : SolvedUse} (h : env.solveUse f u = .ok x) :
    x.toUse = u ∧ f.bindings[x.binding]? = some x.decl ∧
      x.required = env.requiredMode x.toAccess x.decl ∧
      x.resolved = env.resolvedMode x.toAccess x.decl := by
  rw [solveUse, bind_eq_ok] at h
  obtain ⟨decl, hdecl, h⟩ := h
  obtain rfl := pure_eq_ok.mp h
  exact ⟨rfl, lookup_eq_ok.mp hdecl, rfl, rfl⟩

/-- Entering the running modes changes nothing else. -/
theorem enterRunning_eq (uses : List SolvedUse) (entries : List (UseId × Mode)) :
    ∃ running : SolvedUse → Mode,
      enterRunning uses entries = uses.map fun x => { x with running := running x } := by
  refine ⟨fun x => ((entries.find? fun entry => entry.1 = x.id).map Prod.snd).getD x.running, ?_⟩
  refine List.map_congr_left fun x _ => ?_
  beta_reduce
  cases entries.find? fun entry => entry.1 = x.id with
  | none => rfl
  | some entry => rfl

theorem annotateRunning_eq_ok {usage : Usage} {uses annotated : List SolvedUse}
    (h : annotateRunning f usage uses = .ok annotated) :
    ∃ order exits, f.reversePostorder = .ok order ∧
      (runningModes f.bindings.length usage uses).exits f order (Nat.pow 4 f.bindings.length) =
        .ok exits ∧
      annotated = enterRunning uses (runningEntries f usage uses order exits) := by
  simp only [annotateRunning, bind_eq_ok, pure_eq_ok] at h
  obtain ⟨order, horder, _, _, exits, hexits, rfl⟩ := h
  exact ⟨order, exits, horder, hexits, rfl⟩

/-- Solved uses of a function make a solution, whatever running modes are entered. -/
theorem solved_of_uses {uses : List SolvedUse} (hreachable : f.reachable = .ok s.reachable)
    (huses : f.usage.uses.mapM (env.solveUse f) = .ok uses) {entries : List (UseId × Mode)}
    (hs : s.uses = enterRunning uses entries) : env.Solved f s := by
  obtain ⟨running, hrunning⟩ := enterRunning_eq uses entries
  rw [hrunning] at hs
  have hspec : ∀ y ∈ s.uses, f.bindings[y.binding]? = some y.decl ∧
      y.required = env.requiredMode y.toAccess y.decl ∧
      y.resolved = env.resolvedMode y.toAccess y.decl := by
    intro y hy
    rw [hs] at hy
    obtain ⟨x, hx, rfl⟩ := List.mem_map.mp hy
    obtain ⟨u, -, hu⟩ := mem_of_mapM_eq_ok huses hx
    exact (solveUse_eq_ok hu).2
  refine ⟨?_, hreachable, fun y hy => (hspec y hy).1, fun y hy => (hspec y hy).2.1,
    fun y hy => (hspec y hy).2.2⟩
  have hmap : uses.map SolvedUse.toUse = f.usage.uses.map id :=
    map_of_mapM_eq_ok huses fun u _ x hu => (solveUse_eq_ok hu).1
  rw [hs, List.map_map]
  exact hmap.trans (List.map_id _)

theorem solved_of_solve (h : env.solve f f.usage = .ok s) : env.Solved f s := by
  simp only [solve, bind_eq_ok, pure_eq_ok] at h
  obtain ⟨reachable, hreachable, uses, huses, annotated, hannotated, params, _, rfl⟩ := h
  obtain ⟨order, exits, -, -, heq⟩ := annotateRunning_eq_ok hannotated
  exact solved_of_uses hreachable huses heq

/-- A valid function has a solution. -/
theorem solve_isOk (env : Environment) (hf : f.Valid) : ∃ s, env.solve f f.usage = .ok s := by
  obtain ⟨order, horder, ht⟩ := Func.reversePostorder_spec hf
  obtain ⟨reachable, hreachable, _⟩ := Func.reachable_spec horder ht
  have hbinding : ∀ b, b < f.bindings.length → f.binding b = .ok f.bindings[b]! := by
    intro b hb
    rw [Func.binding, lookup_eq_ok, List.getElem!_eq_getElem?_getD, List.getElem?_eq_getElem hb]
    rfl
  obtain ⟨uses, huses⟩ := mapM_isOk (g := env.solveUse f) (l := f.usage.uses) fun u hu => by
    simp only [solveUse, bind_eq_ok, pure_eq_ok]
    exact ⟨_, _, hbinding _ (Func.use_binding_lt hf hu), rfl⟩
  have hdefs : f.checkDefinitions f.usage order = .ok () := by
    refine forM_eq_ok.mpr fun b hb => ?_
    obtain ⟨p, _, hp⟩ := List.mem_filterMap.mp hb
    rw [hbinding b (Func.definitionAt_lt hf hp)]
    rfl
  obtain ⟨exits, hexits⟩ := runningModes_exits_isOk f order f.usage uses f.bindings.length
  have hannotated : ∃ annotated, annotateRunning f f.usage uses = .ok annotated := by
    simp only [annotateRunning, bind_eq_ok, pure_eq_ok]
    exact ⟨_, order, horder, (), hdefs, exits, hexits, rfl⟩
  obtain ⟨annotated, hannotated⟩ := hannotated
  simp only [solve, bind_eq_ok, pure_eq_ok]
  -- what is left to look up are the modes of the parameters, which are among the bindings
  generalize hmodes : (f.bindings.zipIdx.map fun x =>
    bindingMode (uses.filter fun x => reachable.contains x.point.block) x.2 x.1) = modes
  obtain ⟨params, hparams⟩ := mapM_isOk (g := fun p => lookup modes p (.noBinding p))
    (l := f.params) fun p hp => by
      have hlt : p < modes.length := by simpa [← hmodes] using hf.param_lt p hp
      exact ⟨_, lookup_eq_ok.mpr (List.getElem?_eq_getElem hlt)⟩
  exact ⟨_, reachable, hreachable, uses, huses, annotated, hannotated, params, hmodes ▸ hparams, rfl⟩

end Environment

end Tenure

import Tenure.Proofs.Facts
import Tenure.Proofs.Liveness.Exact

/-!
# Running modes and paths

The running mode of a use is made by sweeps that merge what comes in at a join. It says what has
happened to the binding on the paths up to the use: it is the least mode that grants what every use
needs that is evaluated before it at its step, or from which a path leads to it without initialising
the binding (`running_merges_paths`). The running modes entered at one point are taken apart first
(`mem_annotateAt`); what comes in there from other points is a matter of tracked facts.
-/

namespace Tenure

open Relation

/-- `m` is the least mode that grants all that is needed. -/
def Mode.IsMergeOf (m : Mode) (needed : Mode → Prop) : Prop :=
  ∀ k, m.within k = true ↔ ∀ n, needed n → n.within k = true

/-- A mode is a merge if it has reached exactly the levels that something needed has. -/
theorem Mode.isMergeOf_of_levels {m : Mode} {needed : Mode → Prop}
    (h : ∀ level, 0 < level → (level ≤ m.rank ↔ ∃ n, needed n ∧ level ≤ n.rank)) :
    m.IsMergeOf needed := by
  intro k
  simp only [Mode.within, decide_eq_true_eq]
  constructor
  · intro hm n hn
    rcases Nat.eq_zero_or_pos n.rank with hzero | hpos
    · exact hzero ▸ Nat.zero_le _
    · exact ((h n.rank hpos).mpr ⟨n, hn, le_rfl⟩).trans hm
  · intro hall
    rcases Nat.eq_zero_or_pos m.rank with hzero | hpos
    · exact hzero ▸ Nat.zero_le _
    · obtain ⟨n, hn, hle⟩ := (h m.rank hpos).mp le_rfl
      exact hle.trans (hall n hn)

/-- What `v` does to the binding still counts right after `u`: it is evaluated no later at the same
point, or a path of at least one step leads from it to `u`, and neither its own point nor one in
between initialises the binding. -/
structure Func.CountsAt (f : Func) (v u : SolvedUse) : Prop where
  binding : v.binding = u.binding
  way : v.point = u.point ∧ v.id ≤ u.id ∨
    TransGen (fun p q => ¬ f.InitialisedAt p u.binding ∧ f.Next p q) v.point u.point

/-! ## Uses at one point -/

/-- The uses that follow each other at a point are entered with the modes after all of them up to
theirs. -/
theorem mem_annotateAt {us : List SolvedUse} (hsorted : us.Pairwise fun u v => u.id < v.id)
    (s : ModeState) {entry : UseId × Mode} : entry ∈ annotateAt s us ↔ ∃ u ∈ us,
      entry = (u.id, ((us.filter fun v => v.id ≤ u.id).foldl ModeState.use s).getD u.binding
        .unused) := by
  induction us generalizing s with
  | nil => simp [annotateAt]
  | cons u rest ih =>
    obtain ⟨hlater, hrest⟩ := List.pairwise_cons.mp hsorted
    have hfirst : (u :: rest).filter (fun v => v.id ≤ u.id) = [u] := by
      rw [List.filter_cons_of_pos (by simp), List.filter_eq_nil_iff.mpr]
      exact fun v hv => by simpa using hlater v hv
    have hnext : ∀ w ∈ rest, (u :: rest).filter (fun v => v.id ≤ w.id) =
        u :: rest.filter fun v => v.id ≤ w.id := fun w hw =>
      List.filter_cons_of_pos (by simpa using (hlater w hw).le)
    simp only [annotateAt, List.mem_cons, ih hrest, exists_eq_or_imp, hfirst, List.foldl_cons,
      List.foldl_nil]
    refine or_congr_right (exists_congr fun w => and_congr_right fun hw => ?_)
    rw [hnext w hw, List.foldl_cons]

namespace Environment

variable {env : Environment} {f : Func} {s : Solution} {u : SolvedUse}

/-! ## The entered modes -/

section Entered

variable {order : List BlockId} {exits : List ModeState} {uses : List SolvedUse}

theorem mem_runningEntries (exits : List ModeState) (ht : f.Traversal order)
    (hsorted : uses.Pairwise fun u v => u.id < v.id) {entry : UseId × Mode} :
    entry ∈ runningEntries f f.usage uses order exits ↔
      ∃ u ∈ uses, f.Reachable u.point ∧ entry = (u.id,
        (((uses.filter fun x => x.point = u.point).filter fun v => v.id ≤ u.id).foldl ModeState.use
          ((runningModes f.bindings.length f.usage uses).before f exits u.point)).getD u.binding
            .unused) := by
  have hat : ∀ p, (uses.filter fun x => x.point = p).Pairwise fun u v => u.id < v.id :=
    fun p => hsorted.filter _
  simp only [runningEntries, Forward.trace_eq, List.mem_flatMap, List.mem_map,
    mem_annotateAt (hat _)]
  constructor
  · rintro ⟨b, hb, _, ⟨p, hp, rfl⟩, u, hat, rfl⟩
    obtain ⟨hu, hpoint⟩ := List.mem_filter.mp hat
    obtain rfl : u.point = p := by simpa using hpoint
    obtain rfl := Func.block_eq_of_mem_pointsOf hp
    exact ⟨u, hu, ht.reachable_iff.mpr ⟨hb, hp⟩, rfl⟩
  · rintro ⟨u, hu, hreach, rfl⟩
    obtain ⟨hb, hp⟩ := ht.reachable_iff.mp hreach
    exact ⟨u.point.block, hb, _, ⟨u.point, hp, rfl⟩, u, List.mem_filter.mpr ⟨hu, by simp⟩, rfl⟩

/-- The mode entered for a use has reached a level exactly if a use that still counts needs it. -/
theorem le_rank_running (hf : f.Valid) (ht : f.Traversal order)
    (hset : (runningModes f.bindings.length f.usage uses).Settled f order exits)
    (hlt : u.binding < f.bindings.length) (hreach : f.Reachable u.point) {level : Nat}
    (hlevel : 0 < level) :
    level ≤ ((((uses.filter fun x => x.point = u.point).filter fun v => v.id ≤ u.id).foldl
        ModeState.use ((runningModes f.bindings.length f.usage uses).before f exits
          u.point)).getD u.binding .unused).rank ↔
      ∃ v ∈ uses, f.Reachable v.point ∧ f.CountsAt v u ∧ level ≤ v.resolved.rank := by
  have hshaped := runningModes_shaped f.bindings.length f.usage uses
  have hlength : u.binding < ((runningModes f.bindings.length f.usage uses).before f exits
      u.point).length := by
    obtain ⟨n, rfl⟩ := hset.iterate
    exact hlt.trans_eq ((hshaped.invariant f).before hf ht n hreach).symm
  rw [le_rank_foldl_use _ hlength,
    (runningModes_tracks hlt hlevel).before_iff hshaped hf ht hset hreach]
  simp only [ne_eq, Func.definitionAt_eq_some_iff hf]
  constructor
  · rintro (⟨v, hv, hbinding, hle⟩ | ⟨p, p', hp, ⟨hkeep, v, hv, rfl, hbinding, hle⟩, hnext, hpath⟩)
    · simp only [List.mem_filter, decide_eq_true_eq] at hv
      obtain ⟨⟨hv, hpoint⟩, hid⟩ := hv
      exact ⟨v, hv, hpoint ▸ hreach, ⟨hbinding, .inl ⟨hpoint, hid⟩⟩, hle⟩
    · exact ⟨v, hv, hp, ⟨hbinding, .inr (TransGen.head' ⟨hkeep, hnext⟩ hpath)⟩, hle⟩
  · rintro ⟨v, hv, hvreach, ⟨hbinding, ⟨hpoint, hid⟩ | hpath⟩, hle⟩
    · exact .inl ⟨v, by simp [hv, hpoint, hid], hbinding, hle⟩
    · obtain ⟨p, ⟨hkeep, hnext⟩, hrest⟩ := TransGen.head'_iff.mp hpath
      exact .inr ⟨v.point, p, hvreach, ⟨hkeep, v, hv, rfl, hbinding, hle⟩, hnext, hrest⟩

end Entered

/-! ## The running modes of a solution -/

/-- The sweeps do not look at running modes that have been entered. -/
theorem runningModes_enterRunning (width : Nat) (usage : Usage) (uses : List SolvedUse)
    (entries : List (UseId × Mode)) :
    runningModes width usage (enterRunning uses entries) = runningModes width usage uses := by
  obtain ⟨running, hmap⟩ := enterRunning_eq uses entries
  have hused : ∀ p s,
      ((enterRunning uses entries).filter fun x => x.point = p).foldl ModeState.use s =
        (uses.filter fun x => x.point = p).foldl ModeState.use s := by
    intro p s
    rw [hmap, List.filter_map, List.foldl_map]
    rfl
  simp only [runningModes, hused]

/-- The running modes of a solution are entered into the uses as they were solved one by one. -/
theorem exists_entries_of_solve (hf : f.Valid) (h : env.solve f f.usage = .ok s) :
    ∃ uses order exits, f.reversePostorder = .ok order ∧ f.Traversal order ∧
      (runningModes f.bindings.length f.usage uses).Settled f order exits ∧
      s.uses = enterRunning uses (runningEntries f f.usage uses order exits) ∧
      ∀ u ∈ uses, u.running = u.resolved := by
  simp only [solve, bind_eq_ok, pure_eq_ok] at h
  obtain ⟨_, _, uses, huses, annotated, hannotated, _, _, rfl⟩ := h
  obtain ⟨order, exits, horder, hexits, heq⟩ := annotateRunning_eq_ok hannotated
  obtain ⟨order', horder', ht⟩ := Func.reversePostorder_spec hf
  obtain rfl : order' = order := Except.ok.inj (horder'.symm.trans horder)
  refine ⟨uses, order', exits, horder', ht, Forward.settled_of_exits hexits, heq, fun u hu => ?_⟩
  obtain ⟨x, -, hx⟩ := mem_of_mapM_eq_ok huses hu
  rw [solveUse, bind_eq_ok] at hx
  obtain ⟨decl, -, hx⟩ := hx
  obtain rfl := pure_eq_ok.mp hx
  rfl

theorem runningModes_settles (hf : f.Valid) (h : env.solve f f.usage = .ok s) :
    ∃ order n, f.reversePostorder = .ok order ∧
      (runningModes f.bindings.length f.usage s.uses).afterSweeps f order (n + 1) =
        (runningModes f.bindings.length f.usage s.uses).afterSweeps f order n := by
  obtain ⟨uses, order, exits, horder, -, hset, hs, -⟩ := exists_entries_of_solve hf h
  obtain ⟨n, hn⟩ := hset.iterate
  refine ⟨order, n, horder, ?_⟩
  rw [hs, runningModes_enterRunning, Forward.afterSweeps_succ, ← hn, hset.fixed]

/-- The running mode of a reachable use merges what all uses need that still count at it; a use that
control never comes to keeps its own mode. -/
theorem running_of_solve (hf : f.Valid) (h : env.solve f f.usage = .ok s) (hu : u ∈ s.uses) :
    (f.Reachable u.point → u.running.IsMergeOf fun m =>
      ∃ v ∈ s.uses, f.Reachable v.point ∧ f.CountsAt v u ∧ v.resolved = m) ∧
    (¬ f.Reachable u.point → u.running = u.resolved) := by
  have hsolved := solved_of_solve h
  obtain ⟨uses, order, exits, -, ht, hset, hs, hrunning⟩ := exists_entries_of_solve hf h
  obtain ⟨running, hmap⟩ := enterRunning_eq uses (runningEntries f f.usage uses order exits)
  have hsorted : uses.Pairwise fun u v => u.id < v.id := by
    have := hsolved.uses_sorted
    rw [hs, hmap, List.pairwise_map] at this
    exact this
  have heq_of_id : ∀ v ∈ uses, ∀ w ∈ uses, v.id = w.id → v = w :=
    List.inj_on_of_nodup_map (List.pairwise_map.mpr (hsorted.imp fun hlt => hlt.ne))
  have hbinding : u.binding < f.bindings.length := hsolved.binding_lt hf hu
  rw [hs, hmap]
  rw [hs, enterRunning, List.mem_map] at hu
  obtain ⟨x, hx, rfl⟩ := hu
  cases hfind : (runningEntries f f.usage uses order exits).find? fun entry => entry.1 = x.id with
  | none =>
    simp only [hfind] at hbinding ⊢
    refine ⟨fun hreach => ?_, fun _ => hrunning x hx⟩
    have hentry := (mem_runningEntries exits ht hsorted).mpr ⟨x, hx, hreach, rfl⟩
    exact absurd (decide_eq_true rfl) (List.find?_eq_none.mp hfind _ hentry)
  | some entry =>
    simp only [hfind] at hbinding ⊢
    have hid : entry.1 = x.id := by simpa using List.find?_some hfind
    obtain ⟨w, hw, hreach, rfl⟩ :=
      (mem_runningEntries exits ht hsorted).mp (List.mem_of_find?_eq_some hfind)
    obtain rfl : w = x := heq_of_id w hw x hx hid
    refine ⟨fun _ => Mode.isMergeOf_of_levels fun level hlevel => ?_, fun h => absurd hreach h⟩
    rw [le_rank_running hf ht hset hbinding hreach hlevel]
    constructor
    · rintro ⟨v, hv, hvreach, hcounts, hle⟩
      exact ⟨v.resolved, ⟨_, List.mem_map_of_mem hv, hvreach, ⟨hcounts.binding, hcounts.way⟩, rfl⟩,
        hle⟩
    · rintro ⟨_, ⟨_, hmem, hvreach, hcounts, rfl⟩, hle⟩
      obtain ⟨v, hv, rfl⟩ := List.mem_map.mp hmem
      exact ⟨v, hv, hvreach, ⟨hcounts.binding, hcounts.way⟩, hle⟩

/-- The sweeps for the running modes of an accepted function come to an end, and the function has a
solution with all its recorded uses. The running mode of a use that control can come to is the least
mode that grants what is needed by all reachable uses of the binding that still count: those
evaluated no later at the same point, and those from which a path leads to the use without
initialising the binding on the way. A use that control never comes to keeps the mode of its own. -/
theorem running_merges_paths (env : Environment) (f : Func) (hvalid : f.validate = .ok ()) :
    ∃ s, env.solve f f.usage = .ok s ∧ s.uses.map SolvedUse.toUse = f.usage.uses ∧
      (∃ order n, f.reversePostorder = .ok order ∧
        (runningModes f.bindings.length f.usage s.uses).afterSweeps f order (n + 1) =
          (runningModes f.bindings.length f.usage s.uses).afterSweeps f order n) ∧
      ∀ u ∈ s.uses,
        (f.Reachable u.point → u.running.IsMergeOf fun m =>
          ∃ v ∈ s.uses, f.Reachable v.point ∧ f.CountsAt v u ∧ v.resolved = m) ∧
        (¬ f.Reachable u.point → u.running = u.resolved) := by
  have hf := Func.valid_of_validate hvalid
  obtain ⟨s, hs⟩ := env.solve_isOk hf
  exact ⟨s, hs, (solved_of_solve hs).uses, runningModes_settles hf hs,
    fun u hu => running_of_solve hf hs hu⟩

/-- The loop of blocks 0 and 1 begins at the entry. It looks at `x` and then changes it. Block 3
gives `x` away and goes to the entry, but control never comes there. -/
def loopAtEntry : Func where
  id := 0
  name := "poll"
  span := ⟨0, 60⟩
  params := [0]
  bindings := [⟨"x", .named "Data", .param, 0, none, ⟨1, 2⟩⟩]
  blocks := [
    ⟨0, 0, [⟨.eval (.call (.foreign "inspect") [.binding ⟨0, none, ⟨5, 6⟩⟩]), ⟨4, 7⟩⟩],
      some ⟨.branch (.constant (.bool true)) 1 2, ⟨8, 9⟩⟩⟩,
    ⟨1, 0, [⟨.eval (.call (.foreign "update") [.binding ⟨0, none, ⟨15, 16⟩⟩]), ⟨14, 17⟩⟩],
      some ⟨.goto 0, ⟨18, 19⟩⟩⟩,
    ⟨2, 0, [], some ⟨.ret none, ⟨30, 36⟩⟩⟩,
    ⟨3, 0, [⟨.eval (.call (.foreign "consume") [.binding ⟨0, none, ⟨45, 46⟩⟩]), ⟨44, 47⟩⟩],
      some ⟨.goto 0, ⟨48, 49⟩⟩⟩]
  regions := [⟨0, .body, none, none, ⟨0, 60⟩⟩]
  allocations := []
  isAsync := false

/-- The look at `x` is merged with the change that the loop brings round, and not with the move in
dead code. -/
theorem loopAtEntry_running :
    loopAtEntry.validate = .ok () ∧
    ∃ s look change gift, (ofForeigns [⟨"inspect", [some .borrow]⟩, ⟨"update", [some .mutable]⟩,
        ⟨"consume", [some .move]⟩]).solve loopAtEntry loopAtEntry.usage = .ok s ∧
      s.uses = [look, change, gift] ∧ loopAtEntry.CountsAt change look ∧
      look.resolved = .immutableBorrow ∧ look.running = .mutableBorrow ∧
      gift.resolved = .moved ∧ gift.running = .moved := by
  have hvalid : loopAtEntry.validate = .ok () := by decide
  obtain ⟨s, hs, -, -, hrunning⟩ := running_merges_paths (ofForeigns [⟨"inspect", [some .borrow]⟩,
    ⟨"update", [some .mutable]⟩, ⟨"consume", [some .move]⟩]) loopAtEntry hvalid
  have hrun : ((ofForeigns [⟨"inspect", [some .borrow]⟩, ⟨"update", [some .mutable]⟩,
      ⟨"consume", [some .move]⟩]).solve loopAtEntry loopAtEntry.usage >>= fun s =>
        pure (s.uses.map fun u => (u.binding, u.point, u.resolved))) =
      .ok [(0, ⟨0, 0⟩, .immutableBorrow), (0, ⟨1, 0⟩, .mutableBorrow), (0, ⟨3, 0⟩, .moved)] := by
    decide +kernel
  rw [hs, ok_bind, pure_eq_ok] at hrun
  obtain ⟨look, _, huses, hlook, hrest⟩ := List.map_eq_cons_iff.mp hrun
  obtain ⟨change, _, rfl, hchange, hrest⟩ := List.map_eq_cons_iff.mp hrest
  obtain ⟨gift, _, rfl, hgift, hrest⟩ := List.map_eq_cons_iff.mp hrest
  obtain rfl := List.map_eq_nil_iff.mp hrest
  simp only [Prod.mk.injEq] at hlook hchange hgift
  rw [huses] at hrunning
  have hentry : loopAtEntry.blocks[0]? = some (loopAtEntry.blocks.get ⟨0, by decide⟩) := rfl
  have hback : loopAtEntry.blocks[1]? = some (loopAtEntry.blocks.get ⟨1, by decide⟩) := rfl
  have hdead : ¬ loopAtEntry.Reachable gift.point := by
    obtain ⟨order, horder, ht⟩ := Func.reversePostorder_spec (Func.valid_of_validate hvalid)
    obtain rfl : order = [0, 2, 1] := Except.ok.inj (horder.symm.trans (by decide))
    rw [ht.reachable_iff, hgift.2.1]
    decide
  have hnone : ∀ p, ¬ loopAtEntry.InitialisedAt p 0 := by
    intro p
    have hdefinitions : loopAtEntry.usage.definitions = [] := by decide
    rw [← Func.definitionAt_eq_some_iff (Func.valid_of_validate hvalid),
      loopAtEntry.usage_consistent.definitionAt, hdefinitions]
    simp
  have hcounts : loopAtEntry.CountsAt change look := by
    refine ⟨by rw [hchange.1, hlook.1], .inr ?_⟩
    rw [hchange.2.1, hlook.1, hlook.2.1]
    exact TransGen.head ⟨hnone _, .within hback (by decide)⟩
      (.single ⟨hnone _, .jump hback (by decide)⟩)
  have hlookReach : loopAtEntry.Reachable look.point := hlook.2.1 ▸ .refl
  have hchangeReach : loopAtEntry.Reachable change.point := by
    rw [hchange.2.1]
    exact .tail (.single (.within hentry (by decide))) (.jump hentry (by decide))
  have hmerge := (hrunning look (by simp)).1 hlookReach
  have hat_most : look.running.within .mutableBorrow = true := by
    rw [hmerge]
    rintro _ ⟨v, hv, hreach, -, rfl⟩
    simp only [List.mem_cons, List.not_mem_nil, or_false] at hv
    rcases hv with rfl | rfl | rfl
    · rw [hlook.2.2]; rfl
    · rw [hchange.2.2]; rfl
    · exact absurd hreach hdead
  have hmore : ¬ look.running.within .immutableBorrow = true := by
    rw [hmerge]
    intro hall
    have hwithin := hall change.resolved ⟨change, by simp, hchangeReach, hcounts, rfl⟩
    rw [hchange.2.2] at hwithin
    exact absurd hwithin (by decide)
  refine ⟨hvalid, s, look, change, gift, hs, huses, hcounts, hlook.2.2, ?_, hgift.2.2, ?_⟩
  · cases hm : look.running <;> simp [hm, Mode.within, Mode.rank] at hat_most hmore ⊢
  · exact ((hrunning gift (by simp)).2 hdead).trans hgift.2.2

end Environment

end Tenure

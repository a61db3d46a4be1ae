import Tenure.Placement
import Tenure.Proofs.Facts
import Tenure.Proofs.Liveness.Exact
import Tenure.Proofs.Solution.DeadCode

/-!
# Facts without dead code

What the checks and the planner work from is the same for a function and for its pruned form, as far
as live code is concerned and but for the numbers of the uses (`Facts.PrunedTo`). Liveness looks
forward along paths and these stay in live code; it is computed in dead code as well, but nothing
there is live before a live point.
-/

namespace Tenure

open Relation

/-! ## Liveness -/

namespace Func.AgreesOn

variable {f g : Func} {live : List BlockId} {p : Point} {x : BindingId} {l l' : Liveness}
  (h : f.AgreesOn g live) (hf : f.Valid) (hg : g.Valid) (hl : f.liveness f.usage = .ok l)
  (hl' : g.liveness g.usage = .ok l')
include h

theorem initialisedAt_iff (hp : p.block ∈ live) : g.InitialisedAt p x ↔ f.InitialisedAt p x := by
  rw [InitialisedAt, InitialisedAt, h.step?_eq hp]

theorem readLater_iff (hp : p.block ∈ live) : g.ReadLater p x ↔ f.ReadLater p x := by
  have hpath : ∀ q, ReflTransGen (fun r r' => ¬ f.InitialisedAt r x ∧ f.Next r r') p q ↔
      ReflTransGen (fun r r' => ¬ g.InitialisedAt r x ∧ g.Next r r') p q := by
    intro q
    refine reflTransGen_iff_of_closed (P := fun p => p.block ∈ live)
      (fun r r' hr hstep => h.live_next hr hstep.2) (fun r r' hr => ?_) hp
    rw [h.initialisedAt_iff hr, h.next_iff hr]
  have hlive : ∀ q, ReflTransGen (fun r r' => ¬ f.InitialisedAt r x ∧ f.Next r r') p q →
      q.block ∈ live := by
    intro q hq
    induction hq with
    | refl => exact hp
    | tail _ hstep ih => exact h.live_next ih hstep.2
  refine exists_congr fun q => ?_
  rw [← hpath q]
  refine and_congr_right fun hq => ?_
  rw [ReadAt, ReadAt, h.step?_eq (hlive q hq)]

include hf hg

theorem definitionAt_eq (hp : p.block ∈ live) :
    g.usage.definitionAt p = f.usage.definitionAt p := by
  rw [Func.definitionAt_eq hf, Func.definitionAt_eq hg, h.step?_eq hp]

include hl hl'

theorem isLiveIn_eq (hp : p.block ∈ live) : l'.isLiveIn p x = l.isLiveIn p x := by
  rw [Bool.eq_iff_iff, isLiveIn_iff_readLater hf hl, isLiveIn_iff_readLater hg hl',
    h.readLater_iff hp]

theorem isLiveOut_eq (hp : p.block ∈ live) : l'.isLiveOut p x = l.isLiveOut p x := by
  rw [Bool.eq_iff_iff, isLiveOut_iff_next hf hl, isLiveOut_iff_next hg hl', h.block hp]
  refine exists_congr fun block => and_congr_right fun hblock => ?_
  have hnext : ∀ i, l'.isLiveIn ⟨p.block, i⟩ x = l.isLiveIn ⟨p.block, i⟩ x :=
    fun i => h.isLiveIn_eq hf hg hl hl' (p := ⟨p.block, i⟩) hp
  have hjump : ∀ c ∈ block.successors, l'.isLiveIn ⟨c, 0⟩ x = l.isLiveIn ⟨c, 0⟩ x := fun c hc =>
    h.isLiveIn_eq hf hg hl hl' (p := ⟨c, 0⟩) (h.live_of_edge hp (edge_iff.mpr ⟨block, hblock, hc⟩))
  rw [hnext]
  refine or_congr_right (and_congr_right fun _ => ?_)
  refine exists_congr fun c => and_congr_right fun hc => ?_
  rw [hjump c hc]

end Func.AgreesOn

/-! ## Facts -/

/-- The second facts are those about the function without its dead code, in which the uses have
other numbers. -/
structure Facts.PrunedTo (facts : Facts) (r : Renumbering) (core : Facts) : Prop where
  increasing : r.Increasing
  func : core.func = facts.func.prune facts.solution.reachable
  agrees : facts.func.AgreesOn core.func facts.solution.reachable
  reachable : core.solution.reachable = facts.solution.reachable
  uses : facts.solution.liveUses = core.solution.uses.map (SolvedUse.renumber r)
  uses_live : ∀ {u}, u ∈ core.solution.uses → core.solution.isReachable u.point = true
  modes : core.solution.modes = facts.solution.modes
  signature : core.solution.signature = facts.solution.signature
  conflicts : core.solution.conflicts = facts.solution.conflicts
  definitionAt : ∀ {p : Point}, p.block ∈ facts.solution.reachable →
    core.usage.definitionAt p = facts.usage.definitionAt p
  sites : core.usage.allocations = facts.liveSites
  isLiveIn : ∀ {p : Point} {x}, p.block ∈ facts.solution.reachable →
    core.liveness.isLiveIn p x = facts.liveness.isLiveIn p x
  isLiveOut : ∀ {p : Point} {x}, p.block ∈ facts.solution.reachable →
    core.liveness.isLiveOut p x = facts.liveness.isLiveOut p x

theorem Environment.exists_prunedTo {env : Environment} {f : Func} {facts : Facts} (hf : f.Valid)
    (h : env.facts f = .ok facts) :
    ∃ r core, env.facts (f.prune facts.solution.reachable) = .ok core ∧ facts.PrunedTo r core := by
  have hvalid := Func.prune_valid hf facts.solution.reachable
  obtain ⟨core, hcore⟩ := env.facts_isOk hvalid
  simp only [Environment.facts, bind_eq_ok, pure_eq_ok] at h hcore
  obtain ⟨liveness, hliveness, s, hs, rfl⟩ := h
  obtain ⟨liveness', hliveness', s', hs', rfl⟩ := hcore
  obtain ⟨r, hr, huses⟩ := exists_renumbering_of_solve hf hs hs'
  have hagrees := prune_agrees_of_solve hf hs
  have hreachable := reachable_core_eq hf hs hs'
  have hlive : ∀ {u}, u ∈ s'.uses → s'.isReachable u.point = true := by
    intro u hu
    rw [Solution.isReachable, hreachable, List.contains_iff_mem]
    exact Func.mem_live_of_mem_usage_prune ((solved_of_solve hs').mem_usage hu)
  have hliveUses : s'.liveUses = s'.uses := List.filter_eq_self.mpr fun u hu => hlive hu
  obtain ⟨hmodes, hconflicts, params, hparams, hsignature⟩ := solve_liveUses hs
  obtain ⟨hmodes', hconflicts', params', hparams', hsignature'⟩ := solve_liveUses hs'
  rw [hliveUses] at hmodes' hconflicts'
  rw [huses] at hmodes hconflicts
  have hmodesEq : s'.modes = s.modes := by
    rw [hmodes, modesOf_renumber]
    exact hmodes'
  refine ⟨r, ⟨f.prune s.reachable, (f.prune s.reachable).usage, s', liveness'⟩, ?_,
    ⟨hr, rfl, hagrees, hreachable, huses, hlive, hmodesEq, ?_, ?_, ?_, ?_, ?_, ?_⟩⟩
  · simp only [Environment.facts, bind_eq_ok, pure_eq_ok]
    exact ⟨liveness', hliveness', s', hs', rfl⟩
  · rw [hmodesEq] at hparams'
    rw [hsignature, hsignature', Except.ok.inj (hparams'.symm.trans hparams)]
  · rw [hconflicts, hconflicts', List.filterMap_map]
    rfl
  · exact hagrees.definitionAt_eq hf hvalid
  · exact f.filter_allocations_prune s.reachable
  · exact hagrees.isLiveIn_eq hf hvalid hliveness hliveness'
  · exact hagrees.isLiveOut_eq hf hvalid hliveness hliveness'

namespace Facts.PrunedTo

variable {facts core : Facts} {r : Renumbering} (h : facts.PrunedTo r core)
include h

theorem liveUses_core : core.solution.liveUses = core.solution.uses :=
  List.filter_eq_self.mpr fun _ => h.uses_live

theorem liveUses_eq :
    facts.solution.liveUses = core.solution.liveUses.map (SolvedUse.renumber r) := by
  rw [h.uses, h.liveUses_core]

theorem usesAt_eq {p : Point} (hp : p.block ∈ facts.solution.reachable) :
    facts.solution.usesAt p = (core.solution.usesAt p).map (SolvedUse.renumber r) := by
  have hlive : facts.solution.usesAt p = facts.solution.liveUses.filter fun u => u.point = p := by
    rw [Solution.usesAt, Solution.liveUses, List.filter_filter]
    refine List.filter_congr fun u _ => ?_
    by_cases hpoint : u.point = p
    · simpa [hpoint, Solution.isReachable] using hp
    · simp [hpoint]
  rw [hlive, h.uses, List.filter_map, Solution.usesAt]
  rfl

/-- The blocks are gone through in the same order, all of them live. -/
theorem exists_order (hf : facts.func.Valid) :
    ∃ order, facts.func.reversePostorder = .ok order ∧ core.func.reversePostorder = .ok order ∧
      ∀ b ∈ order, b ∈ facts.solution.reachable := by
  obtain ⟨order, horder, ht⟩ := Func.reversePostorder_spec hf
  refine ⟨order, horder, h.agrees.reversePostorder_eq.trans horder, fun b hb => ?_⟩
  exact h.agrees.mem_iff.mpr (ht.reachable_start hb)

end Facts.PrunedTo

/-! ## Findings under new numbers -/

/-- Which findings are kept does not depend on how the uses are numbered. -/
theorem keepFirst_map {α β : Type} {ρ : UseId → UseId} (hρ : Function.Injective ρ) (g : α → β)
    (met : List UseId) (found : List (UseId × α)) :
    keepFirst (met.map ρ) (found.map fun entry => (ρ entry.1, g entry.2)) =
      (keepFirst met found).map g := by
  induction found generalizing met with
  | nil => rfl
  | cons entry rest ih =>
    obtain ⟨use, finding⟩ := entry
    have hmet : (met.map ρ).contains (ρ use) = met.contains use := by
      rw [Bool.eq_iff_iff, List.contains_iff_mem, List.contains_iff_mem,
        List.mem_map_of_injective hρ]
    simp only [List.map_cons, keepFirst, hmet]
    split
    · exact ih met
    · rw [List.map_cons, ← ih (use :: met), List.map_cons]

/-- The violation with the uses it names under their new numbers. -/
def Violation.renumber (r : Renumbering) : Violation → Violation
  | useAfterMove binding use useSpan move moveSpan moveRequired =>
    useAfterMove binding (r.use use) useSpan (r.use move) moveSpan moveRequired
  | conflictingBorrow binding use span requested existingSpan existing =>
    conflictingBorrow binding (r.use use) span requested existingSpan existing
  | other => other

end Tenure

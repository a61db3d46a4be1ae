import Mathlib.Order.Filter.EventuallyConst
import Tenure.Proofs.Forward.Reducible
import Tenure.Proofs.Placement.Holders
import Tenure.Proofs.Placement.Lingering
import Tenure.Proofs.Placement.Lost

/-!
# When the analysis of single frees comes to rest

Freeing a value makes the analysis forget all its holders, so a sweep that finds more than the one
before may leave less. The live holders only grow. A dead holder may go round crossing loops for
ever, there in one sweep and away in the next, and this is the only thing that keeps the analysis
from coming to rest (`comesToRest_iff_not_wanders`). It takes a loop that is entered at several
places: what lingers late in a reducible function has gone round a loop in one sweep and so lingers
in the next sweep as well (`Lingers.again_of_late`).
-/

namespace Tenure

open Relation Filter

/-- What stays from some time on once it holds is in the end always or never the case. -/
theorem eventuallyConst_of_succ {P : Nat → Prop} (late : Nat)
    (h : ∀ k ≥ late, P k → P (k + 1)) : EventuallyConst P atTop := by
  rw [eventuallyConst_pred, eventually_atTop, eventually_atTop]
  by_cases hP : ∃ k ≥ late, P k
  · obtain ⟨k, hk, hPk⟩ := hP
    refine Or.inl ⟨k, fun j hj => ?_⟩
    induction j, hj using Nat.le_induction with
    | base => exact hPk
    | succ j hj ih => exact h j (hk.trans hj) ih
  · exact Or.inr ⟨late, fun k hk hPk => hP ⟨k, hk, hPk⟩⟩

namespace Facts

variable {env : Environment} {facts : Facts} {order : List BlockId} {site : AllocSite}
  {holders : Holders} {m n u v : Moment} {x : BindingId} {p : Point} {stays : Moment → Prop}
  {late : Nat}

/-! ## What only grows -/

theorem Gets.again (hx : facts.Gets order site holders m x) :
    facts.Gets order site holders m.again x := by
  induction hx with
  | made hpoint hdest => exact .made hpoint hdest
  | given hfeeds _ hflow ih => exact .given hfeeds.again ih hflow
  | kept hfeeds _ hlive hconsumed hdef ih => exact .kept hfeeds.again ih hlive hconsumed hdef

theorem Brings.again (hx : facts.Brings order site holders m x) :
    facts.Brings order site holders m.again x := by
  obtain ⟨hlive, l, hfeeds, hl⟩ := hx
  exact ⟨hlive, l.again, hfeeds.again, hl.again⟩

/-- Whether the value is touched for the last time at a point does not change in the end. -/
theorem expires_eventuallyConst (p : Point) :
    EventuallyConst (fun k => facts.Expires order site holders ⟨k, p⟩) atTop := by
  have htouched : EventuallyConst (fun k => (∃ x, site.point = p ∧ site.dest = some x) ∨
      ∃ x, facts.Brings order site holders ⟨k, p⟩ x) atTop :=
    eventuallyConst_of_succ 0 fun k _ => Or.imp_right fun ⟨x, hx⟩ => ⟨x, hx.again⟩
  have hused : EventuallyConst (fun k => ∃ x, facts.Gets order site holders ⟨k, p⟩ x ∧
      facts.liveness.isLiveOut p x = true) atTop :=
    eventuallyConst_of_succ 0 fun k _ ⟨x, hx, hlive⟩ => ⟨x, hx.again, hlive⟩
  refine (htouched.comp₂ (fun t u => t ∧ ¬ u) hused).congr (Eventually.of_forall fun k => ?_)
  exact propext ⟨fun ⟨ht, hu⟩ => ⟨ht, hu⟩, fun ⟨ht, hu⟩ => ⟨ht, hu⟩⟩

/-! ## Lingering in a reducible function -/

/-- A binding that lingers at the first moment lingers at the second. -/
def Passes (facts : Facts) (order : List BlockId) (stays : Moment → Prop) (x : BindingId)
    (m n : Moment) : Prop :=
  facts.func.Feeds order m n ∧ stays m ∧ facts.usage.definitionAt m.point ≠ some x

/-- What lingers was stranded somewhere and has come from there. -/
theorem lingers_iff_walk : facts.Lingers order site holders stays x n ↔
    ∃ l m, facts.func.Feeds order l m ∧ stays l ∧ facts.Gets order site holders l x ∧
      ¬ facts.liveness.isLiveIn m.point x = true ∧
        ReflTransGen (facts.Passes order stays x) m n := by
  constructor
  · intro hx
    induction hx with
    | strand hfeeds hstays hx hdead => exact ⟨_, _, hfeeds, hstays, hx, hdead, ReflTransGen.refl⟩
    | stay hfeeds hstays _ hdef ih =>
      obtain ⟨l, m, hfirst, hl, hx, hdead, hwalk⟩ := ih
      exact ⟨l, m, hfirst, hl, hx, hdead, ReflTransGen.tail hwalk ⟨hfeeds, hstays, hdef⟩⟩
  · rintro ⟨l, m, hfirst, hl, hx, hdead, hwalk⟩
    induction hwalk with
    | refl => exact .strand hfirst hl hx hdead
    | tail _ hstep ih => exact .stay hstep.1 hstep.2.1 ih hstep.2.2

/-- What stays late stays in the next sweep. -/
def StaysLate (facts : Facts) (stays : Moment → Prop) (late : Nat) : Prop :=
  ∀ m, facts.func.Reachable m.point → late ≤ m.sweep → stays m → stays m.again

theorem exists_staysLate (ht : facts.func.Traversal order) (stays : Moment → Prop)
    (hstays : ∀ p, EventuallyConst (fun k => stays ⟨k, p⟩) atTop) :
    ∃ late, facts.StaysLate stays late := by
  let points := (order.flatMap facts.func.pointsOf).toFinset
  have hsettled : ∀ᶠ k in atTop, ∀ p ∈ points, stays ⟨k + 1, p⟩ = stays ⟨k, p⟩ := by
    rw [eventually_all_finset]
    intro p _
    exact eventually_atTop.mpr (eventuallyConst_atTop_nat.mp (hstays p))
  obtain ⟨late, hlate⟩ := eventually_atTop.mp hsettled
  refine ⟨late, fun m hm hle hstay => ?_⟩
  obtain ⟨hblock, hpoint⟩ := ht.reachable_iff.mp hm
  have hmem : m.point ∈ points :=
    List.mem_toFinset.mpr (List.mem_flatMap.mpr ⟨_, hblock, hpoint⟩)
  exact (hlate m.sweep hle m.point hmem).mpr hstay

/-- A late walk can be made one sweep later. -/
theorem StaysLate.walk_again (hlate : facts.StaysLate stays late)
    (hwalk : ReflTransGen (facts.Passes order stays x) u v) (hu : late ≤ u.sweep) :
    ReflTransGen (facts.Passes order stays x) u.again v.again := by
  induction hwalk with
  | refl => exact ReflTransGen.refl
  | @tail w v hwalk hstep ih =>
    obtain ⟨hfeeds, hstays, hdef⟩ := hstep
    have hw : late ≤ w.sweep := hu.trans (Func.sweep_le_of_walk (fun _ _ h => h.1) hwalk)
    exact ReflTransGen.tail ih ⟨hfeeds.again, hlate w hfeeds.reachable hw hstays, hdef⟩

/-- In a reducible function, if at each point it does not change in the end whether the value stays,
then what lingers late enough lingers in the next sweep. -/
theorem Lingers.again_of_late (hred : facts.func.Reducible order) (ht : facts.func.Traversal order)
    (site : AllocSite) (holders : Holders) (stays : Moment → Prop)
    (hstays : ∀ p, EventuallyConst (fun k => stays ⟨k, p⟩) atTop) :
    ∃ later, ∀ n x, later ≤ n.sweep → facts.Lingers order site holders stays x n →
      facts.Lingers order site holders stays x n.again := by
  obtain ⟨late, hlate⟩ := exists_staysLate ht stays hstays
  obtain ⟨long, hturn⟩ := hred.exists_turn ht
  refine ⟨late + long + 1, fun n x hn hx => ?_⟩
  obtain ⟨l, m, hfirst, hl, hx, hdead, hwalk⟩ := lingers_iff_walk.mp hx
  rw [lingers_iff_walk]
  by_cases hstart : late ≤ l.sweep
  · -- stranded late: the same one sweep later
    exact ⟨l.again, m.again, hfirst.again, hlate l hfirst.reachable hstart hl, hx.again, hdead,
      hlate.walk_again hwalk (hstart.trans hfirst.le)⟩
  · -- stranded early: the walk has gone round a loop in one sweep, and may do so twice
    have hm : m.sweep ≤ late := by
      have hsweep := hfirst.sweep
      have hdelay : Func.delay order l.point m.point ≤ 1 := Func.delay_le_one
      omega
    obtain ⟨w, hw, hto, hfrom⟩ := Func.exists_in_sweep (fun _ _ h => h.1) hwalk hm (by omega)
    obtain ⟨k, t, hk, hto', hround, hfrom'⟩ := hturn _ (fun _ _ h => h.1) w n hfrom (by omega)
    have hrest := hlate.walk_again (hround.trans hfrom') (by dsimp only; omega)
    exact ⟨l, m, hfirst, hl, hx, hdead, (hto.trans hto').trans (hround.trans hrest)⟩

/-- In a reducible function, whether the value is freed at a point does not change in the end. -/
theorem frees_eventuallyConst (hred : facts.func.Reducible order)
    (ht : facts.func.Traversal order) (p : Point) :
    EventuallyConst (fun k => facts.Frees order site holders ⟨k, p⟩) atTop := by
  obtain ⟨later, hagain⟩ := Lingers.again_of_late hred ht site holders
    (fun m => ¬ facts.Expires order site holders m) fun p => (expires_eventuallyConst p).comp Not
  have howned : EventuallyConst (fun k => facts.Owned order site holders ⟨k, p⟩) atTop := by
    refine eventuallyConst_of_succ later fun k hk => ?_
    rintro ⟨x, hx, hgets | ⟨hlingers, hdef⟩⟩
    · exact ⟨x, hx, Or.inl hgets.again⟩
    · exact ⟨x, hx, Or.inr ⟨hagain ⟨k, p⟩ x hk hlingers, hdef⟩⟩
  exact (expires_eventuallyConst p).comp₂ And howned

/-! ## Coming to rest -/

/-- Again and again the binding is a stale holder at the point, and again and again it is not. -/
def Wanders (facts : Facts) (order : List BlockId) (site : AllocSite) (holders : Holders)
    (x : BindingId) (p : Point) : Prop :=
  (∀ n, ∃ k ≥ n, facts.Stale order site holders x ⟨k, p⟩) ∧
    ∀ n, ∃ k ≥ n, ¬ facts.Stale order site holders x ⟨k, p⟩

theorem wanders_iff : facts.Wanders order site holders x p ↔
    ¬ EventuallyConst (fun k => facts.Stale order site holders x ⟨k, p⟩) atTop := by
  rw [eventuallyConst_pred, not_or, not_eventually, not_eventually, frequently_atTop,
    frequently_atTop, Wanders, and_comm]
  simp only [not_not]

/-- In a reducible function no binding wanders. -/
theorem not_wanders_of_reducible (hred : facts.func.Reducible order)
    (ht : facts.func.Traversal order) : ¬ facts.Wanders order site holders x p := by
  obtain ⟨later, hagain⟩ := Lingers.again_of_late hred ht site holders
    (fun m => ¬ facts.Frees order site holders m)
    fun p => (frees_eventuallyConst hred ht p).comp Not
  rw [wanders_iff, not_not]
  exact eventuallyConst_of_succ later fun k hk hx => hagain ⟨k, p⟩ x hk hx

section Sweeps

variable (hf : facts.func.Valid) (h : facts.Of env facts.func) (ht : facts.func.Traversal order)
  (hsite : site ∈ facts.func.usage.allocations) (hholders : facts.holders site = .ok holders)
include hf h ht hsite hholders

/-- A binding that holds the value has come with it or is stale. -/
theorem contains_iff_brings_or_stale (hn : facts.func.Reachable n.point) :
    (facts.heldIn order site holders n).contains x = true ↔
      facts.Brings order site holders n x ∨ facts.Stale order site holders x n := by
  rw [← contains_live_iff hf h ht hsite hholders hn, ← contains_dead_iff hf h ht hsite hholders hn,
    ← and_or_left]
  exact (and_iff_left (Classical.em _)).symm

/-- If no binding wanders, what is found at a point comes to rest. -/
theorem heldIn_eventuallyConst (hp : facts.func.Reachable p)
    (hnone : ∀ x, ¬ facts.Wanders order site holders x p) :
    EventuallyConst (fun k => facts.heldIn order site holders ⟨k, p⟩) atTop := by
  have heach : ∀ x, EventuallyConst (fun k =>
      (facts.heldIn order site holders ⟨k, p⟩).contains x = true) atTop := by
    intro x
    have hbrings : EventuallyConst (fun k => facts.Brings order site holders ⟨k, p⟩ x) atTop :=
      eventuallyConst_of_succ 0 fun k _ hx => hx.again
    have hstale := not_not.mp (wanders_iff.not.mp (hnone x))
    refine (hbrings.comp₂ Or hstale).congr (Eventually.of_forall fun k => ?_)
    exact propext (contains_iff_brings_or_stale hf h ht hsite hholders hp).symm
  have hsettled : ∀ᶠ k in atTop, ∀ x ∈ Finset.range facts.func.bindings.length,
      ((facts.heldIn order site holders ⟨k + 1, p⟩).contains x = true) =
        ((facts.heldIn order site holders ⟨k, p⟩).contains x = true) := by
    rw [eventually_all_finset]
    intro x _
    exact eventually_atTop.mpr (eventuallyConst_atTop_nat.mp (heach x))
  obtain ⟨late, hlate⟩ := eventually_atTop.mp hsettled
  rw [eventuallyConst_atTop_nat]
  refine ⟨late, fun k hk => ?_⟩
  refine BindingSet.ext_contains ((width_heldIn h _).trans (width_heldIn h _).symm) fun x hx => ?_
  rw [width_heldIn h] at hx
  exact Bool.eq_iff_iff.mpr (iff_of_eq (hlate k hk x (Finset.mem_range.mpr hx)))

theorem fixed_of_not_wanders (hnone : ∀ x p, ¬ facts.Wanders order site holders x p) :
    ∃ n, (facts.heldBy site holders).sweep facts.func order
        ((facts.heldBy site holders).afterSweeps facts.func order n) =
      (facts.heldBy site holders).afterSweeps facts.func order n := by
  refine Forward.fixed_of_atMoment ht fun p hp => ?_
  exact eventuallyConst_atTop.mp
    (heldIn_eventuallyConst hf h ht hsite hholders hp fun x => hnone x p)

/-- From a sweep on that changes nothing no binding wanders. -/
theorem not_wanders_of_fixed {k : Nat} (hfix : (facts.heldBy site holders).sweep facts.func order
        ((facts.heldBy site holders).afterSweeps facts.func order k) =
      (facts.heldBy site holders).afterSweeps facts.func order k) :
    ¬ facts.Wanders order site holders x p := by
  rintro ⟨hthere, haway⟩
  obtain ⟨i, hi, hstale⟩ := hthere k
  obtain ⟨j, hj, hgone⟩ := haway k
  have hp : facts.func.Reachable p := by
    cases hstale with
    | strand hfeeds => exact hfeeds.reachable_next
    | stay hfeeds => exact hfeeds.reachable_next
  -- both sweeps find the same
  have hsame : facts.heldIn order site holders ⟨i, p⟩ = facts.heldIn order site holders ⟨j, p⟩ :=
    (Forward.atMoment_eq_of_fixed hfix hi p).trans (Forward.atMoment_eq_of_fixed hfix hj p).symm
  rw [← contains_dead_iff hf h ht hsite hholders hp] at hstale hgone
  rw [hsame] at hstale
  exact hgone hstale

end Sweeps

/-- The sets at the ends of blocks after two, three and four sweeps. -/
def laterSweeps (env : Environment) (f : Func) (site : AllocSite) :
    Except Fault (List BindingSet × List BindingSet × List BindingSet) := do
  let facts ← env.facts f
  let order ← f.reversePostorder
  let holders ← facts.holders site
  let after := (facts.heldBy site holders).afterSweeps f order
  return (after 2, after 3, after 4)

/-- Sets that change and come back do so for ever. -/
theorem not_comesToRest_of_laterSweeps {even odd : List BindingSet}
    (hsweeps : laterSweeps env f site = .ok (even, odd, even)) (hne : odd ≠ even)
    (hfacts : env.facts f = .ok facts) (hholders : facts.holders site = .ok holders) :
    ¬ facts.ComesToRest site holders := by
  simp only [laterSweeps, hfacts, hholders, ok_bind, bind_eq_ok, pure_eq_ok, Prod.mk.injEq]
    at hsweeps
  obtain ⟨order, horder, hsecond, hthird, hfourth⟩ := hsweeps
  rintro ⟨order', n, horder', hfix⟩
  rw [(Environment.of_facts hfacts).func] at horder' hfix
  obtain rfl := Except.ok.inj (horder.symm.trans horder')
  refine Graph.not_fixed_of_returns 2 2 (by decide) (hfourth.trans hsecond.symm) ?_ n hfix
  exact fun hsame => hne (hthird.symm.trans (hsame.trans hsecond))

/-- For an accepted function and an allocation of it, the analysis of single frees comes to rest,
and has a result, unless some binding wanders. In a reducible function none does. -/
theorem comesToRest_iff_not_wanders (env : Environment) (f : Func)
    (hvalid : env.program.validateFunction f = .ok ()) :
    ∃ facts order, env.facts f = .ok facts ∧ f.reversePostorder = .ok order ∧
      ∀ site ∈ f.usage.allocations, ∃ holders, facts.holders site = .ok holders ∧
        (facts.ComesToRest site holders ↔ ¬ ∃ x p, facts.Wanders order site holders x p) ∧
        (f.Reducible order → facts.ComesToRest site holders) ∧
        ((∃ exits, facts.heldExits site holders = .ok exits) ↔ facts.ComesToRest site holders) := by
  obtain ⟨hvalid', facts, hfacts, h⟩ := env.facts_of_validateFunction hvalid
  have hf := Func.valid_of_validate hvalid'
  obtain ⟨order, horder, ht⟩ := Func.reversePostorder_spec hf
  obtain rfl := h.func
  refine ⟨facts, order, hfacts, horder, fun site hsite => ?_⟩
  obtain ⟨holders, hholders⟩ := holders_isOk hf h site
  have hrest : (∀ x p, ¬ facts.Wanders order site holders x p) →
      facts.ComesToRest site holders := by
    intro hnone
    obtain ⟨n, hfix⟩ := fixed_of_not_wanders hf h ht hsite hholders hnone
    exact ⟨order, n, horder, hfix⟩
  refine ⟨holders, hholders, ⟨?_, fun hnone => ?_⟩, fun hred => ?_, heldExits_isOk_iff h horder⟩
  · rintro ⟨order', n, horder', hfix⟩ ⟨x, p, hwanders⟩
    obtain rfl : order' = order := Except.ok.inj (horder'.symm.trans horder)
    exact not_wanders_of_fixed hf h ht hsite hholders hfix hwanders
  · exact hrest fun x p hwanders => hnone ⟨x, p, hwanders⟩
  · exact hrest fun x p => not_wanders_of_reducible hred ht

/-- Makes a value into `d` and then comes to a loop over blocks 1, 2 and 3, which looks at a
reference to `d` and defines `d` anew. Behind it, one way round goes from block 4 over block 8 back
to block 6 and from there back to block 4. The ways round that lead back once only, through block 5
or block 7, define `d` anew. -/
def crossedLoops : Func where
  id := 0
  name := "stray"
  span := ⟨0, 40⟩
  params := [0]
  bindings := [⟨"k", .named "Data", .param, 0, none, ⟨1, 2⟩⟩,
    ⟨"d", .named "Data", .varBound, 0, none, ⟨1, 2⟩⟩,
    ⟨"m", .ref (.named "Data"), .varBound, 0, none, ⟨1, 2⟩⟩]
  blocks := [
    ⟨0, 0,
      [⟨.assign 2 (.ref (.binding ⟨0, none, ⟨2, 3⟩⟩) false), ⟨1, 3⟩⟩,
        ⟨.assign 1 (.alloc 0 []), ⟨4, 5⟩⟩],
      some ⟨.branch (.constant (.bool true)) 1 3, ⟨6, 7⟩⟩⟩,
    ⟨1, 0, [⟨.eval (.call (.foreign "inspect") [.binding ⟨2, none, ⟨9, 10⟩⟩]), ⟨8, 10⟩⟩],
      some ⟨.branch (.constant (.bool true)) 2 4, ⟨11, 12⟩⟩⟩,
    ⟨2, 0, [define ⟨13, 14⟩], some ⟨.goto 3, ⟨15, 16⟩⟩⟩,
    ⟨3, 0, [⟨.assign 2 (.ref (.binding ⟨1, none, ⟨18, 19⟩⟩) false), ⟨17, 19⟩⟩],
      some ⟨.goto 1, ⟨20, 21⟩⟩⟩,
    ⟨4, 0, [], some ⟨.branch (.constant (.bool true)) 5 8, ⟨22, 23⟩⟩⟩,
    ⟨5, 0,
      [define ⟨24, 25⟩,
        ⟨.eval (.call (.foreign "consume") [.binding ⟨1, none, ⟨27, 28⟩⟩]), ⟨26, 28⟩⟩],
      some ⟨.goto 6, ⟨29, 30⟩⟩⟩,
    ⟨6, 0, [], some ⟨.branch (.constant (.bool true)) 7 4, ⟨31, 32⟩⟩⟩,
    ⟨7, 0, [define ⟨33, 34⟩], some ⟨.goto 8, ⟨35, 36⟩⟩⟩,
    ⟨8, 0, [], some ⟨.goto 6, ⟨37, 38⟩⟩⟩]
  regions := [⟨0, .body, none, none, ⟨0, 40⟩⟩]
  allocations := [⟨4, 5⟩]
  isAsync := false
where
  define (span : Span) : Statement := ⟨.assign 1 (.call (.foreign "make") []), span⟩

/-- The value of `crossedLoops` is held by `d` at the ends of some blocks, and at the end of block 3
by `d` and the reference. -/
def heldAtEnds (blocks : List BlockId) : List BindingSet :=
  crossedLoops.blocks.map fun b => ⟨[false, b.id = 3 || blocks.contains b.id, b.id = 3]⟩

/-- No check finds a fault in the function. The dead owner goes round the second loop for ever, and
the analysis never comes to rest. -/
theorem crossedLoops_wanders :
    refreshingEnv.program.validateFunction crossedLoops = .ok () ∧
    ∃ facts order holders, refreshingEnv.facts crossedLoops = .ok facts ∧
      facts.solution.conflicts = [] ∧ Linearity.violations facts = .ok [] ∧
      Exclusivity.violations facts = .ok [] ∧ crossedLoops.reversePostorder = .ok order ∧
      facts.holders ⟨0, some 1, ⟨0, 1⟩, ⟨4, 5⟩⟩ = .ok holders ∧
      ¬ facts.ComesToRest ⟨0, some 1, ⟨0, 1⟩, ⟨4, 5⟩⟩ holders ∧
      (¬ ∃ exits, facts.heldExits ⟨0, some 1, ⟨0, 1⟩, ⟨4, 5⟩⟩ holders = .ok exits) ∧
      ¬ crossedLoops.Reducible order ∧
      ∃ x p, facts.Wanders order ⟨0, some 1, ⟨0, 1⟩, ⟨4, 5⟩⟩ holders x p := by
  let site : AllocSite := ⟨0, some 1, ⟨0, 1⟩, ⟨4, 5⟩⟩
  have hvalid : refreshingEnv.program.validateFunction crossedLoops = .ok () := by decide +kernel
  have hsweeps : laterSweeps refreshingEnv crossedLoops site =
      .ok (heldAtEnds [0, 6], heldAtEnds [0, 4, 8], heldAtEnds [0, 6]) := by decide +kernel
  have hclean : (refreshingEnv.facts crossedLoops >>= fun facts =>
      pure (facts.solution.conflicts, Linearity.violations facts, Exclusivity.violations facts)) =
        .ok ([], .ok [], .ok []) := by decide +kernel
  obtain ⟨facts, order, hfacts, horder, hall⟩ :=
    comesToRest_iff_not_wanders refreshingEnv crossedLoops hvalid
  obtain ⟨holders, hholders, hiff, hreducible, hexits⟩ := hall site (by decide)
  rw [hfacts, ok_bind, pure_eq_ok, Prod.mk.injEq, Prod.mk.injEq] at hclean
  obtain ⟨hconflicts, hlinear, hexclusive⟩ := hclean
  have hnever : ¬ facts.ComesToRest site holders :=
    not_comesToRest_of_laterSweeps hsweeps (by decide) hfacts hholders
  refine ⟨hvalid, facts, order, holders, hfacts, hconflicts, hlinear, hexclusive, horder, hholders,
    hnever, fun hresult => hnever (hexits.mp hresult), fun hred => hnever (hreducible hred), ?_⟩
  by_contra hnone
  exact hnever (hiff.mpr hnone)

end Facts

end Tenure

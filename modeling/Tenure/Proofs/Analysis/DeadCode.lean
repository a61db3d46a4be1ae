import Tenure.Proofs.Exclusivity.Conflicts
import Tenure.Proofs.Exclusivity.DeadCode
import Tenure.Proofs.Linearity.DeadCode
import Tenure.Proofs.Placement.DeadCode

/-!
# What dead code can change

Two accepted functions that differ in dead code only are analysed alike: they have the same modes,
signature, moves and plan, up to the numbers of the uses. Each of them is compared with their common
pruned form. The exclusivity check is the exception. A move in dead code makes the target an alias
of the source, and the loan of a reference then counts for longer (`deadHandOver_reported`). Apart
from that the check is blind to dead code as well (`dead_code_irrelevant_but_for_aliases`).
-/

namespace Tenure

/-! ## From one numbering to another -/

namespace Renumbering

/-- What has the number of the first numbering gets that of the second. -/
noncomputable def between (r r' : Renumbering) : Renumbering where
  use := r'.use ∘ Function.invFun r.use
  group := r'.group ∘ Function.invFun r.group

variable {r r' : Renumbering} (hr : r.Increasing)
include hr

theorem between_use (i : UseId) : (r.between r').use (r.use i) = r'.use i :=
  congrArg r'.use (Function.leftInverse_invFun hr.use.injective i)

theorem between_group (n : Nat) : (r.between r').group (r.group n) = r'.group n :=
  congrArg r'.group (Function.leftInverse_invFun hr.group.injective n)

theorem renumber_between_use (u : SolvedUse) :
    (u.renumber r).renumber (r.between r') = u.renumber r' := by
  have hgroup : (u.group.map r.group).map (r.between r').group = u.group.map r'.group := by
    rw [Option.map_map]
    exact Option.map_congr fun n _ => between_group hr n
  simp only [SolvedUse.renumber, between_use hr, hgroup]

theorem renumber_between_violation (v : Violation) :
    (v.renumber r).renumber (r.between r') = v.renumber r' := by
  cases v <;> simp only [Violation.renumber, between_use hr]

theorem renumber_between_plan (plan : Plan) :
    (plan.renumber r).renumber (r.between r') = plan.renumber r' := by
  have hplacement : ∀ placement : Placement,
      (placement.renumber r).renumber (r.between r') = placement.renumber r' := by
    intro placement
    cases placement with
    | region id => rfl
    | individual points => rfl
    | transferred uses =>
      simp only [Placement.renumber, List.map_map]
      exact congrArg _ (List.map_congr_left fun i _ => between_use hr i)
  simp only [Plan.renumber, List.map_map]
  congr 1
  refine List.map_congr_left fun entry _ => ?_
  exact congrArg (Prod.mk entry.1) (hplacement entry.2)

end Renumbering

/-! ## Facts that agree about live code -/

/-- The facts are the same about live code, but for the numbers of uses and argument lists, and
these are in the same order. -/
structure Facts.AgreeOnLive (facts : Facts) (r : Renumbering) (facts' : Facts) : Prop where
  use_mono : StrictMonoOn r.use {i | ∃ u ∈ facts.solution.liveUses, u.id = i}
  group_mono : StrictMonoOn r.group {n | ∃ u ∈ facts.solution.liveUses, u.group = some n}
  reachable : facts'.solution.reachable = facts.solution.reachable
  uses : facts'.solution.liveUses = facts.solution.liveUses.map (SolvedUse.renumber r)
  modes : facts'.solution.modes = facts.solution.modes
  signature : facts'.solution.signature = facts.solution.signature
  conflicts : facts'.solution.conflicts = facts.solution.conflicts

variable {env : Environment} {f g : Func} {facts facts' core : Facts} {r r' : Renumbering}

theorem Facts.PrunedTo.agreeOnLive (h : facts.PrunedTo r core) (h' : facts'.PrunedTo r' core) :
    facts.AgreeOnLive (r.between r') facts' where
  use_mono := by
    rintro _ ⟨u, hu, rfl⟩ _ ⟨v, hv, rfl⟩ hlt
    rw [h.uses, List.mem_map] at hu hv
    obtain ⟨u, -, rfl⟩ := hu
    obtain ⟨v, -, rfl⟩ := hv
    simp only [SolvedUse.renumber_toUse, Use.renumber_id, Renumbering.between_use h.increasing]
    exact h'.increasing.use (h.increasing.use.lt_iff_lt.mp hlt)
  group_mono := by
    rintro _ ⟨u, hu, hn⟩ _ ⟨v, hv, hm⟩ hlt
    rw [h.uses, List.mem_map] at hu hv
    obtain ⟨u, -, rfl⟩ := hu
    obtain ⟨v, -, rfl⟩ := hv
    obtain ⟨n, -, rfl⟩ := Option.map_eq_some_iff.mp hn
    obtain ⟨m, -, rfl⟩ := Option.map_eq_some_iff.mp hm
    simp only [Renumbering.between_group h.increasing]
    exact h'.increasing.group (h.increasing.group.lt_iff_lt.mp hlt)
  reachable := h'.reachable.symm.trans h.reachable
  uses := by
    rw [h.uses, h'.uses, List.map_map]
    exact List.map_congr_left fun u _ => (Renumbering.renumber_between_use h.increasing u).symm
  modes := h'.modes.symm.trans h.modes
  signature := h'.signature.symm.trans h.signature
  conflicts := h'.conflicts.symm.trans h.conflicts

namespace Environment

/-- Functions with the same live code have one pruned form. -/
theorem exists_common_core (hf : f.Valid) (hg : g.Valid) (hsame : f.SameLive g)
    (hfacts : env.facts f = .ok facts) (hfacts' : env.facts g = .ok facts') :
    ∃ r r' core, core.Of env core.func ∧ core.func.Valid ∧ facts.PrunedTo r core ∧
      facts'.PrunedTo r' core := by
  have hsolved := (of_facts hfacts).solved
  have hlive : ∀ b, b ∈ facts.solution.reachable ↔ f.Reachable ⟨b, 0⟩ :=
    fun b => hsolved.mem_reachable_iff hf
  have hreachable : facts'.solution.reachable = facts.solution.reachable := by
    have heq := (hsame.agrees hlive).reachable_eq
    rw [hsolved.reachable, (of_facts hfacts').solved.reachable] at heq
    exact Except.ok.inj heq
  obtain ⟨r, core, hcore, h⟩ := exists_prunedTo hf hfacts
  obtain ⟨r', core', hcore', h'⟩ := exists_prunedTo hg hfacts'
  rw [hreachable, hsame.prune_eq hf hg hlive] at hcore'
  obtain rfl : core = core' := Except.ok.inj (hcore.symm.trans hcore')
  have hof := of_facts hcore
  refine ⟨r, r', core, hof.func.symm ▸ hof, ?_, h, h'⟩
  rw [hof.func]
  exact Func.prune_valid hf _

/-- Two results that come from a common one by renumbering come from each other. -/
theorem map_between {α : Type} {c : Renumbering → α → α}
    (hc : ∀ a, c (r.between r') (c r a) = c r' a) {x y z : Except Fault α}
    (hx : x = z.map (c r)) (hy : y = z.map (c r')) : y = x.map (c (r.between r')) := by
  subst hx hy
  cases z with
  | error fault => rfl
  | ok a => exact congrArg Except.ok (hc a).symm

/-- Take two accepted functions that are equal but for the statements and terminators of
unreachable blocks. Up to the numbers of uses they have the same solution on live code, the same
reports on uses after moves and the same plan. They also have the same reports on conflicting
borrows, if the holders of live loans have the same aliases in both: from the given aliases on, the
check looks at live code only. -/
theorem dead_code_irrelevant_but_for_aliases (env : Environment) (f g : Func)
    (hf : env.program.validateFunction f = .ok ()) (hg : env.program.validateFunction g = .ok ())
    (hsame : f.SameLive g) :
    ∃ facts facts' r, env.facts f = .ok facts ∧ env.facts g = .ok facts' ∧
      facts.AgreeOnLive r facts' ∧
      Linearity.violations facts' =
        (Linearity.violations facts).map (List.map (Violation.renumber r)) ∧
      (∀ aliases, Exclusivity.violationsWith aliases facts' =
        (Exclusivity.violationsWith aliases facts).map (List.map (Violation.renumber r))) ∧
      ((∀ loan ∈ Exclusivity.loans facts.solution, f.Reachable loan.point → ∀ a,
          a ∈ Exclusivity.ownAliases facts.solution.uses loan.holder ↔
            a ∈ Exclusivity.ownAliases facts'.solution.uses loan.holder) →
        Exclusivity.violations facts' =
          (Exclusivity.violations facts).map (List.map (Violation.renumber r))) ∧
      ∀ config, facts'.plan config = (facts.plan config).map (Plan.renumber r) := by
  have hfv := Program.valid_of_validateFunction hf
  have hgv := Program.valid_of_validateFunction hg
  obtain ⟨facts, hfacts⟩ := env.facts_isOk hfv
  obtain ⟨facts', hfacts'⟩ := env.facts_isOk hgv
  obtain ⟨r, r', core, hcoreOf, hcore, h, h'⟩ := exists_common_core hfv hgv hsame hfacts hfacts'
  have hof := of_facts hfacts
  have hof' := of_facts hfacts'
  obtain rfl := hof.func
  obtain rfl := hof'.func
  have hviolations : ∀ vs : List Violation, List.map (Violation.renumber (r.between r'))
      (List.map (Violation.renumber r) vs) = List.map (Violation.renumber r') vs := by
    intro vs
    rw [List.map_map]
    exact List.map_congr_left fun v _ => Renumbering.renumber_between_violation h.increasing v
  have hwith : ∀ aliases, Exclusivity.violationsWith aliases facts' =
      (Exclusivity.violationsWith aliases facts).map
        (List.map (Violation.renumber (r.between r'))) := fun aliases =>
    map_between (c := fun r => List.map (Violation.renumber r)) hviolations
      (Exclusivity.violationsWith_eq hfv hcore h aliases)
      (Exclusivity.violationsWith_eq hgv hcore h' aliases)
  refine ⟨facts, facts', r.between r', hfacts, hfacts', h.agreeOnLive h', ?_, hwith, ?_, ?_⟩
  · exact map_between (c := fun r => List.map (Violation.renumber r)) hviolations
      (Linearity.violations_eq hfv h) (Linearity.violations_eq hgv h')
  · intro haliases
    rw [Exclusivity.violations_eq_violationsWith, Exclusivity.violations_eq_violationsWith, hwith]
    congr 1
    refine Exclusivity.violationsWith_congr hfv (fun b hb => h.agrees.mem_iff.mp hb) ?_
    exact fun loan hloan hlive a => (haliases loan hloan hlive a).symm
  · exact fun config => map_between (Renumbering.renumber_between_plan h.increasing)
      (h.plan_eq hfv hof hcore hcoreOf config) (h'.plan_eq hgv hof' hcore hcoreOf config)

/-- A parameter is lent to a holder and updated later, when the holder is not needed any more. Then
another reference is read. What stands in the second block is never evaluated. -/
def lentBefore (dead : List Statement) : Func where
  id := 0
  name := "swap"
  span := ⟨0, 80⟩
  params := [0]
  bindings := [
    ⟨"x", .named "Data", .param, 0, none, ⟨1, 2⟩⟩,
    ⟨"h", .ref (.named "Data"), .letBound, 0, none, ⟨3, 4⟩⟩,
    ⟨"a", .ref (.named "Data"), .varBound, 0, none, ⟨5, 6⟩⟩]
  blocks := [
    ⟨0, 0,
      [⟨.assign 1 (.ref (.binding ⟨0, none, ⟨11, 12⟩⟩) false), ⟨10, 12⟩⟩,
        ⟨.assign 2 (.call (.foreign "make") []), ⟨13, 15⟩⟩,
        ⟨.eval (.call (.foreign "update") [.binding ⟨0, none, ⟨17, 18⟩⟩]), ⟨16, 18⟩⟩,
        ⟨.eval (.call (.foreign "inspect") [.binding ⟨2, none, ⟨20, 21⟩⟩]), ⟨19, 21⟩⟩],
      some ⟨.ret none, ⟨30, 36⟩⟩⟩,
    ⟨1, 0, dead, some ⟨.ret none, ⟨60, 66⟩⟩⟩]
  regions := [⟨0, .body, none, none, ⟨0, 80⟩⟩]
  allocations := []
  isAsync := false

/-- In dead code the holder is moved on to the other reference. -/
def deadHandOver : Func :=
  lentBefore [⟨.assign 2 (.use (.binding ⟨1, none, ⟨51, 52⟩⟩)), ⟨50, 52⟩⟩]

private theorem deadHandOver_sameLive : (lentBefore []).SameLive deadHandOver where
  rest := rfl
  length := rfl
  label {b block block'} hb hb' := by
    match b with
    | 0 => cases hb; cases hb'; exact ⟨rfl, rfl⟩
    | 1 => cases hb; cases hb'; exact ⟨rfl, rfl⟩
    | _ + 2 => cases hb
  live {b} hb := by
    have horder : (lentBefore []).reversePostorder = .ok [0] := by decide +kernel
    obtain ⟨order, horder', ht⟩ :=
      Func.reversePostorder_spec (Func.valid_of_validate (f := lentBefore []) (by decide +kernel))
    obtain rfl := Except.ok.inj (horder.symm.trans horder')
    obtain rfl := List.mem_singleton.mp (ht.reachable_iff.mp hb).1
    rfl

/-- The move of the holder in dead code is reported as a conflict in live code. All else is the same
in both functions. -/
theorem deadHandOver_reported :
    lendingEnv.program.validateFunction (lentBefore []) = .ok () ∧
    lendingEnv.program.validateFunction deadHandOver = .ok () ∧
    (lentBefore []).SameLive deadHandOver ∧
    ∃ facts facts' r, lendingEnv.facts (lentBefore []) = .ok facts ∧
      lendingEnv.facts deadHandOver = .ok facts' ∧ facts.AgreeOnLive r facts' ∧
      Linearity.violations facts = .ok [] ∧ Linearity.violations facts' = .ok [] ∧
      facts'.plan .default = (facts.plan .default).map (Plan.renumber r) ∧
      Exclusivity.violations facts = .ok [] ∧
      Exclusivity.violations facts' =
        .ok [.conflictingBorrow "x" 1 ⟨17, 18⟩ .mutableBorrow ⟨11, 12⟩ .immutableBorrow] ∧
      2 ∉ Exclusivity.ownAliases facts.solution.uses 1 ∧
      2 ∈ Exclusivity.ownAliases facts'.solution.uses 1 := by
  have hvalid : lendingEnv.program.validateFunction (lentBefore []) = .ok () := by
    decide +kernel
  have hvalid' : lendingEnv.program.validateFunction deadHandOver = .ok () := by
    decide +kernel
  have hrun : (lendingEnv.facts (lentBefore []) >>= fun facts =>
      pure (Linearity.violations facts, Exclusivity.violations facts,
        Exclusivity.ownAliases facts.solution.uses 1)) = .ok (.ok [], .ok [], [1]) := by
    decide +kernel
  have hrun' : (lendingEnv.facts deadHandOver >>= fun facts =>
      pure (Exclusivity.violations facts, Exclusivity.ownAliases facts.solution.uses 1)) =
        .ok (.ok [.conflictingBorrow "x" 1 ⟨17, 18⟩ .mutableBorrow ⟨11, 12⟩ .immutableBorrow],
          [1, 2]) := by
    decide +kernel
  obtain ⟨facts, facts', r, hfacts, hfacts', hagree, hlinear, -, -, hplan⟩ :=
    dead_code_irrelevant_but_for_aliases lendingEnv (lentBefore []) deadHandOver hvalid
      hvalid' deadHandOver_sameLive
  rw [hfacts, ok_bind, pure_eq_ok, Prod.mk.injEq, Prod.mk.injEq] at hrun
  rw [hfacts', ok_bind, pure_eq_ok, Prod.mk.injEq] at hrun'
  obtain ⟨hmoves, hclean, haliases⟩ := hrun
  obtain ⟨hreported, haliases'⟩ := hrun'
  refine ⟨hvalid, hvalid', deadHandOver_sameLive, facts, facts', r, hfacts, hfacts', hagree, hmoves,
    ?_, hplan .default, hclean, hreported, by rw [haliases]; decide, by rw [haliases']; decide⟩
  rw [hlinear, hmoves]
  rfl

end Environment

end Tenure

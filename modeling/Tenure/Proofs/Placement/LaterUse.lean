import Tenure.Proofs.Placement.FreedAgain
import Tenure.Proofs.Placement.Holders
import Tenure.Proofs.Placement.Lost

/-!
# No use of a carrier after a free

The analysis of single frees forgets all holders where it frees a value, so its sets do not contain
all that a path carries. But they contain every carrier that is still live (`live_carrier_place`,
`live_carrier_run`): what is live after a point keeps the value from being freed there. A value is
freed where no holder is live, so no carrier is live after a free point on any path to it, and a
path uses a carrier again only after defining it anew (`carriers_dead_at_free_point`).
-/

namespace Tenure.Facts

variable {env : Environment} {f : Func} {facts : Facts} {site : AllocSite} {holders : Holders}
  {exits : List BindingSet} {q : Point} {x : BindingId} {held : BindingSet} {w v : FreePoint}
  {done rest mid : List FreePoint}

/-! ## Carriers that are live -/

section Runs

variable (hf : f.Valid) (h : facts.Of env f) (hsite : site ∈ f.usage.allocations)
  (hholders : facts.holders site = .ok holders)
  (hexits : facts.heldExits site holders = .ok exits)
include hf h hsite hholders hexits

/-- If the settled set at a place has every carrier that is live there, then so it is behind the
place. -/
theorem live_carrier_place (hw : f.Visits w) (hwidth : held.width = f.bindings.length)
    (hseen : ∀ x, held.contains x = true → facts.LiveAt w x →
      (facts.heldAt site holders exits w).contains x = true)
    (hx : (facts.carryPast site holders held w).contains x = true) (hlive : facts.LiveAfter w x) :
    (facts.heldAfter site holders exits w).contains x = true := by
  cases w with
  | edge b c => exact hseen x hx hlive
  | after p =>
    have hnext : (facts.passOn holders p (facts.receivers site holders p
        (facts.heldAt site holders exits (.after p)))
          (facts.heldAt site holders exits (.after p))).contains x = true := by
      rw [contains_next hf h hsite hholders (width_heldAt hf h hexits _)]
      rcases (contains_next hf h hsite hholders hwidth).mp hx with hx | ⟨hx, hconsumed, hdef⟩
      · left
        rw [mem_receivers] at hx ⊢
        apply hx.imp_right
        rintro ⟨u, hu, kind, hflow, hcarries, hholder⟩
        -- a binding that passes the value on is used there, and so it is live
        exact ⟨u, hu, kind, hflow, hseen _ hcarries (isLiveIn_of_use hf h hu), hholder⟩
      · right
        refine ⟨hseen x hx ?_, hconsumed, hdef⟩
        obtain ⟨order, ht, -⟩ := heldExits_settled hf h hexits
        show facts.liveness.isLiveIn p x = true
        rw [Func.isLiveIn_iff hf h.liveness (ht.reachable_iff.mp hw).2]
        exact Or.inr ⟨h.usage ▸ hdef, hlive⟩
    have hkept : ¬ (facts.heldStep site holders p
        (facts.heldAt site holders exits (.after p))).2 = true := by
      intro hfreed
      exact (heldStep_snd.mp hfreed).2.1 x hnext hlive
    show (facts.heldStep site holders p _).1.contains x = true
    rw [heldStep_fst_of_kept hkept]
    exact hnext

/-- Along a path the settled sets have every carrier that is still live. -/
theorem live_carrier_run (hchain : (w :: rest).IsChain f.Follows) (hw : f.Visits w)
    (hseen : ∀ x, (facts.carried site holders done).contains x = true → facts.LiveAfter w x →
      (facts.heldAfter site holders exits w).contains x = true)
    (hlast : (w :: rest).getLast? = some v)
    (hx : (facts.carried site holders (done ++ rest)).contains x = true)
    (hlive : facts.LiveAfter v x) :
    (facts.heldAfter site holders exits v).contains x = true := by
  induction rest generalizing w done with
  | nil =>
    obtain rfl : w = v := by simpa using hlast
    rw [List.append_nil] at hx
    exact hseen x hx hlive
  | cons w' rest ih =>
    obtain ⟨hstep, hchain⟩ := List.isChain_cons_cons.mp hchain
    have hseen' : ∀ y, (facts.carried site holders (done ++ [w'])).contains y = true →
        facts.LiveAfter w' y → (facts.heldAfter site holders exits w').contains y = true := by
      intro y hy hlive
      rw [carried_append_singleton] at hy
      refine live_carrier_place hf h hsite hholders hexits (hstep.visits hw) (width_carried h done)
        ?_ hy hlive
      intro z hz hlive
      apply heldAfter_subset hf h hexits hstep hw
      apply hseen z hz
      by_contra hdead
      exact not_liveAt_of_follows hf h hstep hdead hlive
    exact ih hchain (hstep.visits hw) hseen' (by simpa using hlast) (by simpa using hx)

/-- Where the value is freed, no carrier of any path from the allocation is live any more. -/
theorem carrier_dead_of_freesAt {path : List FreePoint}
    (hchain : (.after site.point :: path).IsChain f.Follows) (hreach : f.Reachable site.point)
    (hlast : (.after site.point :: path).getLast? = some w)
    (hfrees : facts.FreesAt site holders exits w)
    (hx : (facts.carried site holders (.after site.point :: path)).contains x = true) :
    ¬ facts.LiveAfter w x := by
  intro hlive
  have hfirst : ∀ y, (facts.carried site holders [.after site.point]).contains y = true →
      facts.LiveAfter (.after site.point) y →
        (facts.heldAfter site holders exits (.after site.point)).contains y = true := by
    intro y hy hlive
    rw [← List.nil_append [_], carried_append_singleton] at hy
    refine live_carrier_place hf h hsite hholders hexits hreach (width_carried h []) ?_ hy hlive
    intro z hz
    simp [carried] at hz
  have hheld := live_carrier_run hf h hsite hholders hexits hchain hreach hfirst hlast hx hlive
  exact dead_of_freesAt hfrees x hheld hlive

end Runs

/-- A path from a place where a binding is dead to a use of the binding defines it in between. -/
theorem exists_definition_of_dead (hf : f.Valid) (h : facts.Of env f) (hw : f.Visits w)
    (hchain : (w :: (mid ++ [.after q])).IsChain f.Follows) (hdead : ¬ facts.LiveAfter w x)
    {u : SolvedUse} (hu : u ∈ facts.solution.usesAt q) (hbinding : u.binding = x) :
    ∃ p, .after p ∈ mid ∧ facts.usage.definitionAt p = some x := by
  induction mid generalizing w with
  | nil =>
    have hstep : f.Follows w (.after q) := (List.isChain_cons_cons.mp hchain).1
    have hlive : facts.LiveAt (.after q) x := hbinding ▸ isLiveIn_of_use hf h hu
    exact absurd hlive (not_liveAt_of_follows hf h hstep hdead)
  | cons v mid ih =>
    obtain ⟨hstep, hchain⟩ := List.isChain_cons_cons.mp hchain
    have hdead' := not_liveAt_of_follows hf h hstep hdead
    have hv := hstep.visits hw
    by_cases hdef : ∃ p, v = .after p ∧ facts.usage.definitionAt p = some x
    · obtain ⟨p, rfl, hdef⟩ := hdef
      exact ⟨p, List.mem_cons_self, hdef⟩
    · have hafter : ¬ facts.LiveAfter v x := by
        cases v with
        | edge b c => exact hdead'
        | after p =>
          intro hlive
          obtain ⟨order, -, ht⟩ := Func.reversePostorder_spec hf
          apply hdead'
          show facts.liveness.isLiveIn p x = true
          rw [Func.isLiveIn_iff hf h.liveness (ht.reachable_iff.mp hv).2]
          exact Or.inr ⟨h.usage ▸ fun heq => hdef ⟨p, rfl, heq⟩, hlive⟩
      obtain ⟨p, hp, hdef⟩ := ih hv hchain hafter
      exact ⟨p, List.mem_cons_of_mem _ hp, hdef⟩

/-! ## Free points -/

/-- Take a valid function, an allocation that control can reach, and suppose that the analysis of
its holders comes to rest. Then the places where the settled sets say so are the free points. On
every path from where the allocation is made to one of them, none of the bindings that carry the
value along the path is live behind the free point: whatever way the path goes on, a use of such a
binding comes after a new definition of it.

A path that makes the allocation again counts its destination among the carriers from there on. -/
theorem carriers_dead_at_free_point (env : Environment) (f : Func)
    (hvalid : env.program.validateFunction f = .ok ()) :
    ∃ facts, env.facts f = .ok facts ∧ ∀ site ∈ f.usage.allocations, f.Reachable site.point →
      ∃ holders, facts.holders site = .ok holders ∧ (facts.ComesToRest site holders →
        ∃ exits points, facts.heldExits site holders = .ok exits ∧
          facts.freePoints site holders = .ok points ∧
          (∀ w, f.Visits w → (w ∈ points ↔ facts.FreesAt site holders exits w)) ∧
          ∀ w ∈ points, ∀ path, (.after site.point :: path).IsChain f.Follows →
            (.after site.point :: path).getLast? = some w →
            ∀ x, (facts.carried site holders (.after site.point :: path)).contains x = true →
              ¬ facts.LiveAfter w x ∧
              ∀ mid q, (w :: (mid ++ [.after q])).IsChain f.Follows →
                ∀ u ∈ facts.solution.usesAt q, u.binding = x →
                  ∃ p, .after p ∈ mid ∧ facts.usage.definitionAt p = some x) := by
  obtain ⟨hvalid', facts, hfacts, h⟩ := env.facts_of_validateFunction hvalid
  have hf := Func.valid_of_validate hvalid'
  refine ⟨facts, hfacts, fun site hsite hreach => ?_⟩
  obtain ⟨holders, hholders⟩ := holders_isOk hf h site
  refine ⟨holders, hholders, fun hrest => ?_⟩
  obtain ⟨order, horder, -⟩ := Func.reversePostorder_spec hf
  obtain ⟨points, hpoints⟩ := freePoints_isOk_iff.mpr ((heldExits_isOk_iff h horder).mpr hrest)
  obtain ⟨exits, hexits, hlisted⟩ := mem_freePoints hf h hpoints
  refine ⟨exits, points, hexits, hpoints, hlisted, fun w hw path hchain hlast x hx => ?_⟩
  have hvisits : f.Visits w :=
    Func.visits_of_isChain hchain hreach w (List.mem_of_getLast? hlast)
  have hdead : ¬ facts.LiveAfter w x :=
    carrier_dead_of_freesAt hf h hsite hholders hexits hchain hreach hlast
      ((hlisted w hvisits).mp hw) hx
  refine ⟨hdead, fun mid q hon u hu hbinding => ?_⟩
  exact exists_definition_of_dead hf h hvisits hon hdead hu hbinding

/-- Makes a value. One way gives it a new owner, takes a reference to that owner and looks at it;
the other way hands the value over. -/
def inspectedCopy : Func where
  id := 0
  name := "show"
  span := ⟨0, 40⟩
  params := []
  bindings := [⟨"x", .named "Data", .letBound, 0, none, ⟨1, 2⟩⟩,
    ⟨"y", .named "Data", .letBound, 0, none, ⟨2, 3⟩⟩,
    ⟨"r", .ref (.named "Data"), .letBound, 0, none, ⟨3, 4⟩⟩]
  blocks := [
    ⟨0, 0, [⟨.assign 0 (.alloc 0 []), ⟨5, 6⟩⟩],
      some ⟨.branch (.constant (.bool true)) 1 2, ⟨6, 7⟩⟩⟩,
    ⟨1, 0,
      [⟨.assign 1 (.use (.binding ⟨0, none, ⟨8, 9⟩⟩)), ⟨7, 9⟩⟩,
        ⟨.assign 2 (.ref (.binding ⟨1, none, ⟨11, 12⟩⟩) false), ⟨10, 12⟩⟩,
        ⟨.eval (.call (.foreign "inspect") [.binding ⟨2, none, ⟨14, 15⟩⟩]), ⟨13, 15⟩⟩],
      some ⟨.goto 3, ⟨16, 17⟩⟩⟩,
    ⟨2, 0, [⟨.eval (.call (.foreign "consume") [.binding ⟨0, none, ⟨19, 20⟩⟩]), ⟨18, 20⟩⟩],
      some ⟨.goto 3, ⟨21, 22⟩⟩⟩,
    ⟨3, 0, [], some ⟨.ret none, ⟨30, 36⟩⟩⟩]
  regions := [⟨0, .body, none, none, ⟨0, 40⟩⟩]
  allocations := [⟨5, 6⟩]
  isAsync := false

/-- The value is freed after the look at the reference. The way there has carried it in the new
owner and in the reference, and both are dead then. -/
theorem inspectedCopy_carriers_dead :
    refreshingEnv.program.validateFunction inspectedCopy = .ok () ∧
    ∃ facts holders points, refreshingEnv.facts inspectedCopy = .ok facts ∧
      facts.holders ⟨0, some 0, ⟨0, 0⟩, ⟨5, 6⟩⟩ = .ok holders ∧
      facts.freePoints ⟨0, some 0, ⟨0, 0⟩, ⟨5, 6⟩⟩ holders = .ok points ∧
      .after ⟨1, 2⟩ ∈ points ∧
      [.after ⟨0, 0⟩, .after ⟨0, 1⟩, .edge 0 1, .after ⟨1, 0⟩, .after ⟨1, 1⟩,
        .after ⟨1, 2⟩].IsChain inspectedCopy.Follows ∧
      (∀ x ∈ [1, 2], (facts.carried ⟨0, some 0, ⟨0, 0⟩, ⟨5, 6⟩⟩ holders [.after ⟨0, 0⟩,
        .after ⟨0, 1⟩, .edge 0 1, .after ⟨1, 0⟩, .after ⟨1, 1⟩, .after ⟨1, 2⟩]).contains x = true) ∧
      ∀ x ∈ [1, 2], ¬ facts.LiveAfter (.after ⟨1, 2⟩) x := by
  let site : AllocSite := ⟨0, some 0, ⟨0, 0⟩, ⟨5, 6⟩⟩
  let path : List FreePoint :=
    [.after ⟨0, 1⟩, .edge 0 1, .after ⟨1, 0⟩, .after ⟨1, 1⟩, .after ⟨1, 2⟩]
  have hvalid : refreshingEnv.program.validateFunction inspectedCopy = .ok () := by decide +kernel
  have hrun : (refreshingEnv.facts inspectedCopy >>= fun facts =>
      facts.holders site >>= fun holders => facts.freePoints site holders >>= fun points =>
        pure (points, (facts.carried site holders (.after ⟨0, 0⟩ :: path)).toList)) =
      .ok ([.after ⟨1, 2⟩], [1, 2]) := by decide +kernel
  have hchain : (.after ⟨0, 0⟩ :: path).IsChain inspectedCopy.Follows := by
    have hentry : inspectedCopy.blocks[0]? = some (inspectedCopy.blocks.get ⟨0, by decide⟩) := rfl
    have hway : inspectedCopy.blocks[1]? = some (inspectedCopy.blocks.get ⟨1, by decide⟩) := rfl
    simp only [path, List.isChain_cons_cons, List.isChain_singleton, and_true]
    exact ⟨.within hentry (by decide), .leave hentry (by decide), .arrive, .within hway (by decide),
      .within hway (by decide)⟩
  obtain ⟨facts, hfacts, hall⟩ := carriers_dead_at_free_point refreshingEnv inspectedCopy hvalid
  rw [hfacts, ok_bind] at hrun
  obtain ⟨holders, hholders, hrest⟩ := hall site (by decide) .refl
  rw [hholders, ok_bind] at hrun
  obtain ⟨points, hpoints, hrun⟩ := bind_eq_ok.mp hrun
  obtain ⟨hlisted, hcarried⟩ := Prod.mk.inj (pure_eq_ok.mp hrun)
  have hcontains : ∀ x ∈ [1, 2],
      (facts.carried site holders (.after ⟨0, 0⟩ :: path)).contains x = true := by
    intro x hx
    rw [← BindingSet.mem_toList, hcarried]
    exact hx
  obtain ⟨order, horder, -⟩ := Func.reversePostorder_spec (Program.valid_of_validateFunction hvalid)
  have hsettles : facts.ComesToRest site holders :=
    (heldExits_isOk_iff (Environment.of_facts hfacts) horder).mp
      (freePoints_isOk_iff.mp ⟨points, hpoints⟩)
  obtain ⟨-, points', -, hpoints', -, hdead⟩ := hrest hsettles
  obtain rfl := Except.ok.inj (hpoints.symm.trans hpoints')
  have hmem : .after ⟨1, 2⟩ ∈ points := by
    rw [hlisted]
    exact List.mem_singleton.mpr rfl
  refine ⟨hvalid, facts, holders, points, hfacts, hholders, hpoints, hmem, hchain, hcontains, ?_⟩
  intro x hx
  exact (hdead _ hmem path hchain rfl x (hcontains x hx)).1

end Tenure.Facts

import Tenure.Exclusivity
import Tenure.Linearity
import Tenure.Proofs.Placement.Held

/-!
# When a path frees a value twice

A value is freed when none of its holders is live any more. Freeing it after a point empties the set
of holders. Freeing it on an edge does not: dead owners stay in the set, and every further edge frees
the value again until the last of them is defined anew. Apart from what other ways into a block bring
in, this is the only way to a second free (`freed_again_iff`). A use that consumes the only owner
ends the frees of the path, as long as no owner gets the value back.
-/

namespace Tenure.Facts

variable {env : Environment} {f : Func} {facts : Facts} {site : AllocSite} {holders : Holders}
  {exits : List BindingSet} {p q : Point} {x : BindingId} {held : BindingSet} {w w' : FreePoint}
  {mid : List FreePoint}

section Steps

variable (hf : f.Valid) (h : facts.Of env f)
include hf h

theorem isLiveIn_of_use {u : SolvedUse} (hu : u ∈ facts.solution.usesAt p) :
    facts.liveness.isLiveIn p u.binding = true := by
  obtain ⟨hmem, rfl⟩ := Solution.mem_usesAt.mp hu
  replace hmem := h.solved.mem_usage hmem
  have hpoint : u.point ∈ f.pointsOf u.point.block :=
    Func.exists_step?_iff.mp (Func.step?_of_mem_uses hf hmem)
  rw [Func.isLiveIn_iff hf h.liveness hpoint]
  exact Or.inl ⟨u.toUse, Func.mem_usesAt.mpr ⟨hmem, rfl⟩, rfl⟩

/-- What is dead after a place is dead at the next one. -/
theorem not_liveAt_of_follows (hstep : f.Follows w w') (hdead : ¬ facts.LiveAfter w x) :
    ¬ facts.LiveAt w' x := by
  have hnext : ∀ {p q : Point}, f.Next p q → ¬ facts.liveness.isLiveOut p x = true →
      ¬ facts.liveness.isLiveIn q x = true := by
    intro p q hpq hout hin
    exact hout ((Func.isLiveOut_iff hf h.liveness (hpq.mem_pointsOf hf).1).mpr ⟨q, hpq, hin⟩)
  cases hstep with
  | within hb hi => exact hnext (.within hb hi) hdead
  | leave hb hc => exact hnext (.jump hb hc) hdead
  | arrive => exact hdead

variable (hsite : site ∈ f.usage.allocations) (hholders : facts.holders site = .ok holders)
include hsite hholders

/-- If all holders are dead, a point only drops the one that it defines. -/
theorem heldStep_of_dead (hheld : held.width = f.bindings.length) (hp : site.point ≠ p)
    (hdead : ∀ x, held.contains x = true → ¬ facts.liveness.isLiveIn p x = true) :
    ¬ (facts.heldStep site holders p held).2 = true ∧
      ∀ x, (facts.heldStep site holders p held).1.contains x = true ↔
        held.contains x = true ∧ facts.usage.definitionAt p ≠ some x := by
  have hreceivers : facts.receivers site holders p held = [] := by
    rw [List.eq_nil_iff_forall_not_mem]
    intro y hy
    rcases mem_receivers.mp hy with ⟨heq, -⟩ | ⟨u, hu, kind, -, hcontains, -⟩
    · exact hp heq
    · exact hdead _ hcontains (isLiveIn_of_use hf h hu)
  have hkept : ¬ (facts.heldStep site holders p held).2 = true := by
    intro hfreed
    obtain ⟨htouched, -⟩ := heldStep_snd.mp hfreed
    rcases htouched with hne | ⟨y, hy, hlive⟩
    · exact hne hreceivers
    · exact hdead y hy hlive
  refine ⟨hkept, fun x => ?_⟩
  rw [heldStep_fst_of_kept hkept, contains_next hf h hsite hholders hheld, hreceivers]
  constructor
  · rintro (hx | ⟨hx, -, hdef⟩)
    · simp at hx
    · exact ⟨hx, hdef⟩
  · rintro ⟨hx, hdef⟩
    refine Or.inr ⟨hx, ?_, hdef⟩
    rintro ⟨-, u, hu, rfl, -⟩
    exact hdead _ hx (isLiveIn_of_use hf h hu)

end Steps

/-! ## Dead holders along a path -/

section Runs

variable (hf : f.Valid) (h : facts.Of env f) (hsite : site ∈ f.usage.allocations)
  (hholders : facts.holders site = .ok holders)
  (hexits : facts.heldExits site holders = .ok exits)
include hf h hsite hholders hexits

/-- If all holders are dead when control comes to a place, then they are so when it has passed the
place, a point only drops the one that it defines, and it frees nothing. -/
theorem dead_place (hw : f.Visits w) (hne : w ≠ .after site.point)
    (hdead : ∀ x, (facts.heldAt site holders exits w).contains x = true → ¬ facts.LiveAt w x) :
    (∀ x, (facts.heldAfter site holders exits w).contains x = true ↔
      (facts.heldAt site holders exits w).contains x = true ∧
        ∀ p, w = .after p → facts.usage.definitionAt p ≠ some x) ∧
    (∀ x, (facts.heldAfter site holders exits w).contains x = true → ¬ facts.LiveAfter w x) ∧
    ∀ p, w = .after p → ¬ facts.FreesAt site holders exits w := by
  cases w with
  | after p =>
    have hp : site.point ≠ p := fun heq => hne (heq ▸ rfl)
    obtain ⟨hkept, hcontains⟩ := heldStep_of_dead hf h hsite hholders
      (width_heldAt hf h hexits (.after p)) hp hdead
    refine ⟨?_, ?_, fun _ _ => hkept⟩
    · intro x
      rw [show facts.heldAfter site holders exits (.after p) =
        (facts.heldStep site holders p (facts.heldAt site holders exits (.after p))).1 from rfl,
        hcontains]
      simp
    · intro x hx hlive
      obtain ⟨hx, hdef⟩ := (hcontains x).mp hx
      obtain ⟨order, ht, -⟩ := heldExits_settled hf h hexits
      refine hdead x hx ((Func.isLiveIn_iff hf h.liveness (ht.reachable_iff.mp hw).2).mpr ?_)
      exact Or.inr ⟨h.usage ▸ hdef, hlive⟩
  | edge b c =>
    refine ⟨fun x => ?_, hdead, ?_⟩
    · show (facts.heldAt site holders exits (.edge b c)).contains x = true ↔ _
      simp
    · intro p heq
      cases heq

/-- Dead holders stay dead and in the set until they are defined. -/
theorem dead_run (hchain : (w :: (mid ++ [w'])).IsChain f.Follows) (hw : f.Visits w)
    (hdead : ∀ x, (facts.heldAfter site holders exits w).contains x = true → ¬ facts.LiveAfter w x)
    (hjoins : ∀ v ∈ w :: mid, facts.JoinsNothing site holders exits v)
    (hmid : .after site.point ∉ mid) :
    (∀ x, (facts.heldAt site holders exits w').contains x = true ↔
      (facts.heldAfter site holders exits w).contains x = true ∧
        ∀ p, .after p ∈ mid → facts.usage.definitionAt p ≠ some x) ∧
    ∀ x, (facts.heldAt site holders exits w').contains x = true → ¬ facts.LiveAt w' x := by
  induction mid generalizing w with
  | nil =>
    have hstep : f.Follows w w' := (List.isChain_cons_cons.mp hchain).1
    have hiff := fun x => contains_heldAt_iff (x := x) hf h hexits hstep hw (hjoins w (by simp))
    refine ⟨fun x => by rw [hiff]; simp, fun x hx => ?_⟩
    exact not_liveAt_of_follows hf h hstep (hdead x ((hiff x).mp hx))
  | cons v mid ih =>
    obtain ⟨hstep, hchain⟩ := List.isChain_cons_cons.mp hchain
    have hiff := fun x => contains_heldAt_iff (x := x) hf h hexits hstep hw (hjoins w (by simp))
    have hne : v ≠ .after site.point := fun heq => hmid (heq ▸ List.mem_cons_self)
    obtain ⟨hafter, hdead', -⟩ := dead_place hf h hsite hholders hexits (hstep.visits hw) hne
      fun x hx => not_liveAt_of_follows hf h hstep (hdead x ((hiff x).mp hx))
    obtain ⟨hcontains, hlive⟩ := ih hchain (hstep.visits hw) hdead'
      (fun u hu => hjoins u (List.mem_cons_of_mem _ hu))
      (fun hmem => hmid (List.mem_cons_of_mem _ hmem))
    refine ⟨fun x => ?_, hlive⟩
    rw [hcontains, hafter, hiff, and_assoc]
    refine and_congr_right fun _ => ⟨?_, ?_⟩
    · rintro ⟨hv, hrest⟩ p hp
      rcases List.mem_cons.mp hp with heq | hp
      · exact hv p heq.symm
      · exact hrest p hp
    · intro hall
      exact ⟨fun p heq => hall p (heq ▸ List.mem_cons_self),
        fun p hp => hall p (List.mem_cons_of_mem _ hp)⟩

end Runs

/-! ## Second frees -/

/-- Where a value is freed, no holder is live any more. -/
theorem dead_of_freesAt (hfrees : facts.FreesAt site holders exits w) :
    ∀ x, (facts.heldAfter site holders exits w).contains x = true → ¬ facts.LiveAfter w x := by
  intro x hx
  cases w with
  | after p =>
    have hempty : facts.heldAfter site holders exits (.after p) = .empty _ :=
      heldStep_fst_of_freed hfrees
    rw [hempty, BindingSet.contains_empty] at hx
    simp at hx
  | edge b c => exact hfrees.2 x hx

/-- A second free after a first one: an edge after an edge, and some owner that was held on the
first edge is not defined in between. -/
theorem freesAt_again_iff (hf : f.Valid) (h : facts.Of env f) (hsite : site ∈ f.usage.allocations)
    (hholders : facts.holders site = .ok holders)
    (hexits : facts.heldExits site holders = .ok exits)
    (hchain : (w :: (mid ++ [w'])).IsChain f.Follows) (hw : f.Visits w)
    (hfrees : facts.FreesAt site holders exits w)
    (hjoins : ∀ v ∈ w :: mid, facts.JoinsNothing site holders exits v)
    (hmid : .after site.point ∉ mid ++ [w']) :
    facts.FreesAt site holders exits w' ↔ ∃ b c b' c', w = .edge b c ∧ w' = .edge b' c' ∧
      ∃ x ∈ holders.owners, (facts.heldAt site holders exits w).contains x = true ∧
        ∀ p, .after p ∈ mid → facts.usage.definitionAt p ≠ some x := by
  have hw' : f.Visits w' := Func.visits_of_isChain hchain hw w' (by simp)
  have hne : w' ≠ .after site.point := fun heq => hmid (heq ▸ by simp)
  obtain ⟨hheld, hdead⟩ := dead_run hf h hsite hholders hexits hchain hw (dead_of_freesAt hfrees)
    hjoins fun hmem => hmid (List.mem_append_left _ hmem)
  cases w' with
  | after q =>
    have hkept := (dead_place hf h hsite hholders hexits hw' hne hdead).2.2 q rfl
    simp [hkept]
  | edge b' c' =>
    rw [freesAt_edge_iff]
    constructor
    · rintro ⟨⟨x, howner, hx⟩, -⟩
      obtain ⟨hx, hdefs⟩ := (hheld x).mp hx
      cases w with
      | after p =>
        -- freeing after a point has left no holder
        have hempty : facts.heldAfter site holders exits (.after p) = .empty _ :=
          heldStep_fst_of_freed hfrees
        rw [hempty, BindingSet.contains_empty] at hx
        cases hx
      | edge b c => exact ⟨b, c, b', c', rfl, rfl, x, howner, hx, hdefs⟩
    · rintro ⟨b, c, _, _, rfl, -, x, howner, hx, hdefs⟩
      exact ⟨⟨x, howner, (hheld x).mpr ⟨hx, hdefs⟩⟩, hdead⟩

/-- What lies between two places of a path is a path, and it comes after the start. -/
theorem isChain_between {path front rest : List FreePoint} {start : FreePoint}
    (hpath : start :: path = front ++ w :: (mid ++ w' :: rest))
    (hchain : (start :: path).IsChain f.Follows) :
    (w :: (mid ++ [w'])).IsChain f.Follows ∧ ∀ v ∈ mid ++ [w'], v ∈ path := by
  have hsplit : w :: (mid ++ w' :: rest) = w :: (mid ++ [w']) ++ rest := by simp
  rw [hsplit] at hpath
  constructor
  · rw [hpath] at hchain
    exact hchain.right_of_append.left_of_append
  · intro v hv
    cases front with
    | nil =>
      rw [(List.cons.inj hpath).2]
      exact List.mem_append_left _ hv
    | cons _ front =>
      rw [(List.cons.inj hpath).2]
      exact List.mem_append_right _ (List.mem_append_left _ (List.mem_cons_of_mem _ hv))

/-- Take a valid function, an allocation that is freed by itself, and any path that starts where the
allocation is made and does not make it again. Suppose that the path crosses a free point, and that
up to some later place no other way into a block brings in a holder. Then the later place is a free
point too if and only if both are edges and some owner that held the value on the first edge is not
defined in between.

Nor does the path cross a free point after a use that hands the value over, provided that the use
consumes the only owner that holds the value then, and that from there on no owner receives it and no
other way brings in a holder. -/
theorem freed_again_iff (env : Environment) (f : Func) (config : Config)
    (hvalid : env.program.validateFunction f = .ok ()) :
    ∃ facts, env.facts f = .ok facts ∧ ∀ plan, facts.plan config = .ok plan →
      ∀ site ∈ f.usage.allocations, ∀ points,
        (site.alloc, .individual points) ∈ plan.placements →
        ∃ holders exits, facts.holders site = .ok holders ∧
          facts.heldExits site holders = .ok exits ∧
          ∀ path, (.after site.point :: path).IsChain f.Follows → .after site.point ∉ path →
            (∀ front w mid w' rest,
              .after site.point :: path = front ++ w :: (mid ++ w' :: rest) → w ∈ points →
              (∀ v ∈ w :: mid, facts.JoinsNothing site holders exits v) →
              (w' ∈ points ↔ ∃ b c b' c', w = .edge b c ∧ w' = .edge b' c' ∧
                ∃ x ∈ holders.owners, (facts.heldAt site holders exits w).contains x = true ∧
                  ∀ p, .after p ∈ mid → facts.usage.definitionAt p ≠ some x)) ∧
            (∀ front p rest, .after site.point :: path = front ++ .after p :: rest →
              ∀ u ∈ facts.solution.usesAt p, facts.isTransfer u = true → u.consumes = true →
              (∀ x ∈ holders.owners, (facts.heldAt site holders exits (.after p)).contains x = true →
                x = u.binding) →
              (∀ v ∈ .after p :: rest, facts.JoinsNothing site holders exits v) →
              (∀ q, .after q ∈ .after p :: rest → ∀ x ∈ facts.receivers site holders q
                (facts.heldAt site holders exits (.after q)), x ∉ holders.owners) →
              ∀ w ∈ .after p :: rest, w ∉ points) := by
  obtain ⟨hvalid', facts, hfacts, h⟩ := env.facts_of_validateFunction hvalid
  have hf := Func.valid_of_validate hvalid'
  refine ⟨facts, hfacts, fun plan hplan site hsite points hmem => ?_⟩
  obtain ⟨hreach, holders, exits, hholders, hexits, hlisted, -⟩ :=
    placed_alone hvalid' h hplan hsite hmem (fun r heq => by cases heq)
  replace hlisted : ∀ w, f.Visits w → (w ∈ points ↔ facts.FreesAt site holders exits w) := hlisted
  refine ⟨holders, exits, hholders, hexits, fun path hchain honce => ⟨?_, ?_⟩⟩
  · intro front w mid w' rest hpath hw hjoins
    obtain ⟨hpart, hlater⟩ := isChain_between hpath hchain
    have hvisits := Func.visits_of_isChain hchain hreach
    have hvw := hvisits w (by simp [hpath])
    have hvw' := hvisits w' (by simp [hpath])
    rw [hlisted w' hvw']
    exact freesAt_again_iff hf h hsite hholders hexits hpart hvw ((hlisted w hvw).mp hw) hjoins
      fun hmem => honce (hlater _ hmem)
  · intro front p rest hpath u hu _ hconsumes honly hjoins hreceives
    have hvisits := Func.visits_of_isChain hchain hreach
    rw [hpath] at hchain hvisits
    -- the use has consumed the only owner, so none is left after the point
    have hnext : ∀ x ∈ holders.owners, ¬ (facts.passOn holders p (facts.receivers site holders p
        (facts.heldAt site holders exits (.after p)))
          (facts.heldAt site holders exits (.after p))).contains x = true := by
      intro x howner hx
      rw [contains_next hf h hsite hholders (width_heldAt hf h hexits _)] at hx
      rcases hx with hx | ⟨hx, hnot, -⟩
      · exact hreceives p List.mem_cons_self x hx howner
      · exact hnot ⟨howner, u, hu, (honly x howner hx).symm, hconsumes⟩
    intro w hw
    rw [hlisted w (hvisits w (List.mem_append_right _ hw))]
    exact not_freesAt_of_unowned hf h hsite hholders hexits hchain.right_of_append
      (hvisits (.after p) (by simp)) hnext hjoins hreceives w hw

/-- Makes a value and hands it over on one of two ways to the return; the other way does nothing. -/
def idleBranch : Func where
  id := 0
  name := "offer"
  span := ⟨0, 40⟩
  params := []
  bindings := [⟨"x", .named "Data", .letBound, 0, none, ⟨1, 2⟩⟩]
  blocks := [
    ⟨0, 0, [⟨.assign 0 (.alloc 0 []), ⟨3, 4⟩⟩],
      some ⟨.branch (.constant (.bool true)) 1 2, ⟨5, 6⟩⟩⟩,
    ⟨1, 0, [⟨.eval (.call (.foreign "consume") [.binding ⟨0, none, ⟨8, 9⟩⟩]), ⟨7, 9⟩⟩],
      some ⟨.goto 3, ⟨10, 11⟩⟩⟩,
    ⟨2, 0, [], some ⟨.goto 3, ⟨12, 13⟩⟩⟩,
    ⟨3, 0, [], some ⟨.ret none, ⟨30, 36⟩⟩⟩]
  regions := [⟨0, .body, none, none, ⟨0, 40⟩⟩]
  allocations := [⟨3, 4⟩]
  isAsync := false

/-- No check finds a fault in the function. On the idle way the value is freed on the edge into the
way and again on the edge out of it. -/
theorem idleBranch_freed_twice :
    consumingEnv.program.validateFunction idleBranch = .ok () ∧
    ∃ facts plan points, consumingEnv.facts idleBranch = .ok facts ∧
      facts.solution.conflicts = [] ∧ Linearity.violations facts = .ok [] ∧
      Exclusivity.violations facts = .ok [] ∧ facts.plan .default = .ok plan ∧ plan.escapes = [] ∧
      (0, .individual points) ∈ plan.placements ∧
      [.after ⟨0, 0⟩, .after ⟨0, 1⟩, .edge 0 2, .after ⟨2, 0⟩, .edge 2 3, .after ⟨3, 0⟩].IsChain
        idleBranch.Follows ∧
      .edge 0 2 ∈ points ∧ .edge 2 3 ∈ points := by
  let site : AllocSite := ⟨0, some 0, ⟨0, 0⟩, ⟨3, 4⟩⟩
  have hvalid : consumingEnv.program.validateFunction idleBranch = .ok () := by decide +kernel
  have hclean : (consumingEnv.facts idleBranch >>= fun facts => pure (facts.solution.conflicts,
      Linearity.violations facts, Exclusivity.violations facts)) = .ok ([], .ok [], .ok []) := by
    decide +kernel
  have hplanned : (consumingEnv.facts idleBranch >>= fun facts =>
      facts.plan .default >>= fun plan => pure (plan.escapes, plan.placements)) =
        .ok ([], [(0, .individual [.edge 0 2, .edge 2 3])]) := by decide +kernel
  have hheld : (consumingEnv.facts idleBranch >>= fun facts => facts.holders site >>= fun holders =>
      facts.heldExits site holders >>= fun exits =>
        pure (holders, facts.heldAt site holders exits (.edge 0 2),
          facts.heldAt site holders exits (.after ⟨2, 0⟩), facts.usage.definitionAt ⟨2, 0⟩)) =
        .ok (⟨[0], []⟩, ⟨[true]⟩, ⟨[true]⟩, none) := by decide +kernel
  have hchain : [.after ⟨0, 0⟩, .after ⟨0, 1⟩, .edge 0 2, .after ⟨2, 0⟩, .edge 2 3,
      .after ⟨3, 0⟩].IsChain idleBranch.Follows := by
    have hentry : idleBranch.blocks[0]? = some (idleBranch.blocks.get ⟨0, by decide⟩) := rfl
    have hidle : idleBranch.blocks[2]? = some (idleBranch.blocks.get ⟨2, by decide⟩) := rfl
    simp only [List.isChain_cons_cons, List.isChain_singleton, and_true]
    exact ⟨.within hentry (by decide), .leave hentry (by decide), .arrive,
      .leave hidle (by decide), .arrive⟩
  obtain ⟨facts, hfacts, hall⟩ := freed_again_iff consumingEnv idleBranch .default hvalid
  rw [hfacts, ok_bind] at hclean hplanned hheld
  rw [pure_eq_ok, Prod.mk.injEq, Prod.mk.injEq] at hclean
  obtain ⟨hconflicts, hlinear, hexclusive⟩ := hclean
  obtain ⟨plan, hplan, hplanned⟩ := bind_eq_ok.mp hplanned
  obtain ⟨hescapes, hplacements⟩ := Prod.mk.inj (pure_eq_ok.mp hplanned)
  have hmem : (0, .individual [.edge 0 2, .edge 2 3]) ∈ plan.placements := by
    rw [hplacements]
    exact List.mem_singleton.mpr rfl
  obtain ⟨holders, exits, hholders, hexits, hpaths⟩ := hall plan hplan site (by decide) _ hmem
  rw [hholders, ok_bind, hexits, ok_bind, pure_eq_ok, Prod.mk.injEq, Prod.mk.injEq,
    Prod.mk.injEq] at hheld
  obtain ⟨rfl, hedge, hafter, hdef⟩ := hheld
  have hagain := ((hpaths _ hchain (by decide)).1 [.after ⟨0, 0⟩, .after ⟨0, 1⟩] (.edge 0 2)
    [.after ⟨2, 0⟩] (.edge 2 3) [.after ⟨3, 0⟩] rfl (by decide) ?_).mpr
      ⟨0, 2, 2, 3, rfl, rfl, 0, by decide, by rw [hedge]; rfl, ?_⟩
  · exact ⟨hvalid, facts, plan, _, hfacts, hconflicts, hlinear, hexclusive, hplan, hescapes, hmem,
      hchain, by decide, hagain⟩
  · intro v hv
    rcases List.mem_cons.mp hv with rfl | hv
    · intro x hx
      rw [hedge, ← hafter]
      exact hx
    · obtain rfl := List.mem_singleton.mp hv
      trivial
  · intro p hp
    obtain rfl := FreePoint.after.inj (List.mem_singleton.mp hp)
    rw [hdef]
    simp

end Tenure.Facts

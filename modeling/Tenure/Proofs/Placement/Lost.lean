import Tenure.Exclusivity
import Tenure.Linearity
import Tenure.Proofs.Placement.Held

/-!
# When a path neither frees a value nor hands it over

As long as an owner carries a value along a path and the value is not freed, some holder of it is
live: at the last place where one is, the value is freed. Nothing is live at a return. So a path that
ends in a return and frees nothing has lost its last owner on the way, either to a use that hands the
value over, or at a point that defines the owner or consumes it for another end
(`freed_transferred_or_lost`).
-/

namespace Tenure

namespace Facts

variable {env : Environment} {f : Func} {facts : Facts} {site : AllocSite} {holders : Holders}
  {exits : List BindingSet} {p q : Point} {x : BindingId} {held : BindingSet} {w w' : FreePoint}
  {done rest : List FreePoint}

/-! ## What a path carries -/

/-- The bindings that carry the value past a place. -/
def carryPast (facts : Facts) (site : AllocSite) (holders : Holders) (held : BindingSet) :
    FreePoint → BindingSet
  | .after p => facts.passOn holders p (facts.receivers site holders p held) held
  | .edge _ _ => held

/-- The bindings that carry the value when control has passed some places in a row. -/
def carried (facts : Facts) (site : AllocSite) (holders : Holders) (places : List FreePoint) :
    BindingSet :=
  places.foldl (facts.carryPast site holders) (.empty facts.func.bindings.length)

/-- The value is lost at the point: every owner that carries it there is defined, or consumed by a
use that does not hand it over, and no owner receives it. -/
structure LosesAt (facts : Facts) (site : AllocSite) (holders : Holders) (held : BindingSet)
    (p : Point) : Prop where
  gone : ∀ x ∈ holders.owners, held.contains x = true →
    facts.usage.definitionAt p = some x ∨ ∃ u ∈ facts.solution.usesAt p, u.binding = x ∧
      u.consumes = true ∧ facts.isTransfer u = false
  unreceived : ∀ x ∈ facts.receivers site holders p held, x ∉ holders.owners

theorem carried_append_singleton (places : List FreePoint) (w : FreePoint) :
    facts.carried site holders (places ++ [w]) =
      facts.carryPast site holders (facts.carried site holders places) w := by
  simp [carried, List.foldl_append]

theorem width_carried (h : facts.Of env f) (places : List FreePoint) :
    (facts.carried site holders places).width = f.bindings.length := by
  induction places using List.reverseRecOn with
  | nil => simp [carried, h.func]
  | append_singleton places w ih =>
    rw [carried_append_singleton]
    cases w with
    | after p => exact width_passOn.trans ih
    | edge b c => exact ih

section Runs

variable (hf : f.Valid) (h : facts.Of env f) (hsite : site ∈ f.usage.allocations)
  (hholders : facts.holders site = .ok holders)
include hf h hsite hholders

theorem passOn_mono {held' : BindingSet} (hwidth : held.width = f.bindings.length)
    (hwidth' : held'.width = f.bindings.length)
    (hsub : ∀ x, held.contains x = true → held'.contains x = true)
    (hx : (facts.passOn holders p (facts.receivers site holders p held) held).contains x = true) :
    (facts.passOn holders p (facts.receivers site holders p held') held').contains x = true := by
  rw [contains_next hf h hsite hholders hwidth] at hx
  rw [contains_next hf h hsite hholders hwidth']
  rcases hx with hx | ⟨hx, hkept⟩
  · exact Or.inl (receivers_mono hsub hx)
  · exact Or.inr ⟨hsub x hx, hkept⟩

/-- If no owner carries the value past a point and no use there hands it over, it is lost there. -/
theorem losesAt_of_not_owns (hwidth : held.width = f.bindings.length)
    (hnone : ¬ owns holders (facts.carryPast site holders held (.after p)) = true)
    (hstays : ∀ u ∈ facts.solution.usesAt p, u.binding ∈ holders.owners →
      held.contains u.binding = true → facts.isTransfer u = false) :
    facts.LosesAt site holders held p := by
  have hnext : ∀ x ∈ holders.owners,
      ¬ (facts.passOn holders p (facts.receivers site holders p held) held).contains x = true :=
    fun x howner hx => hnone (owns_iff.mpr ⟨x, howner, hx⟩)
  simp only [contains_next hf h hsite hholders hwidth] at hnext
  constructor
  · intro x howner hx
    by_cases hdef : facts.usage.definitionAt p = some x
    · exact Or.inl hdef
    · right
      by_contra hkept
      refine hnext x howner (Or.inr ⟨hx, ?_, hdef⟩)
      rintro ⟨-, u, hu, rfl, hconsumes⟩
      exact hkept ⟨u, hu, rfl, hconsumes, hstays u hu howner hx⟩
  · intro x hx howner
    exact hnext x howner (Or.inl hx)

variable (hexits : facts.heldExits site holders = .ok exits)
include hexits

omit hsite hholders in
/-- If some holder is live after a place that control can leave in one way only, then some holder is
live at the next place. -/
theorem exists_liveIn_of_follows (hstep : f.Follows w (.after q)) (hw : f.Visits w)
    (halive : ∃ x, (facts.heldAfter site holders exits w).contains x = true ∧
      facts.LiveAfter w x) :
    ∃ x, (facts.heldAt site holders exits (.after q)).contains x = true ∧
      facts.liveness.isLiveIn q x = true := by
  obtain ⟨x, hx, hlive⟩ := halive
  refine ⟨x, heldAfter_subset hf h hexits hstep hw hx, ?_⟩
  cases hstep with
  | within hb hi =>
    have hnext : f.Next _ _ := .within hb hi
    obtain ⟨q', hq', hlive⟩ :=
      (Func.isLiveOut_iff hf h.liveness (hnext.mem_pointsOf hf).1).mp hlive
    rcases (Func.next_iff hb).mp hq' with ⟨-, rfl⟩ | ⟨heq, -⟩
    · exact hlive
    · omega
  | arrive => exact hlive

/-- One step of the argument: if the value is carried past a point by an owner, the point was
touched and the value is not freed there, then some holder is live after it. -/
theorem alive_after (hsub : ∀ x, held.contains x = true →
      (facts.heldAt site holders exits (.after q)).contains x = true)
    (hwidth : held.width = f.bindings.length)
    (howns : owns holders (facts.carryPast site holders held (.after q)) = true)
    (htouched : facts.receivers site holders q (facts.heldAt site holders exits (.after q)) ≠ [] ∨
      ∃ x, (facts.heldAt site holders exits (.after q)).contains x = true ∧
        facts.liveness.isLiveIn q x = true)
    (hkept : ¬ facts.FreesAt site holders exits (.after q)) :
    (∀ x, (facts.carryPast site holders held (.after q)).contains x = true →
      (facts.heldAfter site holders exits (.after q)).contains x = true) ∧
    ∃ x, (facts.heldAfter site holders exits (.after q)).contains x = true ∧
      facts.LiveAfter (.after q) x := by
  have hafter : facts.heldAfter site holders exits (.after q) =
      facts.passOn holders q (facts.receivers site holders q
        (facts.heldAt site holders exits (.after q)))
          (facts.heldAt site holders exits (.after q)) := heldStep_fst_of_kept hkept
  have hmono := fun x => passOn_mono (p := q) (x := x) hf h hsite hholders hwidth
    (width_heldAt hf h hexits (.after q)) hsub
  rw [hafter]
  refine ⟨hmono, ?_⟩
  by_contra hdead
  obtain ⟨x, howner, hx⟩ := owns_iff.mp howns
  refine hkept (heldStep_snd.mpr ⟨htouched, ?_, x, howner, hmono x hx⟩)
  intro y hy hlive
  exact hdead ⟨y, hy, hlive⟩

/-- Along a path that frees nothing and on which an owner always carries the value on, some holder
is live after every place. -/
theorem alive_run (hchain : (w :: rest).IsChain f.Follows) (hw : f.Visits w)
    (hsub : ∀ x, (facts.carried site holders done).contains x = true →
      (facts.heldAfter site holders exits w).contains x = true)
    (howns : owns holders (facts.carried site holders done) = true)
    (halive : ∃ x, (facts.heldAfter site holders exits w).contains x = true ∧ facts.LiveAfter w x)
    (hkept : ∀ v ∈ rest, ¬ facts.FreesAt site holders exits v)
    (hcarried : ∀ front p back, rest = front ++ .after p :: back →
      owns holders (facts.carried site holders (done ++ front)) = true →
        owns holders (facts.carried site holders (done ++ front ++ [.after p])) = true) :
    ∀ v, (w :: rest).getLast? = some v → ∃ x, facts.LiveAfter v x := by
  induction rest generalizing w done with
  | nil =>
    intro v hv
    obtain rfl : w = v := by simpa using hv
    obtain ⟨x, -, hlive⟩ := halive
    exact ⟨x, hlive⟩
  | cons v rest ih =>
    obtain ⟨hstep, hchain⟩ := List.isChain_cons_cons.mp hchain
    have hheld : ∀ x, (facts.carried site holders done).contains x = true →
        (facts.heldAt site holders exits v).contains x = true := fun x hx =>
      heldAfter_subset hf h hexits hstep hw (hsub x hx)
    -- the same holds one place further on
    have hnext : (∀ x, (facts.carried site holders (done ++ [v])).contains x = true →
          (facts.heldAfter site holders exits v).contains x = true) ∧
        owns holders (facts.carried site holders (done ++ [v])) = true ∧
        ∃ x, (facts.heldAfter site holders exits v).contains x = true ∧ facts.LiveAfter v x := by
      cases v with
      | after q =>
        have howns' := hcarried [] q rest rfl (by simpa using howns)
        rw [List.append_nil, carried_append_singleton] at howns'
        rw [carried_append_singleton]
        obtain ⟨hsub', halive'⟩ := alive_after hf h hsite hholders hexits hheld
          (width_carried h done) howns'
          (Or.inr (exists_liveIn_of_follows hf h hexits hstep hw halive)) (hkept _ (by simp))
        exact ⟨hsub', howns', halive'⟩
      | edge b c =>
        rw [carried_append_singleton]
        refine ⟨hheld, howns, ?_⟩
        by_contra hdead
        obtain ⟨x, howner, hx⟩ := owns_iff.mp howns
        refine hkept _ List.mem_cons_self (freesAt_edge_iff.mpr ⟨⟨x, howner, hheld x hx⟩, ?_⟩)
        intro y hy hlive
        exact hdead ⟨y, hy, hlive⟩
    obtain ⟨hsub', howns', halive'⟩ := hnext
    intro last hlast
    refine ih hchain (hstep.visits hw) hsub' howns' halive'
      (fun u hu => hkept u (List.mem_cons_of_mem _ hu)) ?_ last (by simpa using hlast)
    intro front p back heq howns
    have hstep' := hcarried (v :: front) p back (by rw [heq, List.cons_append])
    simp only [List.append_assoc, List.cons_append, List.nil_append] at hstep' howns ⊢
    exact hstep' howns

/-- A path that starts where the value is made, frees nothing and never loses its last owner does
not come to a return. -/
theorem not_returnsAt_of_carried {path : List FreePoint} {ret : Point}
    (hchain : (.after site.point :: path).IsChain f.Follows) (hreach : f.Reachable site.point)
    (hkept : ∀ w ∈ .after site.point :: path, ¬ facts.FreesAt site holders exits w)
    (hcarried : ∀ front p rest, .after site.point :: path = front ++ .after p :: rest →
      front = [] ∨ owns holders (facts.carried site holders front) = true →
        owns holders (facts.carried site holders (front ++ [.after p])) = true)
    (hlast : (.after site.point :: path).getLast? = some (.after ret)) :
    ¬ f.returnsAt ret = true := by
  intro hreturn
  have howns := hcarried [] site.point path rfl (Or.inl rfl)
  have hempty : ∀ x, ¬ (facts.carried site holders []).contains x = true := by
    intro x hx
    rw [show facts.carried site holders [] = .empty _ from rfl, BindingSet.contains_empty] at hx
    cases hx
  have htouched : facts.receivers site holders site.point
      (facts.heldAt site holders exits (.after site.point)) ≠ [] := by
    rw [carried_append_singleton] at howns
    obtain ⟨x, -, hx⟩ := owns_iff.mp howns
    rcases (contains_next hf h hsite hholders (width_carried h [])).mp hx with hx | ⟨hx, -⟩
    · exact List.ne_nil_of_mem (receivers_mono (fun y hy => absurd hy (hempty y)) hx)
    · exact absurd hx (hempty x)
  obtain ⟨hsub, halive⟩ := alive_after hf h hsite hholders hexits
    (fun x hx => absurd hx (hempty x)) (width_carried h [])
    (by rw [← carried_append_singleton]; exact howns) (Or.inl htouched) (hkept _ List.mem_cons_self)
  rw [← carried_append_singleton] at hsub
  obtain ⟨x, hlive⟩ := alive_run hf h hsite hholders hexits hchain hreach hsub howns halive
    (fun v hv => hkept v (List.mem_cons_of_mem _ hv))
    (fun front p back heq howns =>
      hcarried (.after site.point :: front) p back (by rw [heq, List.cons_append]) (Or.inr howns))
    _ hlast
  -- nothing is live after a return
  obtain ⟨order, -, ht⟩ := Func.reversePostorder_spec hf
  have hret : f.Reachable ret :=
    Func.visits_of_isChain hchain hreach (.after ret) (List.mem_of_getLast? hlast)
  obtain ⟨q, hnext, -⟩ :=
    (Func.isLiveOut_iff hf h.liveness (ht.reachable_iff.mp hret).2).mp hlive
  exact Func.not_next_of_returnsAt hreturn hnext

/-- A path from where the value is made to a return that frees nothing hands the value over or loses
it. -/
theorem transferred_or_lost {path : List FreePoint} {ret : Point}
    (hchain : (.after site.point :: path).IsChain f.Follows) (hreach : f.Reachable site.point)
    (hkept : ∀ w ∈ .after site.point :: path, ¬ facts.FreesAt site holders exits w)
    (hlast : (.after site.point :: path).getLast? = some (.after ret))
    (hreturn : f.returnsAt ret = true) :
    (∃ front p rest, .after site.point :: path = front ++ .after p :: rest ∧
      ∃ u ∈ facts.solution.usesAt p, u.binding ∈ holders.owners ∧
        (facts.carried site holders front).contains u.binding = true ∧
        facts.isTransfer u = true) ∨
    (∃ front p rest, .after site.point :: path = front ++ .after p :: rest ∧
      (front = [] ∨ owns holders (facts.carried site holders front) = true) ∧
      facts.LosesAt site holders (facts.carried site holders front) p) := by
  rw [or_iff_not_imp_left]
  intro hstays
  by_contra hlost
  -- as nothing is lost, an owner carries the value past every point
  have hcarried : ∀ front p rest, .after site.point :: path = front ++ .after p :: rest →
      front = [] ∨ owns holders (facts.carried site holders front) = true →
        owns holders (facts.carried site holders (front ++ [.after p])) = true := by
    intro front p rest hpath howned
    by_contra hnone
    rw [carried_append_singleton] at hnone
    refine hlost ⟨front, p, rest, hpath, howned, losesAt_of_not_owns hf h hsite hholders
      (width_carried h front) hnone fun u hu howner hcarries => ?_⟩
    by_contra htransfer
    rw [Bool.not_eq_false] at htransfer
    exact hstays ⟨front, p, rest, hpath, u, hu, howner, hcarries, htransfer⟩
  exact not_returnsAt_of_carried hf h hsite hholders hexits hchain hreach hkept hcarried hlast hreturn

end Runs

/-! ## Paths to a return -/

theorem mem_transfers (hf : f.Valid) (h : facts.Of env f) {u : SolvedUse}
    (hu : u ∈ facts.solution.uses) (hreach : f.Reachable u.point)
    (howner : u.binding ∈ holders.owners) (htransfer : facts.isTransfer u = true) :
    u.id ∈ facts.transfers holders := by
  refine List.mem_map.mpr ⟨u, List.mem_filter.mpr ⟨?_, ?_⟩, rfl⟩
  · exact (h.solved.mem_liveUses hf).mpr ⟨hu, hreach⟩
  · simp [howner, htransfer]

/-- Take a valid function, an allocation that is not left to a region, and any path from where the
allocation is made. If it ends in a return, the path crosses a free point of the allocation; or it
passes a use that hands the value over while its binding, an owner, carries it, and which is listed
if the allocation counts as transferred; or it passes a point where the value is lost: where the last
owners that carry it are defined, or consumed by uses that do not hand it over, and none receives it.

What is lost is not freed later: there is no free point on the rest of the path, unless an owner
holds the value there that does not carry it along the path, another way brings in a holder, or an
owner receives the value again. -/
theorem freed_transferred_or_lost (env : Environment) (f : Func) (config : Config)
    (hvalid : env.program.validateFunction f = .ok ()) :
    ∃ facts, env.facts f = .ok facts ∧ ∀ plan, facts.plan config = .ok plan →
      ∀ site ∈ f.usage.allocations, ∀ placement, (site.alloc, placement) ∈ plan.placements →
        (∀ r, placement ≠ .region r) →
        ∃ holders exits, facts.holders site = .ok holders ∧
          facts.heldExits site holders = .ok exits ∧
          ∀ path, (.after site.point :: path).IsChain f.Follows →
            (∀ ret, (.after site.point :: path).getLast? = some (.after ret) →
              f.returnsAt ret = true →
              (∃ w ∈ placement.freePoints, w ∈ .after site.point :: path) ∨
              (∃ front p rest, .after site.point :: path = front ++ .after p :: rest ∧
                ∃ u ∈ facts.solution.usesAt p, u.binding ∈ holders.owners ∧
                  (facts.carried site holders front).contains u.binding = true ∧
                  facts.isTransfer u = true ∧
                  ∀ uses, placement = .transferred uses → u.id ∈ uses) ∨
              (∃ front p rest, .after site.point :: path = front ++ .after p :: rest ∧
                (front = [] ∨ owns holders (facts.carried site holders front) = true) ∧
                facts.LosesAt site holders (facts.carried site holders front) p)) ∧
            (∀ front p rest, .after site.point :: path = front ++ .after p :: rest →
              facts.LosesAt site holders (facts.carried site holders front) p →
              (∀ x ∈ holders.owners, (facts.heldAt site holders exits (.after p)).contains x = true →
                (facts.carried site holders front).contains x = true) →
              (∀ v ∈ .after p :: rest, facts.JoinsNothing site holders exits v) →
              (∀ q, .after q ∈ .after p :: rest → ∀ x ∈ facts.receivers site holders q
                (facts.heldAt site holders exits (.after q)), x ∉ holders.owners) →
              ∀ w ∈ .after p :: rest, w ∉ placement.freePoints) := by
  obtain ⟨hvalid', facts, hfacts, h⟩ := env.facts_of_validateFunction hvalid
  have hf := Func.valid_of_validate hvalid'
  refine ⟨facts, hfacts, fun plan hplan site hsite placement hmem hregion => ?_⟩
  obtain ⟨hreach, holders, exits, hholders, hexits, hlisted, htransferred⟩ :=
    placed_alone hvalid' h hplan hsite hmem hregion
  refine ⟨holders, exits, hholders, hexits, fun path hchain => ?_⟩
  have hvisits := Func.visits_of_isChain hchain hreach
  constructor
  · intro ret hlast hreturn
    by_cases hfree : ∃ w ∈ placement.freePoints, w ∈ .after site.point :: path
    · exact Or.inl hfree
    have hkept : ∀ w ∈ .after site.point :: path, ¬ facts.FreesAt site holders exits w :=
      fun w hw hfrees => hfree ⟨w, (hlisted w (hvisits w hw)).mpr hfrees, hw⟩
    rcases transferred_or_lost hf h hsite hholders hexits hchain hreach hkept hlast hreturn with
      ⟨front, p, rest, hpath, u, hu, howner, hcarries, htransfer⟩ | hlost
    · obtain ⟨hused, rfl⟩ := Solution.mem_usesAt.mp hu
      refine Or.inr (Or.inl ⟨front, _, rest, hpath, u, hu, howner, hcarries, htransfer, ?_⟩)
      intro uses heq
      rw [htransferred uses heq]
      exact mem_transfers hf h hused (hvisits (.after u.point) (by simp [hpath])) howner htransfer
    · exact Or.inr (Or.inr hlost)
  · intro front p rest hpath hloses hcarries hjoins hreceives
    rw [hpath] at hchain hvisits
    intro w hw
    rw [hlisted w (hvisits w (List.mem_append_right _ hw))]
    refine not_freesAt_of_unowned hf h hsite hholders hexits hchain.right_of_append
      (hvisits (.after p) (by simp)) (fun x howner hx => ?_) hjoins hreceives w hw
    rw [contains_next hf h hsite hholders (width_heldAt hf h hexits _)] at hx
    rcases hx with hx | ⟨hx, hnot, hdef⟩
    · exact hreceives p List.mem_cons_self x hx howner
    · rcases hloses.gone x howner (hcarries x howner hx) with heq | ⟨u, hu, hbinding, hconsumes, -⟩
      · exact hdef heq
      · exact hnot ⟨howner, u, hu, hbinding, hconsumes⟩

/-- Makes a value and hands it over on one of two ways; on the other one the value is overwritten by
what a look at it yields. -/
def overwrittenBranch : Func where
  id := 0
  name := "refresh"
  span := ⟨0, 40⟩
  params := []
  bindings := [⟨"x", .named "Data", .varBound, 0, none, ⟨1, 2⟩⟩]
  blocks := [
    ⟨0, 0, [⟨.assign 0 (.alloc 0 []), ⟨3, 4⟩⟩],
      some ⟨.branch (.constant (.bool true)) 1 2, ⟨5, 6⟩⟩⟩,
    ⟨1, 0, [⟨.eval (.call (.foreign "consume") [.binding ⟨0, none, ⟨8, 9⟩⟩]), ⟨7, 9⟩⟩],
      some ⟨.ret none, ⟨10, 11⟩⟩⟩,
    ⟨2, 0,
      [⟨.assign 0 (.call (.foreign "inspect") [.binding ⟨0, none, ⟨13, 14⟩⟩]), ⟨12, 14⟩⟩,
        ⟨.eval (.call (.foreign "inspect") [.binding ⟨0, none, ⟨16, 17⟩⟩]), ⟨15, 17⟩⟩],
      some ⟨.ret none, ⟨30, 36⟩⟩⟩]
  regions := [⟨0, .body, none, none, ⟨0, 40⟩⟩]
  allocations := [⟨3, 4⟩]
  isAsync := false

/-- The foreign function `consume` takes its argument by value, `inspect` borrows it. -/
def refreshingEnv : Environment :=
  .ofForeigns [⟨"consume", [some .move]⟩, ⟨"inspect", [some .borrow]⟩]

/-- No check finds a fault in the function, and the value counts as transferred. On the way that
overwrites it, it is lost. -/
theorem overwrittenBranch_lost :
    refreshingEnv.program.validateFunction overwrittenBranch = .ok () ∧
    ∃ facts plan holders, refreshingEnv.facts overwrittenBranch = .ok facts ∧
      facts.solution.conflicts = [] ∧ Linearity.violations facts = .ok [] ∧
      Exclusivity.violations facts = .ok [] ∧ facts.plan .default = .ok plan ∧ plan.escapes = [] ∧
      plan.placements = [(0, .transferred [0])] ∧
      facts.holders ⟨0, some 0, ⟨0, 0⟩, ⟨3, 4⟩⟩ = .ok holders ∧
      [.after ⟨0, 0⟩, .after ⟨0, 1⟩, .edge 0 2, .after ⟨2, 0⟩, .after ⟨2, 1⟩,
        .after ⟨2, 2⟩].IsChain overwrittenBranch.Follows ∧
      overwrittenBranch.returnsAt ⟨2, 2⟩ = true ∧
      ∃ front p rest, [.after ⟨0, 0⟩, .after ⟨0, 1⟩, .edge 0 2, .after ⟨2, 0⟩, .after ⟨2, 1⟩,
          .after ⟨2, 2⟩] = front ++ .after p :: rest ∧
        facts.LosesAt ⟨0, some 0, ⟨0, 0⟩, ⟨3, 4⟩⟩ holders
          (facts.carried ⟨0, some 0, ⟨0, 0⟩, ⟨3, 4⟩⟩ holders front) p := by
  have hvalid : refreshingEnv.program.validateFunction overwrittenBranch = .ok () := by
    decide +kernel
  have hclean : (refreshingEnv.facts overwrittenBranch >>= fun facts =>
      pure (facts.solution.conflicts, Linearity.violations facts, Exclusivity.violations facts)) =
        .ok ([], .ok [], .ok []) := by decide +kernel
  have hrun : (refreshingEnv.facts overwrittenBranch >>= fun facts =>
      facts.plan .default >>= fun plan => pure (plan.escapes, plan.placements,
        facts.solution.uses.map fun u => (u.id, u.point))) =
      .ok ([], [(0, .transferred [0])], [(0, ⟨1, 0⟩), (1, ⟨2, 0⟩), (2, ⟨2, 1⟩)]) := by
    decide +kernel
  have hchain : [.after ⟨0, 0⟩, .after ⟨0, 1⟩, .edge 0 2, .after ⟨2, 0⟩, .after ⟨2, 1⟩,
      .after ⟨2, 2⟩].IsChain overwrittenBranch.Follows := by
    have hentry : overwrittenBranch.blocks[0]? =
      some (overwrittenBranch.blocks.get ⟨0, by decide⟩) := rfl
    have hway : overwrittenBranch.blocks[2]? =
      some (overwrittenBranch.blocks.get ⟨2, by decide⟩) := rfl
    simp only [List.isChain_cons_cons, List.isChain_singleton, and_true]
    exact ⟨.within hentry (by decide), .leave hentry (by decide), .arrive,
      .within hway (by decide), .within hway (by decide)⟩
  obtain ⟨facts, hfacts, hall⟩ :=
    freed_transferred_or_lost refreshingEnv overwrittenBranch .default hvalid
  rw [hfacts, ok_bind] at hclean hrun
  rw [pure_eq_ok, Prod.mk.injEq, Prod.mk.injEq] at hclean
  obtain ⟨hconflicts, hlinear, hexclusive⟩ := hclean
  obtain ⟨plan, hplan, hrun⟩ := bind_eq_ok.mp hrun
  rw [pure_eq_ok, Prod.mk.injEq, Prod.mk.injEq] at hrun
  obtain ⟨hescapes, hplacements, huses⟩ := hrun
  have hmem : (0, .transferred [0]) ∈ plan.placements := by
    rw [hplacements]
    exact List.mem_singleton.mpr rfl
  obtain ⟨holders, exits, hholders, -, hpaths⟩ := hall plan hplan ⟨0, some 0, ⟨0, 0⟩, ⟨3, 4⟩⟩
    (by decide) (.transferred [0]) hmem (fun r heq => by cases heq)
  refine ⟨hvalid, facts, plan, holders, hfacts, hconflicts, hlinear, hexclusive, hplan, hescapes,
    hplacements, hholders, hchain, by decide, ?_⟩
  rcases (hpaths _ hchain).1 ⟨2, 2⟩ rfl (by decide) with
    ⟨w, hw, -⟩ | ⟨front, p, rest, hpath, u, hu, -, -, -, hid⟩ | ⟨front, p, rest, hpath, -, hloses⟩
  · simp [Placement.freePoints] at hw
  · -- the listed use is on the other way
    obtain ⟨hused, rfl⟩ := Solution.mem_usesAt.mp hu
    have hmem : (u.id, u.point) ∈ [(0, ⟨1, 0⟩), (1, ⟨2, 0⟩), (2, (⟨2, 1⟩ : Point))] :=
      huses ▸ List.mem_map_of_mem hused
    have hzero : u.id = 0 := List.mem_singleton.mp (hid [0] rfl)
    have hpoint : u.point = ⟨1, 0⟩ := by simpa [hzero] using hmem
    have hon : FreePoint.after u.point ∈ [.after ⟨0, 0⟩, .after ⟨0, 1⟩, .edge 0 2, .after ⟨2, 0⟩,
        .after ⟨2, 1⟩, .after ⟨2, 2⟩] := hpath ▸ List.mem_append_right _ List.mem_cons_self
    rw [hpoint] at hon
    exact absurd hon (by decide)
  · exact ⟨front, p, rest, hpath, hloses⟩

end Facts

end Tenure

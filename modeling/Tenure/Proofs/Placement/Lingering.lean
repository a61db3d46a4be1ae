import Tenure.Proofs.Forward.Moments
import Tenure.Proofs.Placement.FreedAgain

/-!
# Holders, sweep by sweep

What the sweeps of the analysis of single frees find at a moment, told by walks alone. A binding
that is live there holds the value exactly if it came there with it (`Brings`, `contains_live_iff`);
who does only grows from sweep to sweep. A dead binding that holds the value lingers: it stays until
it is defined anew or the value is freed (`Lingers`). The value is freed where it is touched for the
last time, if an owner still has it (`Frees`, `freed_iff`). Whether an owner lingers depends on
where the value is touched for the last time (`contains_dead_owner_iff`), and whether another
binding does on where it is freed (`Stale`, `contains_dead_iff`).
-/

namespace Tenure.Facts

open Relation

section Definitions

variable (facts : Facts) (order : List BlockId) (site : AllocSite) (holders : Holders)

/-- A use at the point passes the value on from `y` to `x`. -/
def FlowsAt (p : Point) (y x : BindingId) : Prop :=
  ∃ u ∈ facts.solution.usesAt p, u.binding = y ∧ ∃ kind, u.flow = some (x, kind) ∧
    holders.contains x = true

/-- After the moment `x` holds the value, which it was given there or had while it was live. -/
inductive Gets : Moment → BindingId → Prop where
  | made {m : Moment} {x : BindingId} (hpoint : site.point = m.point)
      (hdest : site.dest = some x) : Gets m x
  | given {l m : Moment} {y x : BindingId} (hfeeds : facts.func.Feeds order l m) (hy : Gets l y)
      (hflow : facts.FlowsAt holders m.point y x) : Gets m x
  | kept {l m : Moment} {x : BindingId} (hfeeds : facts.func.Feeds order l m) (hx : Gets l x)
      (hlive : facts.liveness.isLiveIn m.point x = true)
      (hconsumed : ¬ facts.ConsumedAt holders m.point x)
      (hdef : facts.usage.definitionAt m.point ≠ some x) : Gets m x

/-- `x` comes to the moment with the value, and is live. -/
def Brings (m : Moment) (x : BindingId) : Prop :=
  facts.liveness.isLiveIn m.point x = true ∧
    ∃ l, facts.func.Feeds order l m ∧ facts.Gets order site holders l x

/-- The value is touched at the moment for the last time: it is made there or a live binding comes
with it, and no live binding goes on with it. -/
structure Expires (m : Moment) : Prop where
  touched : (∃ x, site.point = m.point ∧ site.dest = some x) ∨
    ∃ x, facts.Brings order site holders m x
  unused : ¬ ∃ x, facts.Gets order site holders m x ∧ facts.liveness.isLiveOut m.point x = true

/-- A binding that held the value when it was last live comes to the moment, past moments that do
not define it and at which the value stays. -/
inductive Lingers (stays : Moment → Prop) (x : BindingId) : Moment → Prop where
  | strand {m n : Moment} (hfeeds : facts.func.Feeds order m n) (hstays : stays m)
      (hx : facts.Gets order site holders m x)
      (hdead : ¬ facts.liveness.isLiveIn n.point x = true) : Lingers stays x n
  | stay {m n : Moment} (hfeeds : facts.func.Feeds order m n) (hstays : stays m)
      (hx : Lingers stays x m) (hdef : facts.usage.definitionAt m.point ≠ some x) :
      Lingers stays x n

/-- An owner has the value after the moment, live or not, if it is not freed there. -/
def Owned (m : Moment) : Prop :=
  ∃ x ∈ holders.owners, facts.Gets order site holders m x ∨
    facts.Lingers order site holders (fun l => ¬ facts.Expires order site holders l) x m ∧
      facts.usage.definitionAt m.point ≠ some x

/-- The value is freed at the moment. -/
def Frees (m : Moment) : Prop :=
  facts.Expires order site holders m ∧ facts.Owned order site holders m

/-- `x` is dead and still counts as a holder of the value at the moment. -/
def Stale (x : BindingId) (m : Moment) : Prop :=
  facts.Lingers order site holders (fun l => ¬ facts.Frees order site holders l) x m

/-- The bindings that a sweep finds to hold the value at a moment. -/
def heldIn (m : Moment) : BindingSet :=
  (facts.heldBy site holders).atMoment facts.func order m

/-- The bindings that hold the value after a moment if it is not freed there. -/
def heldNext (m : Moment) : BindingSet :=
  facts.passOn holders m.point
    (facts.receivers site holders m.point (facts.heldIn order site holders m))
    (facts.heldIn order site holders m)

end Definitions

variable {env : Environment} {facts : Facts} {order : List BlockId} {site : AllocSite}
  {holders : Holders} {m n : Moment} {x : BindingId} {p : Point} {held : BindingSet}
  {stays : Moment → Prop}

theorem mem_receivers_iff_flowsAt : x ∈ facts.receivers site holders p held ↔
    (site.point = p ∧ site.dest = some x) ∨
      ∃ y, held.contains y = true ∧ facts.FlowsAt holders p y x := by
  rw [mem_receivers]
  refine or_congr_right ?_
  constructor
  · rintro ⟨u, hu, kind, hflow, hheld, hholder⟩
    exact ⟨u.binding, hheld, u, hu, rfl, kind, hflow, hholder⟩
  · rintro ⟨y, hheld, u, hu, rfl, kind, hflow, hholder⟩
    exact ⟨u, hu, kind, hflow, hheld, hholder⟩

/-! ## One moment -/

section Moments

variable (hf : facts.func.Valid) (h : facts.Of env facts.func)
include hf h

theorem FlowsAt.isLiveIn {y : BindingId} (hflow : facts.FlowsAt holders p y x) :
    facts.liveness.isLiveIn p y = true := by
  obtain ⟨u, hu, rfl, -⟩ := hflow
  exact isLiveIn_of_use hf h hu

theorem ConsumedAt.isLiveIn (hx : facts.ConsumedAt holders p x) :
    facts.liveness.isLiveIn p x = true := by
  obtain ⟨-, u, hu, rfl, -⟩ := hx
  exact isLiveIn_of_use hf h hu

/-- What is live at the next point and not defined at this one is live here already. -/
theorem isLiveIn_of_feeds (hfeeds : facts.func.Feeds order m n)
    (hdef : facts.usage.definitionAt m.point ≠ some x)
    (hlive : facts.liveness.isLiveIn n.point x = true) :
    facts.liveness.isLiveIn m.point x = true :=
  Func.isLiveIn_of_next hf h.liveness hfeeds.next (h.usage ▸ hdef) hlive

theorem isLiveOut_of_feeds (hfeeds : facts.func.Feeds order m n)
    (hlive : facts.liveness.isLiveIn n.point x = true) :
    facts.liveness.isLiveOut m.point x = true :=
  (Func.isLiveOut_iff hf h.liveness (hfeeds.next.mem_pointsOf hf).1).mpr ⟨_, hfeeds.next, hlive⟩

/-- A binding that lingers is dead. -/
theorem Lingers.not_isLiveIn (hx : facts.Lingers order site holders stays x n) :
    ¬ facts.liveness.isLiveIn n.point x = true := by
  induction hx with
  | strand _ _ _ hdead => exact hdead
  | stay hfeeds _ _ hdef ih => exact fun hlive => ih (isLiveIn_of_feeds hf h hfeeds hdef hlive)

variable (ht : facts.func.Traversal order) (hsite : site ∈ facts.func.usage.allocations)
  (hholders : facts.holders site = .ok holders)

omit hf in
theorem width_heldIn (m : Moment) :
    (facts.heldIn order site holders m).width = facts.func.bindings.length :=
  (heldBy_shaped h site holders).atMoment m

include ht

/-- A binding is found to hold the value exactly if it holds it after a moment that feeds this one.
-/
theorem contains_heldIn_iff (hn : facts.func.Reachable n.point) :
    (facts.heldIn order site holders n).contains x = true ↔ ∃ m, facts.func.Feeds order m n ∧
      ¬ (facts.heldStep site holders m.point (facts.heldIn order site holders m)).2 = true ∧
        (facts.heldNext order site holders m).contains x = true := by
  have hholds := Forward.holds_atMoment_iff (n := n) (fun s : BindingSet => s.contains x = true)
    (heldBy_shaped h site holders) (by simp [heldBy])
    (fun hs ht => BindingSet.contains_union (hs.trans ht.symm)) hf ht hn
  refine hholds.trans (exists_congr fun m => and_congr_right fun _ => ?_)
  show (facts.heldStep site holders m.point (facts.heldIn order site holders m)).1.contains x =
    true ↔ _
  by_cases hfreed :
      (facts.heldStep site holders m.point (facts.heldIn order site holders m)).2 = true
  · simp [heldStep_fst_of_freed hfreed, hfreed]
  · rw [heldStep_fst_of_kept hfreed, and_iff_right hfreed]
    rfl

include hsite hholders

omit ht in
/-- If the live bindings that hold the value are those that come with it, then after the moment it
is held by those that get it and by the dead ones that are not defined there. -/
private theorem contains_heldNext_of_live (hlive : ∀ y,
      (facts.heldIn order site holders m).contains y = true ∧
        facts.liveness.isLiveIn m.point y = true ↔ facts.Brings order site holders m y) :
    (facts.heldNext order site holders m).contains x = true ↔
      facts.Gets order site holders m x ∨
        (facts.heldIn order site holders m).contains x = true ∧
          ¬ facts.liveness.isLiveIn m.point x = true ∧
            facts.usage.definitionAt m.point ≠ some x := by
  rw [heldNext, contains_next hf h hsite hholders (width_heldIn h m), mem_receivers_iff_flowsAt]
  constructor
  · rintro ((⟨hpoint, hdest⟩ | ⟨y, hy, hflow⟩) | ⟨hx, hconsumed, hdef⟩)
    · exact Or.inl (.made hpoint hdest)
    · -- a binding that passes the value on is used there, and so it is live
      obtain ⟨-, l, hfeeds, hl⟩ := (hlive y).mp ⟨hy, hflow.isLiveIn hf h⟩
      exact Or.inl (.given hfeeds hl hflow)
    · by_cases hxlive : facts.liveness.isLiveIn m.point x = true
      · obtain ⟨-, l, hfeeds, hl⟩ := (hlive x).mp ⟨hx, hxlive⟩
        exact Or.inl (.kept hfeeds hl hxlive hconsumed hdef)
      · exact Or.inr ⟨hx, hxlive, hdef⟩
  · rintro (hgets | ⟨hx, hdead, hdef⟩)
    · cases hgets with
      | made hpoint hdest => exact Or.inl (Or.inl ⟨hpoint, hdest⟩)
      | @given _ _ y _ hfeeds hy hflow =>
        have hheld := (hlive y).mpr ⟨hflow.isLiveIn hf h, _, hfeeds, hy⟩
        exact Or.inl (Or.inr ⟨y, hheld.1, hflow⟩)
      | kept hfeeds hx hxlive hconsumed hdef =>
        exact Or.inr ⟨((hlive x).mpr ⟨hxlive, _, hfeeds, hx⟩).1, hconsumed, hdef⟩
    · exact Or.inr ⟨hx, fun hconsumed => hdead (hconsumed.isLiveIn hf h), hdef⟩

/-! ## Live holders -/

/-- The live bindings that hold the value at a moment are those that come with it. -/
theorem contains_live_iff (hn : facts.func.Reachable n.point) :
    (facts.heldIn order site holders n).contains x = true ∧
      facts.liveness.isLiveIn n.point x = true ↔ facts.Brings order site holders n x := by
  -- moment after moment in the order in which they feed each other
  induction n using (facts.func.feeds_wellFounded order).induction generalizing x with
  | _ n ih =>
    rw [and_comm, Brings]
    refine and_congr_right fun hlive => ?_
    rw [contains_heldIn_iff hf h ht hn]
    refine exists_congr fun m => and_congr_right fun hfeeds => ?_
    have hnext := fun y => contains_heldNext_of_live (x := y) hf h hsite hholders
      fun z => ih m hfeeds hfeeds.reachable
    rw [hnext]
    constructor
    · rintro ⟨-, hx | ⟨-, hdead, hdef⟩⟩
      · exact hx
      · exact absurd (isLiveIn_of_feeds hf h hfeeds hdef hlive) hdead
    · intro hx
      refine ⟨fun hfreed => ?_, Or.inl hx⟩
      exact (heldStep_snd.mp hfreed).2.1 x ((hnext x).mpr (Or.inl hx))
        (isLiveOut_of_feeds hf h hfeeds hlive)

theorem contains_heldNext_iff (hm : facts.func.Reachable m.point) :
    (facts.heldNext order site holders m).contains x = true ↔
      facts.Gets order site holders m x ∨
        (facts.heldIn order site holders m).contains x = true ∧
          ¬ facts.liveness.isLiveIn m.point x = true ∧
            facts.usage.definitionAt m.point ≠ some x :=
  contains_heldNext_of_live hf h hsite hholders fun _ =>
    contains_live_iff hf h ht hsite hholders hm

/-- The value is freed where it is touched for the last time and an owner still holds it. -/
theorem freed_iff_expires (hm : facts.func.Reachable m.point) :
    (facts.heldStep site holders m.point (facts.heldIn order site holders m)).2 = true ↔
      facts.Expires order site holders m ∧
        ∃ x ∈ holders.owners, (facts.heldNext order site holders m).contains x = true := by
  rw [heldStep_snd, ← and_assoc]
  refine and_congr_left fun _ => ?_
  have hlive := fun y => contains_live_iff (x := y) hf h ht hsite hholders hm
  have hnext := fun y => contains_heldNext_iff (x := y) hf h ht hsite hholders hm
  constructor
  · rintro ⟨htouched, hunused⟩
    refine ⟨?_, fun ⟨y, hy, hout⟩ => hunused y ((hnext y).mpr (Or.inl hy)) hout⟩
    rcases htouched with hreceived | ⟨y, hy⟩
    · obtain ⟨y, hy⟩ := List.exists_mem_of_ne_nil _ hreceived
      rcases mem_receivers_iff_flowsAt.mp hy with hmade | ⟨z, hz, hflow⟩
      · exact Or.inl ⟨y, hmade⟩
      · exact Or.inr ⟨z, (hlive z).mp ⟨hz, hflow.isLiveIn hf h⟩⟩
    · exact Or.inr ⟨y, (hlive y).mp hy⟩
  · rintro ⟨htouched, hunused⟩
    constructor
    · rcases htouched with ⟨y, hmade⟩ | ⟨y, hy⟩
      · exact Or.inl (List.ne_nil_of_mem (mem_receivers_iff_flowsAt.mpr (Or.inl hmade)))
      · exact Or.inr ⟨y, (hlive y).mpr hy⟩
    · intro y hy hout
      rcases (hnext y).mp hy with hgets | ⟨-, hdead, hdef⟩
      · exact hunused ⟨y, hgets, hout⟩
      · have hpoint := (ht.reachable_iff.mp hm).2
        exact hdead ((Func.isLiveIn_iff hf h.liveness hpoint).mpr (Or.inr ⟨h.usage ▸ hdef, hout⟩))

/-! ## Dead holders -/

/-- If for certain bindings the value is not freed exactly where it stays, then those of them that
are dead and hold the value at a moment are those that linger there. -/
private theorem contains_dead_iff_of_stays (among : BindingId → Prop)
    (hstays : ∀ m, facts.func.Reachable m.point → ∀ x, among x →
      (facts.heldNext order site holders m).contains x = true →
        (¬ (facts.heldStep site holders m.point (facts.heldIn order site holders m)).2 = true ↔
          stays m))
    (hx : among x) (hn : facts.func.Reachable n.point) :
    (facts.heldIn order site holders n).contains x = true ∧
      ¬ facts.liveness.isLiveIn n.point x = true ↔ facts.Lingers order site holders stays x n := by
  induction n using (facts.func.feeds_wellFounded order).induction with
  | _ n ih =>
    rw [contains_heldIn_iff hf h ht hn]
    constructor
    · rintro ⟨⟨m, hfeeds, hkept, hnext⟩, hdead⟩
      have hstay := (hstays m hfeeds.reachable x hx hnext).mp hkept
      rcases (contains_heldNext_iff hf h ht hsite hholders hfeeds.reachable).mp hnext with
        hgets | ⟨hheld, hdead', hdef⟩
      · exact .strand hfeeds hstay hgets hdead
      · exact .stay hfeeds hstay ((ih m hfeeds hfeeds.reachable).mp ⟨hheld, hdead'⟩) hdef
    · intro hlingers
      refine ⟨?_, hlingers.not_isLiveIn hf h⟩
      cases hlingers with
      | @strand m _ hfeeds hstay hgets hdead =>
        have hnext := (contains_heldNext_iff hf h ht hsite hholders hfeeds.reachable).mpr
          (Or.inl hgets)
        exact ⟨m, hfeeds, (hstays m hfeeds.reachable x hx hnext).mpr hstay, hnext⟩
      | @stay m _ hfeeds hstay hlingers hdef =>
        obtain ⟨hheld, hdead⟩ := (ih m hfeeds hfeeds.reachable).mpr hlingers
        have hnext := (contains_heldNext_iff hf h ht hsite hholders hfeeds.reachable).mpr
          (Or.inr ⟨hheld, hdead, hdef⟩)
        exact ⟨m, hfeeds, (hstays m hfeeds.reachable x hx hnext).mpr hstay, hnext⟩

/-- Dead owners that hold the value linger where it is not touched for the last time: where it is,
and an owner has it, it is freed. -/
theorem contains_dead_owner_iff (hx : x ∈ holders.owners) (hn : facts.func.Reachable n.point) :
    (facts.heldIn order site holders n).contains x = true ∧
      ¬ facts.liveness.isLiveIn n.point x = true ↔
        facts.Lingers order site holders (fun m => ¬ facts.Expires order site holders m) x n := by
  refine contains_dead_iff_of_stays hf h ht hsite hholders (· ∈ holders.owners) ?_ hx hn
  intro m hm y hy hnext
  rw [freed_iff_expires hf h ht hsite hholders hm]
  exact not_congr (and_iff_left ⟨y, hy, hnext⟩)

theorem freed_iff (hm : facts.func.Reachable m.point) :
    (facts.heldStep site holders m.point (facts.heldIn order site holders m)).2 = true ↔
      facts.Frees order site holders m := by
  rw [freed_iff_expires hf h ht hsite hholders hm, Frees, Owned]
  refine and_congr_right fun _ => exists_congr fun x => and_congr_right fun hx => ?_
  rw [contains_heldNext_iff hf h ht hsite hholders hm, ← and_assoc,
    contains_dead_owner_iff hf h ht hsite hholders hx hm]

/-- Dead bindings that hold the value linger where it is not freed. -/
theorem contains_dead_iff (hn : facts.func.Reachable n.point) :
    (facts.heldIn order site holders n).contains x = true ∧
      ¬ facts.liveness.isLiveIn n.point x = true ↔ facts.Stale order site holders x n := by
  refine contains_dead_iff_of_stays hf h ht hsite hholders (fun _ => True) ?_ trivial hn
  intro m hm y _ _
  rw [freed_iff hf h ht hsite hholders hm]

end Moments

end Tenure.Facts

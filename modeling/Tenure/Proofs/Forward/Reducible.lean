import Tenure.Proofs.Forward.Moments

/-!
# Loops that are entered at one place

In a reducible function every edge that leads back goes to a block that dominates its source. A walk
from moment to moment that takes enough sweeps then goes round a loop in one sweep: each time it
turns back it either comes to a block it has been to in the sweep before, or to a strict dominator
of the block where it turned back last (`Reducible.turn`), and only so many dominators lie between a
block and the entry (`Reducible.exists_turn`).
-/

namespace Tenure.Func

open Relation Tenure.Graph

/-- Every path from the entry to `b` goes through `c`. -/
def Dominates (f : Func) (c b : BlockId) : Prop :=
  entry = c ∨ ¬ ReflTransGen (fun x y => Edge f.successors x y ∧ y ≠ c) entry b

/-- Every edge that leads back in the order of the blocks leads to a dominator of its source, so
that each loop is entered at one place. -/
def Reducible (f : Func) (order : List BlockId) : Prop :=
  ∀ b ∈ order, ∀ c, Edge f.successors b c → order.idxOf c ≤ order.idxOf b → f.Dominates c b

/-- A path of this many edges leads from the entry to the block. -/
inductive Away (f : Func) : Nat → BlockId → Prop where
  | start : Away f 0 entry
  | edge {d : Nat} {b c : BlockId} (hb : Away f d b) (hbc : Edge f.successors b c) :
      Away f (d + 1) c

variable {f : Func} {order : List BlockId} {b c t : BlockId} {d : Nat}

/-! ## Dominators -/

/-- A path from the entry goes through a block, or past it. -/
theorem Away.through_or_past (h : f.Away d b) (t : BlockId) :
    (∃ d' ≤ d, f.Away d' t ∧ (d' = d → t = b)) ∨
      entry ≠ t ∧ ReflTransGen (fun x y => Edge f.successors x y ∧ y ≠ t) entry b := by
  induction h with
  | start =>
    by_cases ht : entry = t
    · exact Or.inl ⟨0, le_rfl, ht ▸ .start, fun _ => ht.symm⟩
    · exact Or.inr ⟨ht, ReflTransGen.refl⟩
  | @edge d b c hb hbc ih =>
    rcases ih with ⟨d', hd', haway, -⟩ | ⟨hne, hpast⟩
    · exact Or.inl ⟨d', by omega, haway, fun heq => by omega⟩
    · by_cases hc : c = t
      · exact Or.inl ⟨d + 1, le_rfl, hc ▸ hb.edge hbc, fun _ => hc.symm⟩
      · exact Or.inr ⟨hne, ReflTransGen.tail hpast ⟨hbc, hc⟩⟩

/-- A strict dominator is nearer to the entry. -/
theorem Dominates.exists_away (h : f.Dominates t b) (hne : t ≠ b) (hb : f.Away d b) :
    ∃ d' < d, f.Away d' t := by
  rcases hb.through_or_past t with ⟨d', hd', haway, hend⟩ | ⟨hentry, hpast⟩
  · exact ⟨d', Nat.lt_of_le_of_ne hd' fun heq => hne (hend heq), haway⟩
  · rcases h with h | h
    · exact absurd h hentry
    · exact absurd hpast h

/-- A dominator of the end of a path that does not go through it dominates the start as well. -/
theorem Dominates.of_path (h : f.Dominates t c)
    (hpath : ReflTransGen (fun x y => Edge f.successors x y ∧ y ≠ t) b c) : f.Dominates t b := by
  rcases h with h | h
  · exact Or.inl h
  · exact Or.inr fun hb => h (hb.trans hpath)

theorem Traversal.exists_away (ht : f.Traversal order) (hb : b ∈ order) : ∃ d, f.Away d b := by
  induction ht.mem_iff.mp hb with
  | refl => exact ⟨0, .start⟩
  | tail hpath hedge ih =>
    obtain ⟨d, hd⟩ := ih (ht.mem_iff.mpr hpath)
    exact ⟨d + 1, hd.edge hedge⟩

/-! ## Walks from moment to moment -/

section Walks

variable {R : Moment → Moment → Prop} (hR : ∀ m n, R m n → f.Feeds order m n) {u v : Moment}
include hR

/-- A walk that takes more than one sweep has a first step into the next one. -/
theorem exists_turn_back (hwalk : ReflTransGen R u v) (hlt : u.sweep < v.sweep) :
    ∃ w w', ReflTransGen R u w ∧ R w w' ∧ ReflTransGen R w' v ∧ w.sweep = u.sweep ∧
      w'.sweep = u.sweep + 1 := by
  induction hwalk using ReflTransGen.head_induction_on with
  | refl => exact absurd hlt (Nat.lt_irrefl _)
  | @head u u' hstep hwalk ih =>
    have hsweep := (hR _ _ hstep).sweep
    have hdelay : delay order u.point u'.point ≤ 1 := delay_le_one
    by_cases hsame : u'.sweep = u.sweep
    · obtain ⟨w, w', hw, hturn, hw', hws, hw's⟩ := ih (hsame ▸ hlt)
      exact ⟨w, w', ReflTransGen.head hstep hw, hturn, hw', hws.trans hsame,
        hw's.trans (by rw [hsame])⟩
    · exact ⟨u, u', ReflTransGen.refl, hstep, hwalk, rfl, by omega⟩

theorem sweep_le_of_walk (hwalk : ReflTransGen R u v) : u.sweep ≤ v.sweep := by
  induction hwalk with
  | refl => exact le_rfl
  | tail _ hstep ih => exact ih.trans (hR _ _ hstep).le

/-- A walk comes through every sweep between its first and its last. -/
theorem exists_in_sweep (hwalk : ReflTransGen R u v) {k : Nat} (hu : u.sweep ≤ k)
    (hv : k ≤ v.sweep) : ∃ w, w.sweep = k ∧ ReflTransGen R u w ∧ ReflTransGen R w v := by
  induction hwalk with
  | refl => exact ⟨u, Nat.le_antisymm hu hv, ReflTransGen.refl, ReflTransGen.refl⟩
  | @tail w v hwalk hstep ih =>
    have hsweep := (hR _ _ hstep).sweep
    have hdelay : delay order w.point v.point ≤ 1 := delay_le_one
    by_cases hk : k ≤ w.sweep
    · obtain ⟨w', hw', hto, hfrom⟩ := ih hk
      exact ⟨w', hw', hto, ReflTransGen.tail hfrom hstep⟩
    · exact ⟨v, by omega, ReflTransGen.tail hwalk hstep, ReflTransGen.refl⟩

/-- A walk within a sweep comes to the start of a block, or goes from block to block past it. -/
theorem meets_or_past (hwalk : ReflTransGen R u v) (hsweep : v.sweep = u.sweep) (t : BlockId) :
    (ReflTransGen R u ⟨u.sweep, ⟨t, 0⟩⟩ ∧ ReflTransGen R ⟨u.sweep, ⟨t, 0⟩⟩ v) ∨
      ReflTransGen (fun x y => Edge f.successors x y ∧ y ≠ t) u.point.block v.point.block := by
  induction hwalk with
  | refl => exact Or.inr ReflTransGen.refl
  | @tail w w' hwalk hstep ih =>
    have hfeeds := hR _ _ hstep
    have hws : w.sweep = u.sweep :=
      Nat.le_antisymm (hsweep ▸ hfeeds.le) (sweep_le_of_walk hR hwalk)
    rcases ih hws with ⟨hto, hfrom⟩ | hpast
    · exact Or.inl ⟨hto, ReflTransGen.tail hfrom hstep⟩
    · obtain ⟨k, q⟩ := w'
      obtain ⟨j, p⟩ := w
      obtain ⟨-, hnext, -⟩ := hfeeds
      dsimp only at hnext hsweep hpast ⊢
      cases hnext with
      | within => exact Or.inr hpast
      | @jump b c block hb hc =>
        by_cases hct : c = t
        · subst hct hsweep
          exact Or.inl ⟨ReflTransGen.tail hwalk hstep, ReflTransGen.refl⟩
        · exact Or.inr (ReflTransGen.tail hpast ⟨edge_iff.mpr ⟨block, hb, hc⟩, hct⟩)

variable (hred : f.Reducible order) (ht : f.Traversal order)
include hred ht

/-- Where a walk turns back, it comes to a block that it has been to in the sweep before, or to a
strict dominator of the block from whose start it came. -/
theorem Reducible.turn (hu : u.point.index = 0) (hwalk : ReflTransGen R u v)
    (hlt : u.sweep < v.sweep) :
    ∃ t, ReflTransGen R ⟨u.sweep + 1, ⟨t, 0⟩⟩ v ∧ ReflTransGen R u ⟨u.sweep + 1, ⟨t, 0⟩⟩ ∧
      ((ReflTransGen R u ⟨u.sweep, ⟨t, 0⟩⟩ ∧
        ReflTransGen R ⟨u.sweep, ⟨t, 0⟩⟩ ⟨u.sweep + 1, ⟨t, 0⟩⟩) ∨
          t ≠ u.point.block ∧ f.Dominates t u.point.block) := by
  obtain ⟨w, w', hw, hturn, hw', hws, hw's⟩ := exists_turn_back hR hwalk hlt
  obtain ⟨hreach, hnext, hsweep⟩ := hR _ _ hturn
  obtain ⟨k, q⟩ := w'
  obtain ⟨j, p⟩ := w
  dsimp only at hreach hnext hsweep hws hw's
  subst hws hw's
  cases hnext with
  | within => simp at hsweep
  | @jump b t block hb hc =>
    refine ⟨t, hw', ReflTransGen.tail hw hturn, ?_⟩
    have hback : order.idxOf t ≤ order.idxOf b := by
      by_contra hforward
      simp [delay, hforward] at hsweep
    have hdom := hred b (ht.reachable_iff.mp hreach).1 t (edge_iff.mpr ⟨block, hb, hc⟩) hback
    rcases meets_or_past hR hw rfl t with ⟨hto, hfrom⟩ | hpast
    · exact Or.inl ⟨hto, ReflTransGen.tail hfrom hturn⟩
    · by_cases hne : t = u.point.block
      · have hstart : (⟨u.sweep, ⟨t, 0⟩⟩ : Moment) = u := by
          rw [hne, ← hu]
        rw [hstart]
        exact Or.inl ⟨ReflTransGen.refl, ReflTransGen.tail hw hturn⟩
      · exact Or.inr ⟨hne, hdom.of_path hpast⟩

/-- A walk that takes more sweeps than its first block is away from the entry goes round a loop in
one sweep. -/
theorem Reducible.exists_turn_of_away (hu : u.point.index = 0) (hd : f.Away d u.point.block)
    (hwalk : ReflTransGen R u v) (hlong : u.sweep + d < v.sweep) :
    ∃ k t, u.sweep ≤ k ∧ ReflTransGen R u ⟨k, ⟨t, 0⟩⟩ ∧
      ReflTransGen R ⟨k, ⟨t, 0⟩⟩ ⟨k + 1, ⟨t, 0⟩⟩ ∧ ReflTransGen R ⟨k + 1, ⟨t, 0⟩⟩ v := by
  -- on the distance to the entry, which each turn without a loop makes smaller
  induction d using Nat.strong_induction_on generalizing u with
  | _ d ih =>
    obtain ⟨t, hrest, hfirst, ⟨hto, hround⟩ | ⟨hne, hdom⟩⟩ :=
      hred.turn hR ht hu hwalk (by omega)
    · exact ⟨u.sweep, t, le_rfl, hto, hround, hrest⟩
    · obtain ⟨d', hd', haway⟩ := hdom.exists_away hne hd
      obtain ⟨k, t', hk, hto, hround, hfrom⟩ := ih d' hd' (u := ⟨u.sweep + 1, ⟨t, 0⟩⟩) rfl haway
        hrest (by dsimp only; omega)
      exact ⟨k, t', Nat.le_of_succ_le hk, hfirst.trans hto, hround, hfrom⟩

end Walks

/-- In a reducible function a walk that takes enough sweeps goes round a loop in one sweep. -/
theorem Reducible.exists_turn (hred : f.Reducible order) (ht : f.Traversal order) :
    ∃ long, ∀ R : Moment → Moment → Prop, (∀ m n, R m n → f.Feeds order m n) →
      ∀ u v, ReflTransGen R u v → u.sweep + long < v.sweep →
        ∃ k t, u.sweep ≤ k ∧ ReflTransGen R u ⟨k, ⟨t, 0⟩⟩ ∧
          ReflTransGen R ⟨k, ⟨t, 0⟩⟩ ⟨k + 1, ⟨t, 0⟩⟩ ∧ ReflTransGen R ⟨k + 1, ⟨t, 0⟩⟩ v := by
  have haway : ∀ b, ∃ d, b ∈ order → f.Away d b := by
    intro b
    by_cases hb : b ∈ order
    · obtain ⟨d, hd⟩ := ht.exists_away hb
      exact ⟨d, fun _ => hd⟩
    · exact ⟨0, fun h => absurd h hb⟩
  choose away haway using haway
  refine ⟨order.toFinset.sup away + 1, fun R hR u v hwalk hlong => ?_⟩
  -- the walk is at the start of a block when it has come into the next sweep
  obtain ⟨w, ⟨k, q⟩, hw, hstep, hrest, hws, hk⟩ := exists_turn_back hR hwalk (by omega)
  obtain ⟨hreach, hnext, hsweep⟩ := hR _ _ hstep
  dsimp only at hnext hsweep hk
  have hq : q.index = 0 := by
    by_contra hne
    simp [delay, hne] at hsweep
    omega
  have hmem : q.block ∈ order := (ht.reachable_iff.mp (hreach.next hnext)).1
  have hle : away q.block ≤ order.toFinset.sup away := Finset.le_sup (List.mem_toFinset.mpr hmem)
  obtain ⟨j, t, hj, hto, hround, hfrom⟩ := hred.exists_turn_of_away hR ht hq
    (haway q.block hmem) hrest (by dsimp only; omega)
  dsimp only at hj
  exact ⟨j, t, by omega, (ReflTransGen.tail hw hstep).trans hto, hround, hfrom⟩

end Tenure.Func

import Mathlib.Data.Prod.Lex
import Tenure.Proofs.Forward.Settling

/-!
# The sweeps of a forward analysis, moment by moment

An analysis that is not monotone cannot be described by the paths that lead to a point: it also
matters in which sweep something comes there. A moment is a point together with a sweep. Within a
sweep states go forward in the order of the blocks, and over an edge that leads back they come in
the next sweep (`Func.Feeds`). So a fact holds at a moment exactly if it holds after some moment
that feeds it (`holds_atMoment_iff`), and some sweep changes nothing exactly if the state before
each point comes to rest (`atMoment_eq_of_fixed`, `fixed_of_atMoment`).
-/

namespace Tenure

open Relation Tenure.Graph

/-- A program point as a sweep comes to it. Sweeps are counted from zero. -/
structure Moment where
  sweep : Nat
  point : Point

/-- The same point in the next sweep. -/
def Moment.again (m : Moment) : Moment := ⟨m.sweep + 1, m.point⟩

namespace Func

variable {f : Func} {order : List BlockId} {m n : Moment} {p q : Point}

/-- The number of sweeps it takes to come from a point to the next one: one if the way leads back in
the order of the blocks. -/
def delay (order : List BlockId) (p q : Point) : Nat :=
  if q.index = 0 ∧ order.idxOf q.block ≤ order.idxOf p.block then 1 else 0

/-- What a sweep makes at the first moment it finds at the second one. -/
structure Feeds (f : Func) (order : List BlockId) (m n : Moment) : Prop where
  reachable : f.Reachable m.point
  next : f.Next m.point n.point
  sweep : n.sweep = m.sweep + delay order m.point n.point

theorem delay_le_one : delay order p q ≤ 1 := by
  unfold delay
  split <;> omega

@[simp]
theorem delay_within {b : BlockId} {i : Nat} : delay order p ⟨b, i + 1⟩ = 0 := by
  simp [delay]

theorem Feeds.le (h : f.Feeds order m n) : m.sweep ≤ n.sweep := by
  have hsweep := h.sweep
  omega

theorem Feeds.again (h : f.Feeds order m n) : f.Feeds order m.again n.again := by
  refine ⟨h.reachable, h.next, ?_⟩
  have hsweep := h.sweep
  simp only [Moment.again]
  omega

theorem Feeds.reachable_next (h : f.Feeds order m n) : f.Reachable n.point :=
  h.reachable.next h.next

/-- Sweep by sweep, within a sweep block by block, and within a block point by point. -/
theorem feeds_wellFounded (f : Func) (order : List BlockId) : WellFounded (f.Feeds order) := by
  let rank : Moment → Nat ×ₗ Nat ×ₗ Nat := fun m =>
    toLex (m.sweep, toLex (order.idxOf m.point.block, m.point.index))
  refine Subrelation.wf (r := InvImage (· < ·) rank) ?_ (InvImage.wf rank wellFounded_lt)
  rintro ⟨k, p⟩ ⟨k', q⟩ ⟨-, hnext, hsweep⟩
  dsimp only at hnext hsweep
  show toLex _ < toLex _
  simp only [Prod.Lex.toLex_lt_toLex]
  cases hnext with
  | within hb hi =>
    rw [delay_within] at hsweep
    exact Or.inr ⟨hsweep.symm, Or.inr ⟨rfl, Nat.lt_succ_self _⟩⟩
  | jump hb hc =>
    simp only [delay, true_and] at hsweep
    split at hsweep
    · left
      omega
    next hforward => exact Or.inr ⟨hsweep.symm, Or.inl (Nat.not_le.mp hforward)⟩

end Func

namespace Forward

variable {σ : Type} {a : Forward σ} {f : Func} {order : List BlockId} {ok : σ → Prop}
  {b c : BlockId} {block : Block} {k : Nat}

/-! ## What a sweep finds -/

/-- The states at the ends of blocks that a sweep finds when it comes to a block: those it has made
itself for the blocks before, and those of the sweep before for the others. -/
def found (a : Forward σ) (f : Func) (order : List BlockId) (k : Nat) (b : BlockId) : List σ :=
  (List.range f.blocks.length).map fun c =>
    (a.afterSweeps f order (if order.idxOf c < order.idxOf b then k + 1 else k)).getD c a.start

/-- The state before a point in a sweep. -/
def atMoment (a : Forward σ) (f : Func) (order : List BlockId) (m : Moment) : σ :=
  a.before f (a.found f order m.sweep m.point.block) m.point

theorem getD_found (c : BlockId) : (a.found f order k b).getD c a.start =
    (a.afterSweeps f order
      (if order.idxOf c < order.idxOf b then k + 1 else k)).getD c a.start := by
  by_cases hc : c < f.blocks.length
  · simp [found, List.getD_eq_getElem?_getD, List.getElem?_range hc]
  · have hlen := Nat.not_lt.mp hc
    rw [List.getD_eq_default _ _ (by simpa [found] using hlen),
      List.getD_eq_default _ _ (by rw [length_afterSweeps]; exact hlen)]

/-- Blocks that control cannot reach keep the state they had at the beginning. -/
theorem getD_afterSweeps_of_notMem (hb : b ∉ order) :
    (a.afterSweeps f order k).getD b a.start = a.start := by
  induction k with
  | zero => exact Table.getD_replicate _ b a.start
  | succ k ih =>
    rw [afterSweeps_succ, List.getD_eq_getElem?_getD, getElem?_sweep_of_notMem hb,
      ← List.getD_eq_getElem?_getD, ih]

/-- A sweep makes the end of a block out of the state before its last point. -/
theorem getD_afterSweeps_succ (ht : f.Traversal order) (hb : b ∈ order)
    (hblock : f.blocks[b]? = some block) : (a.afterSweeps f order (k + 1)).getD b a.start =
      a.step ⟨b, block.statements.length⟩
        (a.atMoment f order ⟨k, ⟨b, block.statements.length⟩⟩) := by
  have hlt : ∀ c ∈ order, c < (a.afterSweeps f order k).length := by
    intro c hc
    rw [length_afterSweeps]
    exact ht.lt hc
  obtain ⟨mixed, hend, hmixed⟩ := getD_sweep (a := a) (f := f) ht.nodup hlt hb
  have hentry : a.entry f mixed b = a.entry f (a.found f order k b) b := by
    refine entry_congr fun c => ?_
    rw [hmixed, getD_found, ← afterSweeps_succ]
    split <;> rfl
  rw [afterSweeps_succ, hend, atEnd, hentry]
  exact atEnd_eq hblock

theorem Shaped.atMoment (hok : a.Shaped ok) (m : Moment) : ok (a.atMoment f order m) := by
  refine hok.through _ (hok.entry (fun c => ?_) _)
  rw [getD_found]
  exact shapedExits_afterSweeps hok _ c

theorem atMoment_within (hb : f.blocks[b]? = some block) {i : Nat}
    (hi : i ≤ block.statements.length) : a.atMoment f order ⟨k, ⟨b, i + 1⟩⟩ =
      a.step ⟨b, i⟩ (a.atMoment f order ⟨k, ⟨b, i⟩⟩) :=
  before_succ hb hi

/-! ## Facts on their way -/

section Facts

variable (holds : σ → Prop) (hok : a.Shaped ok) (hstart : ¬ holds a.start)
  (hjoin : ∀ {s t}, ok s → ok t → (holds (a.join s t) ↔ holds s ∨ holds t)) (hf : f.Valid)
  (ht : f.Traversal order)
include hok hstart hjoin hf ht

/-- What holds at the first point of a block comes from the last point of a predecessor, in the same
sweep or in the one before. -/
private theorem holds_entry_iff : holds (a.atMoment f order ⟨k, ⟨c, 0⟩⟩) ↔
    ∃ m, f.Feeds order m ⟨k, ⟨c, 0⟩⟩ ∧ holds (a.step m.point (a.atMoment f order m)) := by
  have hentry : holds (a.atMoment f order ⟨k, ⟨c, 0⟩⟩) ↔ ∃ b ∈ f.predecessors c,
      holds ((a.found f order k c).getD b a.start) := by
    refine entry_iff_of_join holds hok hstart hjoin (fun e => ?_) c
    rw [getD_found]
    exact shapedExits_afterSweeps hok _ e
  rw [hentry]
  constructor
  · rintro ⟨b, hb, hholds⟩
    obtain ⟨block, hblock, hc⟩ := Func.edge_iff.mp ((Func.mem_predecessors hf).mp hb)
    rw [getD_found] at hholds
    have hmem : b ∈ order := by
      by_contra hnot
      exact hstart (getD_afterSweeps_of_notMem hnot ▸ hholds)
    have hreach := ht.reachable_point hmem hblock le_rfl
    by_cases hlt : order.idxOf b < order.idxOf c
    · rw [if_pos hlt, getD_afterSweeps_succ ht hmem hblock] at hholds
      refine ⟨⟨k, ⟨b, block.statements.length⟩⟩, ⟨hreach, .jump hblock hc, ?_⟩, hholds⟩
      simp [Func.delay, hlt]
    · rw [if_neg hlt] at hholds
      cases k with
      | zero => exact absurd (Table.getD_replicate _ b a.start ▸ hholds) hstart
      | succ k =>
        rw [getD_afterSweeps_succ ht hmem hblock] at hholds
        refine ⟨⟨k, ⟨b, block.statements.length⟩⟩, ⟨hreach, .jump hblock hc, ?_⟩, hholds⟩
        simp [Func.delay, Nat.not_lt.mp hlt]
  · rintro ⟨⟨j, p⟩, ⟨hreach, hnext, hsweep⟩, hholds⟩
    dsimp only at hreach hnext hsweep hholds
    cases hnext with
    | @jump b _ block hblock hc =>
      have hmem : b ∈ order := (ht.reachable_iff.mp hreach).1
      refine ⟨b, (Func.mem_predecessors hf).mpr (Func.edge_iff.mpr ⟨block, hblock, hc⟩), ?_⟩
      rw [← getD_afterSweeps_succ ht hmem hblock] at hholds
      simp only [Func.delay, true_and] at hsweep
      rw [getD_found]
      split at hsweep
      next hle => rwa [if_neg (Nat.not_lt.mpr hle), hsweep]
      next hlt => rwa [if_pos (Nat.not_le.mp hlt), hsweep]

/-- If a join has a fact whenever one side does, then the fact holds at a moment exactly if it holds
after a moment that feeds it. -/
theorem holds_atMoment_iff {n : Moment} (hn : f.Reachable n.point) :
    holds (a.atMoment f order n) ↔
      ∃ m, f.Feeds order m n ∧ holds (a.step m.point (a.atMoment f order m)) := by
  obtain ⟨k, c, i⟩ := n
  obtain ⟨hc, hi⟩ := ht.reachable_iff.mp hn
  obtain ⟨block, hblock⟩ := ht.exists_block hc
  replace hi : i ≤ block.statements.length := ((Func.mem_pointsOf hblock).mp hi).2
  cases i with
  | zero => exact holds_entry_iff holds hok hstart hjoin hf ht
  | succ i =>
    rw [atMoment_within hblock (by omega)]
    constructor
    · intro hholds
      refine ⟨⟨k, ⟨c, i⟩⟩, ⟨ht.reachable_point hc hblock (by omega), .within hblock hi, ?_⟩, hholds⟩
      simp
    · rintro ⟨⟨j, p⟩, ⟨-, hnext, hsweep⟩, hholds⟩
      dsimp only at hnext hsweep hholds
      cases hnext with
      | within =>
        rw [Func.delay_within] at hsweep
        rw [hsweep]
        exact hholds

end Facts

/-! ## Coming to rest -/

/-- From a sweep on that changes nothing, each sweep finds at a point what the one before found. -/
theorem atMoment_eq_of_fixed {n : Nat}
    (hfix : a.sweep f order (a.afterSweeps f order n) = a.afterSweeps f order n) (hk : n ≤ k)
    (p : Point) : a.atMoment f order ⟨k, p⟩ = a.atMoment f order ⟨n, p⟩ := by
  have hsame : ∀ {j}, n ≤ j → ∀ c, (a.afterSweeps f order
      (if order.idxOf c < order.idxOf p.block then j + 1 else j)).getD c a.start =
        (a.afterSweeps f order n).getD c a.start := by
    intro j hj c
    have hle : n ≤ if order.idxOf c < order.idxOf p.block then j + 1 else j := by
      split <;> omega
    rw [afterSweeps, iterate_eq_of_fixed hfix hle]
    rfl
  have hentry : a.entry f (a.found f order k p.block) p.block =
      a.entry f (a.found f order n p.block) p.block := by
    refine entry_congr fun c => ?_
    rw [getD_found, getD_found, hsame hk, hsame le_rfl]
  simp only [atMoment, before, hentry]

/-- If the state before each reachable point comes to rest, some sweep changes nothing. -/
theorem fixed_of_atMoment (ht : f.Traversal order) (hrest : ∀ p, f.Reachable p →
      ∃ n, ∀ k ≥ n, a.atMoment f order ⟨k, p⟩ = a.atMoment f order ⟨n, p⟩) :
    ∃ n, a.sweep f order (a.afterSweeps f order n) = a.afterSweeps f order n := by
  have heach : ∀ b, ∃ n, ∀ k ≥ n, (a.afterSweeps f order (k + 1)).getD b a.start =
      (a.afterSweeps f order (n + 1)).getD b a.start := by
    intro b
    by_cases hb : b ∈ order
    · obtain ⟨block, hblock⟩ := ht.exists_block hb
      obtain ⟨n, hn⟩ := hrest _ (ht.reachable_point hb hblock le_rfl)
      refine ⟨n, fun k hk => ?_⟩
      rw [getD_afterSweeps_succ ht hb hblock, getD_afterSweeps_succ ht hb hblock, hn k hk]
    · refine ⟨0, fun k _ => ?_⟩
      rw [getD_afterSweeps_of_notMem hb, getD_afterSweeps_of_notMem hb]
  choose last hlast using heach
  -- past the last change at the end of any block
  let n := (Finset.range f.blocks.length).sup last
  refine ⟨n + 1, ?_⟩
  rw [← afterSweeps_succ]
  refine Table.ext_getD (by rw [length_afterSweeps, length_afterSweeps]) a.start fun b hb => ?_
  rw [length_afterSweeps] at hb
  have hle : last b ≤ n := Finset.le_sup (f := last) (Finset.mem_range.mpr hb)
  rw [hlast b n hle, hlast b (n + 1) (Nat.le_succ_of_le hle)]

end Forward

end Tenure

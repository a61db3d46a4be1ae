import Mathlib.Data.Finset.Prod
import Tenure.Forward
import Tenure.Proofs.Graph.Settle
import Tenure.Proofs.Ir.Paths

/-!
# Forward analyses and paths

What the sweeps of a forward analysis compute is said in terms of paths. Whatever each step keeps
along the flow of control holds of the state before every reachable point, after any number of
sweeps (`Invariant.before`). A fact that points make or keep one by one (`Tracks`) holds in the
settled state before a point exactly if a path leads there from a point that makes it, past points
that keep it (`Tracks.before_iff`).
-/

namespace Tenure

open Relation Tenure.Graph

/-! ## Facts on their way -/

/-- A fact that the points in `gen` make and those in `keep` keep has come to `q`: some path of at
least one step leads from a point that makes it to `q`, past points that keep it. -/
def Func.Reaches (f : Func) (gen keep : Point → Prop) (q : Point) : Prop :=
  ∃ p p', f.Reachable p ∧ gen p ∧ f.Next p p' ∧
    ReflTransGen (fun x y => keep x ∧ f.Next x y) p' q

theorem Func.Reaches.next {f : Func} {gen keep : Point → Prop} {q r : Point} (hq : f.Reachable q)
    (h : gen q ∨ keep q ∧ f.Reaches gen keep q) (hqr : f.Next q r) : f.Reaches gen keep r := by
  rcases h with hgen | ⟨hkeep, p, p', hp, hgen, hstep, hpath⟩
  · exact ⟨q, r, hq, hgen, hqr, ReflTransGen.refl⟩
  · exact ⟨p, p', hp, hgen, hstep, ReflTransGen.tail hpath ⟨hkeep, hqr⟩⟩

namespace Forward

variable {σ : Type} {a : Forward σ} {f : Func} {exits : List σ} {b : BlockId} {block : Block}

/-! ## States before points -/

/-- The state before a program point, from the states at the ends of blocks. -/
def before (a : Forward σ) (f : Func) (exits : List σ) (p : Point) : σ :=
  a.through ((f.pointsOf p.block).take p.index) (a.entry f exits p.block)

/-- The state at the end of a block, from the states at the ends of blocks before. -/
def atEnd (a : Forward σ) (f : Func) (exits : List σ) (b : BlockId) : σ :=
  a.through (f.pointsOf b) (a.entry f exits b)

@[simp]
theorem before_zero : a.before f exits ⟨b, 0⟩ = a.entry f exits b := rfl

theorem before_succ (hb : f.blocks[b]? = some block) {i : Nat} (hi : i ≤ block.statements.length) :
    a.before f exits ⟨b, i + 1⟩ = a.step ⟨b, i⟩ (a.before f exits ⟨b, i⟩) := by
  have hget : (f.pointsOf b)[i]? = some ⟨b, i⟩ := by
    rw [Func.pointsOf_eq hb, List.getElem?_map, List.getElem?_range (by omega)]
    rfl
  simp [before, through, List.take_add_one, hget]

theorem atEnd_eq (hb : f.blocks[b]? = some block) :
    a.atEnd f exits b =
      a.step ⟨b, block.statements.length⟩ (a.before f exits ⟨b, block.statements.length⟩) := by
  rw [← before_succ hb le_rfl, before, List.take_of_length_le (by simp [Func.pointsOf_eq hb])]
  rfl

private theorem trace_go_eq (points : List Point) (first : Nat)
    (hpoints : ∀ i p, points[i]? = some p → p.index = first + i) (s : σ) :
    trace.go a points s =
      points.map fun p => (p, a.through (points.take (p.index - first)) s) := by
  induction points generalizing first s with
  | nil => rfl
  | cons p rest ih =>
    have hp : p.index = first := hpoints 0 p rfl
    rw [trace.go, ih (first + 1) fun i q hq => by rw [hpoints (i + 1) q hq]; omega]
    simp only [List.map_cons, hp, Nat.sub_self, List.take_zero]
    congr 1
    refine List.map_congr_left fun q hq => ?_
    obtain ⟨i, hi⟩ := List.mem_iff_getElem?.mp hq
    have hindex : q.index - first = (q.index - (first + 1)) + 1 := by
      have := hpoints (i + 1) q hi
      omega
    rw [hindex, List.take_succ_cons]
    rfl

/-- The trace of a block pairs each of its points with the state before it. -/
theorem trace_eq (a : Forward σ) (f : Func) (exits : List σ) (b : BlockId) :
    a.trace f exits b = (f.pointsOf b).map fun p => (p, a.before f exits p) := by
  have hindex : ∀ i p, (f.pointsOf b)[i]? = some p → p.index = 0 + i ∧ p.block = b := by
    intro i p hp
    rw [Func.pointsOf] at hp
    split at hp
    next =>
      rw [List.getElem?_map, Option.map_eq_some_iff] at hp
      obtain ⟨j, hj, rfl⟩ := hp
      have hlt := (List.getElem?_eq_some_iff.mp hj).1
      rw [List.length_range] at hlt
      rw [List.getElem?_range hlt] at hj
      exact ⟨by simpa using (Option.some.inj hj).symm, rfl⟩
    next => simp at hp
  rw [trace, trace_go_eq _ 0 fun i p hp => (hindex i p hp).1]
  refine List.map_congr_left fun p hp => ?_
  obtain ⟨i, hi⟩ := List.mem_iff_getElem?.mp hp
  rw [before, (hindex i p hi).2]
  rfl

/-! ## Entries of blocks -/

/-- The entry of a block is made by joining in the ends of its predecessors one by one. -/
theorem entry_fold {P : List BlockId → σ → Prop} (hstart : P [] a.start)
    (hjoin : ∀ ps p s, p ∈ f.predecessors b → P ps s →
      P (ps ++ [p]) (a.join s (exits.getD p a.start))) :
    P (f.predecessors b) (a.entry f exits b) := by
  rw [entry]
  generalize f.predecessors b = preds at hjoin ⊢
  induction preds using List.reverseRecOn with
  | nil => exact hstart
  | append_singleton preds p ih =>
    rw [List.foldl_append]
    refine hjoin preds p _ (by simp) (ih fun ps q s hq => hjoin ps q s ?_)
    exact List.mem_append_left _ hq

/-- What joins keep, the entry of a block has if the ends of its predecessors have it. -/
theorem entry_induction {P : σ → Prop} (hstart : P a.start)
    (hjoin : ∀ s t, P s → P t → P (a.join s t))
    (hpred : ∀ p ∈ f.predecessors b, P (exits.getD p a.start)) : P (a.entry f exits b) :=
  entry_fold (P := fun _ s => P s) hstart fun _ p s hp hs => hjoin s _ hs (hpred p hp)

theorem entry_congr {exits' : List σ} (h : ∀ c, exits.getD c a.start = exits'.getD c a.start) :
    a.entry f exits b = a.entry f exits' b := by
  simp only [entry, h]

/-! ## Sweeps -/

variable {order : List BlockId}

theorem sweep_cons (b : BlockId) (order : List BlockId) (exits : List σ) :
    a.sweep f (b :: order) exits = a.sweep f order (exits.set b (a.atEnd f exits b)) := rfl

@[simp]
theorem length_sweep : (a.sweep f order exits).length = exits.length := by
  induction order generalizing exits with
  | nil => rfl
  | cons b order ih => rw [sweep_cons, ih, List.length_set]

/-- What the recomputation of each block keeps, a sweep keeps. -/
theorem sweep_induction {P : List σ → Prop} (h : P exits)
    (hset : ∀ e, P e → ∀ b ∈ order, P (e.set b (a.atEnd f e b))) : P (a.sweep f order exits) := by
  induction order generalizing exits with
  | nil => exact h
  | cons b order ih =>
    rw [sweep_cons]
    exact ih (hset _ h b (by simp)) fun e he c hc => hset e he c (by simp [hc])

theorem getElem?_sweep_of_notMem (hb : b ∉ order) :
    (a.sweep f order exits)[b]? = exits[b]? := by
  refine sweep_induction (P := fun e => e[b]? = exits[b]?) rfl fun e he c hc => ?_
  have hne : c ≠ b := fun h => hb (h ▸ hc)
  rw [List.getElem?_set_ne hne, he]

theorem sweep_append (l l' : List BlockId) (exits : List σ) :
    a.sweep f (l ++ l') exits = a.sweep f l' (a.sweep f l exits) := List.foldl_append

/-- A sweep makes the end of a block from the ends of its predecessors, the new ones of blocks that
come before it in the order and the old ones of the others. -/
theorem getD_sweep (hnodup : order.Nodup) (hlt : ∀ b ∈ order, b < exits.length) (hb : b ∈ order) :
    ∃ mixed, (a.sweep f order exits).getD b a.start = a.atEnd f mixed b ∧
      ∀ c, mixed.getD c a.start =
        if order.idxOf c < order.idxOf b then (a.sweep f order exits).getD c a.start
        else exits.getD c a.start := by
  obtain ⟨front, rest, rfl⟩ := List.append_of_mem hb
  have hdisjoint := (List.nodup_append.mp hnodup).2.2
  have hfront : b ∉ front := fun h => hdisjoint b h b (by simp) rfl
  have hrest : b ∉ rest := (List.nodup_cons.mp (List.nodup_append.mp hnodup).2.1).1
  -- when the sweep comes to `b` it has gone over the blocks in front of it and no others
  refine ⟨a.sweep f front exits, ?_, fun c => ?_⟩
  · rw [sweep_append, sweep_cons, List.getD_eq_getElem?_getD, getElem?_sweep_of_notMem hrest,
      List.getElem?_set_self (by rw [length_sweep]; exact hlt b hb)]
    rfl
  · have hindex : (front ++ b :: rest).idxOf b = front.length := by
      rw [List.idxOf_append_of_notMem hfront, List.idxOf_cons_self, Nat.add_zero]
    rw [hindex]
    by_cases hc : c ∈ front
    · have hrest : c ∉ b :: rest := fun h => hdisjoint c hc c h rfl
      rw [if_pos (by rw [List.idxOf_append_of_mem hc]; exact List.idxOf_lt_length_of_mem hc),
        sweep_append, List.getD_eq_getElem?_getD, List.getD_eq_getElem?_getD,
        getElem?_sweep_of_notMem hrest]
    · rw [if_neg (by rw [List.idxOf_append_of_notMem hc]; omega), List.getD_eq_getElem?_getD,
        List.getD_eq_getElem?_getD, getElem?_sweep_of_notMem hc]

/-- The states at the ends of blocks after a number of sweeps from nothing known. -/
def afterSweeps (a : Forward σ) (f : Func) (order : List BlockId) (n : Nat) : List σ :=
  (a.sweep f order)^[n] (a.initial f)

theorem afterSweeps_succ (n : Nat) :
    a.afterSweeps f order (n + 1) = a.sweep f order (a.afterSweeps f order n) :=
  Function.iterate_succ_apply' _ _ _

/-- States at the ends of blocks that some sweeps lead to and a further sweep keeps. -/
structure Settled (a : Forward σ) (f : Func) (order : List BlockId) (exits : List σ) : Prop where
  iterate : ∃ n, exits = a.afterSweeps f order n
  fixed : a.sweep f order exits = exits

theorem settled_of_exits [DecidableEq σ] {states : Nat}
    (h : a.exits f order states = .ok exits) : a.Settled f order exits := by
  obtain ⟨hfixed, hiterate⟩ := settle_spec (settled_eq_ok.mp h)
  exact ⟨hiterate, hfixed⟩

theorem length_afterSweeps (n : Nat) :
    (a.afterSweeps f order n).length = f.blocks.length := by
  induction n with
  | zero => exact List.length_replicate
  | succ n ih => rw [afterSweeps_succ, length_sweep, ih]

/-- In the settled states every listed block is as its predecessors make it. -/
theorem Settled.getD_eq (h : a.Settled f order exits) (ht : f.Traversal order) (hb : b ∈ order) :
    exits.getD b a.start = a.atEnd f exits b := by
  have hlt : ∀ b ∈ order, b < exits.length := by
    obtain ⟨n, hn⟩ := h.iterate
    rw [hn, length_afterSweeps]
    exact fun b hb => ht.lt hb
  obtain ⟨mixed, hend, hmixed⟩ := getD_sweep (a := a) (f := f) ht.nodup hlt hb
  -- new and old ends are the same, so it does not matter which of them the block was made from
  simp only [h.fixed, ite_self] at hend hmixed
  rw [hend, atEnd, atEnd, entry_congr hmixed]

/-! ## Invariants along the flow of control -/

/-- `good p s` may be said of the state `s` before the point `p`: it holds before anything is known,
joins keep it, and so does every step from a reachable point to the next. -/
structure Invariant (a : Forward σ) (f : Func) (good : Point → σ → Prop) : Prop where
  start : ∀ p, good p a.start
  join : ∀ {p s t}, good p s → good p t → good p (a.join s t)
  step : ∀ {p q s}, f.Reachable p → f.Next p q → good p s → good q (a.step p s)

section Invariant

variable {good : Point → σ → Prop} (h : a.Invariant f good) (hf : f.Valid)
  (ht : f.Traversal order)
include h hf ht

private theorem good_before (hexits : ∀ b c, Edge f.successors b c →
    good ⟨c, 0⟩ (exits.getD b a.start)) {p : Point} (hp : f.Reachable p) :
    good p (a.before f exits p) := by
  obtain ⟨b, i⟩ := p
  obtain ⟨hb, hi⟩ : b ∈ order ∧ (⟨b, i⟩ : Point) ∈ f.pointsOf b := ht.reachable_iff.mp hp
  obtain ⟨block, hblock⟩ := ht.exists_block hb
  replace hi : i ≤ block.statements.length := ((Func.mem_pointsOf hblock).mp hi).2
  clear hp
  -- along the points of the block; at the first one the ends of the predecessors are joined
  induction i with
  | zero =>
    refine entry_induction (h.start _) (fun s t hs ht => h.join hs ht) fun c hc => ?_
    exact hexits c b ((Func.mem_predecessors hf).mp hc)
  | succ i ih =>
    rw [before_succ hblock (by omega)]
    exact h.step (ht.reachable_point hb hblock (by omega)) (.within hblock hi) (ih (by omega))

private theorem good_exits (n : Nat) (b c : BlockId) (hbc : Edge f.successors b c) :
    good ⟨c, 0⟩ ((a.afterSweeps f order n).getD b a.start) := by
  induction n generalizing b c with
  | zero =>
    rw [afterSweeps, Function.iterate_zero_apply, initial, List.getD_eq_getElem?_getD]
    have hget : (List.replicate f.blocks.length a.start)[b]?.getD a.start = a.start := by
      rw [List.getElem?_replicate]
      split <;> rfl
    rw [hget]
    exact h.start _
  | succ n ih =>
    rw [afterSweeps_succ]
    refine sweep_induction (P := fun e => ∀ b c, Edge f.successors b c →
      good ⟨c, 0⟩ (e.getD b a.start)) ih (fun e he d hd => ?_) b c hbc
    intro b c hbc
    by_cases hdb : d = b
    · -- the block that the sweep has just recomputed
      subst hdb
      obtain ⟨block, hblock⟩ := ht.exists_block hd
      have hend := ht.reachable_point hd hblock le_rfl
      have hgood : good ⟨c, 0⟩ (a.atEnd f e d) := by
        rw [atEnd_eq hblock]
        rw [Edge, Func.successors_eq hblock] at hbc
        exact h.step hend (.jump hblock hbc) (good_before h hf ht he hend)
      rw [List.getD_eq_getElem?_getD]
      by_cases hlt : d < e.length
      · rw [List.getElem?_set_self hlt]
        exact hgood
      · rw [List.getElem?_eq_none (by rw [List.length_set]; exact Nat.not_lt.mp hlt)]
        exact h.start _
    · rw [List.getD_eq_getElem?_getD, List.getElem?_set_ne hdb, ← List.getD_eq_getElem?_getD]
      exact he b c hbc

/-- An invariant holds of the state before every reachable point, after any number of sweeps. -/
theorem Invariant.before (n : Nat) {p : Point} (hp : f.Reachable p) :
    good p (a.before f (a.afterSweeps f order n) p) :=
  good_before h hf ht (good_exits h hf ht n) hp

end Invariant

/-! ## Facts that points make and keep -/

/-- Every state the analysis can come to has this shape. -/
structure Shaped (a : Forward σ) (ok : σ → Prop) : Prop where
  start : ok a.start
  join : ∀ {s t}, ok s → ok t → ok (a.join s t)
  step : ∀ {p s}, ok s → ok (a.step p s)

/-- The analysis follows a fact exactly: it does not hold at first, a join has it if one side does,
and after a point it holds if the point makes it, or keeps it and it held before. -/
structure Tracks (a : Forward σ) (ok holds : σ → Prop) (gen keep : Point → Prop) : Prop where
  start : ¬ holds a.start
  join : ∀ {s t}, ok s → ok t → (holds (a.join s t) ↔ holds s ∨ holds t)
  step : ∀ {p s}, ok s → (holds (a.step p s) ↔ gen p ∨ keep p ∧ holds s)

section Tracks

variable {ok holds : σ → Prop} {gen keep : Point → Prop}

theorem Shaped.invariant (hok : a.Shaped ok) (f : Func) : a.Invariant f fun _ s => ok s where
  start _ := hok.start
  join hs ht := hok.join hs ht
  step _ _ hs := hok.step hs

theorem Shaped.entry (hok : a.Shaped ok) (hexits : ∀ b, ok (exits.getD b a.start)) (b : BlockId) :
    ok (a.entry f exits b) :=
  entry_induction hok.start (fun _ _ => hok.join) fun p _ => hexits p

theorem Shaped.through (hok : a.Shaped ok) (points : List Point) {s : σ} (hs : ok s) :
    ok (a.through points s) := by
  induction points generalizing s with
  | nil => exact hs
  | cons p rest ih => exact ih (hok.step hs)

/-- If a join has a fact whenever one side does, the entry of a block has it exactly if the end of a
predecessor does. -/
theorem entry_iff_of_join (holds : σ → Prop) (hok : a.Shaped ok) (hstart : ¬ holds a.start)
    (hjoin : ∀ {s t}, ok s → ok t → (holds (a.join s t) ↔ holds s ∨ holds t))
    (hexits : ∀ b, ok (exits.getD b a.start)) (b : BlockId) :
    holds (a.entry f exits b) ↔ ∃ p ∈ f.predecessors b, holds (exits.getD p a.start) := by
  refine (entry_fold (P := fun ps s => ok s ∧
    (holds s ↔ ∃ p ∈ ps, holds (exits.getD p a.start))) ?_ ?_).2
  · exact ⟨hok.start, by simp [hstart]⟩
  · rintro ps p s - ⟨hs, hiff⟩
    refine ⟨hok.join hs (hexits p), ?_⟩
    rw [hjoin hs (hexits p), hiff]
    simp [or_and_right, exists_or]

theorem Tracks.entry_iff (h : a.Tracks ok holds gen keep) (hok : a.Shaped ok)
    (hexits : ∀ b, ok (exits.getD b a.start)) (b : BlockId) :
    holds (a.entry f exits b) ↔ ∃ p ∈ f.predecessors b, holds (exits.getD p a.start) :=
  entry_iff_of_join holds hok h.start h.join hexits b

variable (h : a.Tracks ok holds gen keep) (hok : a.Shaped ok) (hf : f.Valid)
  (ht : f.Traversal order) (hset : a.Settled f order exits)
include hok hf ht hset

theorem Settled.shaped : ∀ b, ok (exits.getD b a.start) := by
  intro b
  obtain ⟨n, rfl⟩ := hset.iterate
  by_cases hb : b ∈ order
  · obtain ⟨block, hblock⟩ := ht.exists_block hb
    rw [hset.getD_eq ht hb, atEnd_eq hblock]
    exact hok.step ((hok.invariant f).before hf ht n (ht.reachable_point hb hblock le_rfl))
  · -- an unlisted block keeps the state it had at the beginning
    have hget : ∀ n, (a.afterSweeps f order n)[b]? = (a.initial f)[b]? := by
      intro n
      induction n with
      | zero => rfl
      | succ n ih => rw [afterSweeps_succ, getElem?_sweep_of_notMem hb, ih]
    rw [List.getD_eq_getElem?_getD, hget, initial, List.getElem?_replicate]
    split <;> exact hok.start

include h

/-- In the settled states a fact passes from a point to the next one. -/
theorem Tracks.holds_next {p q : Point} (hp : f.Reachable p) (hpq : f.Next p q)
    (hstep : holds (a.step p (a.before f exits p))) : holds (a.before f exits q) := by
  cases hpq with
  | within hb hi =>
    rw [before_succ hb (by omega)]
    exact hstep
  | @jump b c block hb hc =>
    have hmem : b ∈ order := (ht.reachable_iff.mp hp).1
    rw [before_zero, h.entry_iff hok (hset.shaped hok hf ht)]
    refine ⟨b, (Func.mem_predecessors hf).mpr (Func.edge_iff.mpr ⟨block, hb, hc⟩), ?_⟩
    rw [hset.getD_eq ht hmem, atEnd_eq hb]
    exact hstep

/-- In the settled states a fact holds before a reachable point exactly if a path has brought it
there. -/
theorem Tracks.before_iff {q : Point} (hq : f.Reachable q) :
    holds (a.before f exits q) ↔ f.Reaches gen keep q := by
  have hshaped : ∀ {p : Point}, f.Reachable p → ok (a.before f exits p) := by
    intro p hp
    obtain ⟨n, rfl⟩ := hset.iterate
    exact (hok.invariant f).before hf ht n hp
  constructor
  · -- every holding fact has come along a path, in whatever sweep
    have hinv : a.Invariant f fun p s => ok s ∧ (holds s → f.Reaches gen keep p) := by
      refine ⟨fun p => ⟨hok.start, fun hs => absurd hs h.start⟩, ?_, ?_⟩
      · rintro p s t ⟨hs, hsreach⟩ ⟨ht, htreach⟩
        refine ⟨hok.join hs ht, fun hjoin => ?_⟩
        exact ((h.join hs ht).mp hjoin).elim hsreach htreach
      · rintro p q s hp hpq ⟨hs, hsreach⟩
        refine ⟨hok.step hs, fun hstep => ?_⟩
        exact Func.Reaches.next hp (((h.step hs).mp hstep).imp_right (.imp_right hsreach)) hpq
    obtain ⟨n, rfl⟩ := hset.iterate
    exact (hinv.before hf ht n hq).2
  · -- along the path, since in the settled states a fact passes from each point to the next
    rintro ⟨p, p', hp, hgen, hstep, hpath⟩
    have hp' := hp.next hstep
    have hfirst : holds (a.before f exits p') :=
      h.holds_next hok hf ht hset hp hstep ((h.step (hshaped hp)).mpr (Or.inl hgen))
    clear hq
    suffices hgoal : f.Reachable q ∧ holds (a.before f exits q) from hgoal.2
    induction hpath with
    | refl => exact ⟨hp', hfirst⟩
    | tail _ hlast ih =>
      obtain ⟨hreach, hholds⟩ := ih
      refine ⟨hreach.next hlast.2, h.holds_next hok hf ht hset hreach hlast.2 ?_⟩
      exact (h.step (hshaped hreach)).mpr (Or.inr ⟨hlast.1, hholds⟩)

end Tracks

end Forward

end Tenure

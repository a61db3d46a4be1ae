import Tenure.Proofs.Forward
import Tenure.Proofs.Table

/-!
# Analyses that settle

A sweep takes states with more facts to states with more facts (`sweep_mono`). So the sweeps from
nothing known only add facts, and an analysis whose states are told apart by finitely many tracked
facts comes to rest (`exits_isOk`). An analysis with finitely many states that is not monotone may
never come to rest; it has a result exactly if it does (`exits_isOk_iff`).
-/

namespace Tenure.Forward

open Tenure.Graph

variable {σ ι : Type} {a : Forward σ} {f : Func} {order : List BlockId} {idx : Finset ι}
  {ok : σ → Prop} {holds : ι → σ → Prop} {gen keep : ι → Point → Prop}

/-- All states at the ends of blocks have the right shape. -/
def ShapedExits (a : Forward σ) (ok : σ → Prop) (exits : List σ) : Prop :=
  ∀ b, ok (exits.getD b a.start)

/-- The second states have every fact that the first have. -/
def Below (a : Forward σ) (idx : Finset ι) (holds : ι → σ → Prop) (e e' : List σ) : Prop :=
  ∀ b, ∀ i ∈ idx, holds i (e.getD b a.start) → holds i (e'.getD b a.start)

section Mono

variable (hok : a.Shaped ok) (htracks : ∀ i ∈ idx, a.Tracks ok (holds i) (gen i) (keep i))
include hok

theorem ShapedExits.set {exits : List σ} (h : a.ShapedExits ok exits) (b : BlockId) :
    a.ShapedExits ok (exits.set b (a.atEnd f exits b)) := by
  intro c
  rw [Table.getD_set]
  split
  · exact hok.through _ (hok.entry h b)
  · exact h c

theorem ShapedExits.sweep {exits : List σ} (h : a.ShapedExits ok exits) :
    a.ShapedExits ok (a.sweep f order exits) :=
  sweep_induction h fun _ he b _ => he.set hok b

include htracks

theorem through_mono {i : ι} (hi : i ∈ idx) (points : List Point) {s t : σ} (hs : ok s) (ht : ok t)
    (hst : holds i s → holds i t) : holds i (a.through points s) → holds i (a.through points t) := by
  induction points generalizing s t with
  | nil => exact hst
  | cons p rest ih =>
    refine ih (hok.step hs) (hok.step ht) fun hstep => ?_
    rw [(htracks i hi).step hs] at hstep
    rw [(htracks i hi).step ht]
    exact hstep.imp_right (.imp_right hst)

theorem atEnd_mono {e e' : List σ} (he : a.ShapedExits ok e) (he' : a.ShapedExits ok e')
    (hle : a.Below idx holds e e') (b : BlockId) {i : ι} (hi : i ∈ idx) :
    holds i (a.atEnd f e b) → holds i (a.atEnd f e' b) := by
  refine through_mono hok htracks hi _ (hok.entry he b) (hok.entry he' b) fun hentry => ?_
  rw [(htracks i hi).entry_iff hok he] at hentry
  rw [(htracks i hi).entry_iff hok he']
  obtain ⟨p, hp, hholds⟩ := hentry
  exact ⟨p, hp, hle p i hi hholds⟩

/-- A sweep keeps the order of states by their facts. -/
theorem sweep_mono {e e' : List σ} (hlen : e.length = e'.length) (he : a.ShapedExits ok e)
    (he' : a.ShapedExits ok e') (hle : a.Below idx holds e e') :
    a.Below idx holds (a.sweep f order e) (a.sweep f order e') := by
  induction order generalizing e e' with
  | nil => exact hle
  | cons b order ih =>
    refine ih (by rw [List.length_set, List.length_set, hlen]) (he.set hok b) (he'.set hok b) ?_
    intro c i hi
    rw [Table.getD_set, Table.getD_set, ← hlen]
    split
    · exact atEnd_mono hok htracks he he' hle b hi
    · exact hle c i hi

end Mono

/-- An analysis settles if finitely many tracked facts tell its states apart. -/
theorem exits_isOk [DecidableEq σ] {states : Nat} (idx : Finset ι) (holds : ι → σ → Prop)
    (hok : a.Shaped ok) (htracks : ∀ i ∈ idx, a.Tracks ok (holds i) (gen i) (keep i))
    (ext : ∀ s t, ok s → ok t → (∀ i ∈ idx, holds i s ↔ holds i t) → s = t)
    (enough : f.blocks.length * idx.card ≤ states ^ f.blocks.length) :
    ∃ exits, a.exits f order states = .ok exits := by
  have hinitial : ∀ b, (a.initial f).getD b a.start = a.start := fun b =>
    Table.getD_replicate _ b a.start
  -- a fact of the function is a block together with a fact about the state at its end
  let facts : Finset (BlockId × ι) := (Finset.range f.blocks.length) ×ˢ idx
  have hbelow : ∀ e e' : List σ, e.length = f.blocks.length →
      (∀ k ∈ facts, holds k.2 (e.getD k.1 a.start) → holds k.2 (e'.getD k.1 a.start)) →
        a.Below idx holds e e' := by
    intro e e' hlen hfacts b i hi hholds
    by_cases hb : b < f.blocks.length
    · exact hfacts (b, i) (Finset.mk_mem_product (Finset.mem_range.mpr hb) hi) hholds
    · rw [List.getD_eq_default _ _ (hlen ▸ Nat.not_lt.mp hb)] at hholds
      exact absurd hholds (htracks i hi).start
  have hsettle : ∃ exits, settle (a.sweep f order) (Nat.pow states f.blocks.length + 1)
      (a.initial f) = some exits := by
    refine settle_isSome_of_growing facts (fun k e => holds k.2 (e.getD k.1 a.start))
      (fun e => e.length = f.blocks.length ∧ a.ShapedExits ok e) ?_ ?_ ?_ ?_ ?_ ?_
    · exact ⟨by simp [initial], fun b => by rw [hinitial]; exact hok.start⟩
    · exact fun e he => ⟨by rw [length_sweep, he.1], he.2.sweep hok⟩
    · intro k hk hholds
      rw [hinitial] at hholds
      exact absurd hholds (htracks k.2 (Finset.mem_product.mp hk).2).start
    · intro e e' he he' hle k hk
      exact sweep_mono hok htracks (he.1.trans he'.1.symm) he.2 he'.2 (hbelow e e' he.1 hle) k.1 k.2
        (Finset.mem_product.mp hk).2
    · intro e e' he he' hiff
      refine Table.ext_getD (he.1.trans he'.1.symm) a.start fun b hb => ?_
      refine ext _ _ (he.2 b) (he'.2 b) fun i hi => ?_
      exact hiff (b, i) (Finset.mk_mem_product (Finset.mem_range.mpr (he.1 ▸ hb)) hi)
    · rw [Finset.card_product, Finset.card_range]
      exact Nat.lt_succ_of_le enough
  obtain ⟨exits, hexits⟩ := hsettle
  exact ⟨exits, settled_eq_ok.mpr hexits⟩

theorem shapedExits_afterSweeps (hok : a.Shaped ok) (n : Nat) :
    a.ShapedExits ok (a.afterSweeps f order n) := by
  induction n with
  | zero =>
    intro b
    rw [afterSweeps, Function.iterate_zero_apply, initial, Table.getD_replicate]
    exact hok.start
  | succ n ih =>
    rw [afterSweeps_succ]
    exact ih.sweep hok

/-- An analysis with finitely many states has a result exactly if some sweep changes nothing. -/
theorem exits_isOk_iff [DecidableEq σ] {count : Nat} (states : Finset σ)
    (hok : a.Shaped (· ∈ states)) (enough : states.card ≤ count) :
    (∃ exits, a.exits f order count = .ok exits) ↔
      ∃ n, a.sweep f order (a.afterSweeps f order n) = a.afterSweeps f order n := by
  have hmem : ∀ n, a.afterSweeps f order n ∈ Table.tables states f.blocks.length := by
    intro n
    refine (Table.mem_tables_iff_getD a.start).mpr ⟨length_afterSweeps n, fun b _ => ?_⟩
    exact shapedExits_afterSweeps hok n b
  have hcard : (Table.tables states f.blocks.length).card < Nat.pow count f.blocks.length + 1 :=
    Nat.lt_succ_of_le ((Table.card_tables_le _ _).trans (Nat.pow_le_pow_left enough _))
  have hsettle := settle_isSome_iff (Table.tables states f.blocks.length) hmem hcard
  simp only [exits, settled_eq_ok]
  exact hsettle

end Tenure.Forward

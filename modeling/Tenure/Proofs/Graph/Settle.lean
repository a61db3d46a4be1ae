import Mathlib.Data.Finset.Card
import Mathlib.Data.Finset.Lattice.Fold
import Mathlib.Data.Nat.Find
import Mathlib.Logic.Function.Iterate
import Tenure.Graph.Search

/-!
# When an iteration settles

`settle` returns the first fixed iterate. Two arguments show that the bound does not cut it short.
States that only gain facts settle within as many steps as there are facts
(`settle_isSome_of_growing`). An iteration inside a finite set of states that settles at all does so
before it has used up the set (`settle_isSome_iff`), whether it is monotone or not.
-/

namespace Tenure.Graph

variable {σ : Type} {step : σ → σ} {bound : Nat} {s t : σ}

/-! ## Iterates -/

/-- From a fixed iterate on nothing changes. -/
theorem iterate_eq_of_fixed {n : Nat} (hfix : step (step^[n] s) = step^[n] s) {k : Nat}
    (hk : n ≤ k) : step^[k] s = step^[n] s := by
  induction k, hk using Nat.le_induction with
  | base => rfl
  | succ k _ ih => rw [Function.iterate_succ_apply', ih, hfix]

/-- Before its first fixed iterate, an iteration repeats no state. -/
theorem iterate_injOn_of_first_fixed {n : Nat} (hfix : step (step^[n] s) = step^[n] s)
    (hfirst : ∀ k < n, step (step^[k] s) ≠ step^[k] s) :
    Set.InjOn (fun k => step^[k] s) (Finset.range (n + 1)) := by
  -- two equal iterates would bring the fixed one forward
  have hlt : ∀ i j, i < j → j ≤ n → step^[i] s ≠ step^[j] s := by
    intro i j hij hj heq
    have hsame : step^[i + (n - j)] s = step^[n] s := by
      calc step^[i + (n - j)] s = step^[n - j] (step^[i] s) := by
            rw [Nat.add_comm, Function.iterate_add_apply]
        _ = step^[n - j] (step^[j] s) := by rw [heq]
        _ = step^[n] s := by rw [← Function.iterate_add_apply, Nat.sub_add_cancel hj]
    exact hfirst (i + (n - j)) (by omega) (by rw [hsame, hfix])
  intro i hi j hj heq
  simp only [Finset.coe_range, Set.mem_Iio] at hi hj
  rcases Nat.lt_trichotomy i j with h | h | h
  · exact absurd heq (hlt i j h (by omega))
  · exact h
  · exact absurd heq.symm (hlt j i h (by omega))

/-- An iteration that comes back to a state which is not fixed never has a fixed iterate. -/
theorem not_fixed_of_returns (i period : Nat) (hperiod : 0 < period)
    (hreturns : step^[i + period] s = step^[i] s) (hmoves : step^[i + 1] s ≠ step^[i] s) (n : Nat) :
    step (step^[n] s) ≠ step^[n] s := by
  intro hfix
  -- a later return to the state meets the fixed iterate
  have hagain : ∀ k, step^[i + k * period] s = step^[i] s := by
    intro k
    induction k with
    | zero => rw [Nat.zero_mul, Nat.add_zero]
    | succ k ih =>
      rw [Nat.succ_mul, ← Nat.add_assoc, Nat.add_comm, Function.iterate_add_apply, ih,
        ← Function.iterate_add_apply, Nat.add_comm, hreturns]
  have hlate : n ≤ i + n * period := (Nat.le_mul_of_pos_right n hperiod).trans (Nat.le_add_left _ _)
  have hsame : step^[i] s = step^[n] s := by
    rw [← hagain n]
    exact iterate_eq_of_fixed hfix hlate
  exact hmoves (by rw [Function.iterate_succ_apply', hsame, hfix])

/-- If every step that changes the state raises a weight, and no weight is above the bound, some
iterate up to the bound is fixed. -/
theorem exists_fixed_le (weight : σ → Nat) (hbound : ∀ s, weight s ≤ bound)
    (hraises : ∀ s, step s ≠ s → weight s < weight (step s)) (s : σ) :
    ∃ n ≤ bound, step (step^[n] s) = step^[n] s := by
  by_contra hnone
  have hmany : ∀ n ≤ bound + 1, n ≤ weight (step^[n] s) := by
    intro n
    induction n with
    | zero => intro _; exact Nat.zero_le _
    | succ n ih =>
      intro hn
      have hmoves : step (step^[n] s) ≠ step^[n] s := fun hfix => hnone ⟨n, by omega, hfix⟩
      have hless := hraises _ hmoves
      rw [Function.iterate_succ_apply']
      have := ih (by omega)
      omega
  have := hmany (bound + 1) le_rfl
  have := hbound (step^[bound + 1] s)
  omega

/-- A sequence in a finite set that takes only one value again and again stays with it in the
end. -/
theorem exists_eventually_eq (values : Finset σ) (seq : Nat → σ) (hvalues : ∀ k, seq k ∈ values)
    (hone : ∀ v w, (∀ n, ∃ k ≥ n, seq k = v) → (∀ n, ∃ k ≥ n, seq k = w) → v = w) :
    ∃ n, ∀ k ≥ n, seq k = seq n := by
  have hlast : ∀ v, ∃ n, (∀ n, ∃ k ≥ n, seq k = v) ∨ ∀ k ≥ n, seq k ≠ v := by
    intro v
    by_cases hv : ∀ n, ∃ k ≥ n, seq k = v
    · exact ⟨0, Or.inl hv⟩
    · push Not at hv
      obtain ⟨n, hn⟩ := hv
      exact ⟨n, Or.inr hn⟩
  choose last hlast using hlast
  -- past the last time of every value that stops, only values that come again are left
  have hagain : ∀ k ≥ values.sup last, ∀ n, ∃ j ≥ n, seq j = seq k := by
    intro k hk
    refine (hlast (seq k)).resolve_right fun hstops => ?_
    exact hstops k ((Finset.le_sup (hvalues k)).trans hk) rfl
  exact ⟨values.sup last, fun k hk => hone _ _ (hagain k hk) (hagain _ le_rfl)⟩

/-! ## Settling -/

variable [DecidableEq σ]

/-- The settled state is an iterate of the start, and the step keeps it. -/
theorem settle_spec (h : settle step bound s = some t) :
    step t = t ∧ ∃ n, t = step^[n] s := by
  induction bound generalizing s with
  | zero => simp [settle] at h
  | succ bound ih =>
    rw [settle] at h
    split at h
    next hfix =>
      obtain rfl := Option.some.inj h
      exact ⟨hfix, 0, rfl⟩
    next =>
      obtain ⟨hfix, n, hn⟩ := ih h
      exact ⟨hfix, n + 1, hn⟩

/-- A fixed iterate within the bound is found. -/
theorem settle_isSome_of_fixed {n : Nat} (hn : n < bound)
    (hfix : step (step^[n] s) = step^[n] s) : ∃ t, settle step bound s = some t := by
  induction bound generalizing s n with
  | zero => omega
  | succ bound ih =>
    rw [settle]
    split
    next => exact ⟨s, rfl⟩
    next hmoves =>
      cases n with
      | zero => exact absurd hfix hmoves
      | succ n => exact ih (by omega) hfix

/-! ## Growing states -/

section Growing

variable {κ : Type} (facts : Finset κ) (holds : κ → σ → Prop) (ok : σ → Prop)

open Classical in
/-- The facts that a state has. -/
private noncomputable def factsOf (s : σ) : Finset κ := facts.filter fun k => holds k s

/-- A monotone step that only adds facts to its start settles within as many steps as there are
facts, if the facts tell the states apart. -/
theorem settle_isSome_of_growing (ok_start : ok s) (ok_step : ∀ s, ok s → ok (step s))
    (grows : ∀ k ∈ facts, holds k s → holds k (step s))
    (mono : ∀ s t, ok s → ok t → (∀ k ∈ facts, holds k s → holds k t) →
      ∀ k ∈ facts, holds k (step s) → holds k (step t))
    (ext : ∀ s t, ok s → ok t → (∀ k ∈ facts, holds k s ↔ holds k t) → s = t)
    (enough : facts.card < bound) : ∃ t, settle step bound s = some t := by
  have hok : ∀ n, ok (step^[n] s) := by
    intro n
    induction n with
    | zero => exact ok_start
    | succ n ih => rw [Function.iterate_succ_apply']; exact ok_step _ ih
  have hgrows : ∀ n, ∀ k ∈ facts, holds k (step^[n] s) → holds k (step (step^[n] s)) := by
    intro n
    induction n with
    | zero => exact grows
    | succ n ih =>
      rw [Function.iterate_succ_apply']
      exact mono _ _ (hok n) (ok_step _ (hok n)) ih
  by_contra hnone
  -- every step that changes the state adds a fact, so `n` steps need `n` facts
  have hmany : ∀ n ≤ bound, n ≤ (factsOf facts holds (step^[n] s)).card := by
    intro n
    induction n with
    | zero => intro _; exact Nat.zero_le _
    | succ n ih =>
      intro hn
      have hmoves : step (step^[n] s) ≠ step^[n] s := fun hfix =>
        hnone (settle_isSome_of_fixed (by omega) hfix)
      have hsub : factsOf facts holds (step^[n] s) ⊂ factsOf facts holds (step (step^[n] s)) := by
        refine Finset.ssubset_iff_subset_ne.mpr ⟨?_, ?_⟩
        · intro k hk
          simp only [factsOf, Finset.mem_filter] at hk ⊢
          exact ⟨hk.1, hgrows n k hk.1 hk.2⟩
        · intro heq
          refine hmoves (ext _ _ (ok_step _ (hok n)) (hok n) fun k hk => ?_)
          have hiff := Finset.ext_iff.mp heq k
          simp only [factsOf, Finset.mem_filter, hk, true_and] at hiff
          exact hiff.symm
      have hlt := Finset.card_lt_card hsub
      rw [Function.iterate_succ_apply']
      have := ih (by omega)
      omega
  have hle : (factsOf facts holds (step^[bound] s)).card ≤ facts.card := by
    classical exact Finset.card_le_card (Finset.filter_subset _ _)
  have := hmany bound le_rfl
  omega

end Growing

/-! ## Iterations inside a finite set -/

/-- Inside a finite set of states smaller than the bound, `settle` has a result exactly if some
iterate is fixed. -/
theorem settle_isSome_iff (states : Finset σ) (hstates : ∀ n, step^[n] s ∈ states)
    (enough : states.card < bound) :
    (∃ t, settle step bound s = some t) ↔ ∃ n, step (step^[n] s) = step^[n] s := by
  constructor
  · rintro ⟨t, ht⟩
    obtain ⟨hfix, n, rfl⟩ := settle_spec ht
    exact ⟨n, hfix⟩
  · intro hex
    classical
    have hfix := Nat.find_spec hex
    have hinj := iterate_injOn_of_first_fixed hfix fun k hk => Nat.find_min hex hk
    have hcard := Finset.card_le_card_of_injOn _ (fun k _ => hstates k) hinj
    rw [Finset.card_range] at hcard
    exact settle_isSome_of_fixed (by omega) hfix

end Tenure.Graph

import Mathlib.Data.List.Forall2
import Tenure.Analysis
import Tenure.Proofs.Solution

/-!
# The order of signatures

A signature is within another one if it needs at most as much from every parameter. Raising a
signature gives the least one that both are within.
-/

namespace Tenure

namespace Mode

variable {m n k : Mode}

theorem within_iff : m.within n = true ↔ m.rank ≤ n.rank := by
  rw [within, decide_eq_true_eq]

theorem within_refl (m : Mode) : m.within m = true := within_iff.mpr (Nat.le_refl _)

theorem within_trans (h : m.within n = true) (h' : n.within k = true) : m.within k = true :=
  within_iff.mpr (Nat.le_trans (within_iff.mp h) (within_iff.mp h'))

theorem within_antisymm (h : m.within n = true) (h' : n.within m = true) : m = n :=
  rank_injective (Nat.le_antisymm (within_iff.mp h) (within_iff.mp h'))

theorem within_lub_left (m n : Mode) : m.within (m.lub n) = true := by
  rw [within_iff, rank_lub]
  exact Nat.le_max_left _ _

theorem within_lub_right (m n : Mode) : n.within (m.lub n) = true := by
  rw [within_iff, rank_lub]
  exact Nat.le_max_right _ _

theorem lub_within (h : m.within k = true) (h' : n.within k = true) :
    (m.lub n).within k = true := by
  rw [within_iff] at h h' ⊢
  rw [rank_lub]
  exact Nat.max_le.mpr ⟨h, h'⟩

theorem lubAll_within_iff {modes : List Mode} :
    (lubAll modes).within k = true ↔ ∀ m ∈ modes, m.within k = true := by
  have hfold : ∀ (rest : List Mode) (start : Mode),
      (rest.foldl lub start).within k = true ↔
        start.within k = true ∧ ∀ m ∈ rest, m.within k = true := by
    intro rest
    induction rest with
    | nil => simp
    | cons m rest ih =>
      intro start
      rw [List.foldl_cons, ih, List.forall_mem_cons, ← and_assoc]
      refine and_congr_left fun _ => ⟨fun h => ?_, fun h => lub_within h.1 h.2⟩
      exact ⟨within_trans (within_lub_left _ _) h, within_trans (within_lub_right _ _) h⟩
  rw [lubAll, hfold]
  exact and_iff_right (within_iff.mpr (Nat.zero_le _))

end Mode

namespace Signature

variable {a b c : Signature}

/-- The signature needs at most what the other one needs. -/
def Within (a b : Signature) : Prop :=
  List.Forall₂ (fun m n => m.within n = true) a.params b.params

instance (a b : Signature) : Decidable (a.Within b) :=
  inferInstanceAs (Decidable (List.Forall₂ _ _ _))

theorem Within.refl (a : Signature) : a.Within a :=
  List.forall₂_same.mpr fun m _ => m.within_refl

theorem Within.trans (h : a.Within b) (h' : b.Within c) : a.Within c := by
  unfold Within at *
  generalize a.params = as, b.params = bs, c.params = cs at h h'
  induction h generalizing cs with
  | nil => exact h'
  | cons hm _ ih =>
    cases h' with
    | cons hm' h' => exact .cons (Mode.within_trans hm hm') (ih _ h')

theorem Within.antisymm (h : a.Within b) (h' : b.Within a) : a.params = b.params := by
  unfold Within at *
  generalize a.params = as, b.params = bs at h h'
  induction h with
  | nil => rfl
  | cons hm _ ih =>
    cases h' with
    | cons hm' h' => rw [Mode.within_antisymm hm hm', ih h']

theorem length_raise (h : a.params.length = b.params.length) :
    (a.raise b).params.length = a.params.length := by
  rw [raise, ofModes, List.length_zipWith, h, Nat.min_self]

theorem within_raise (h : a.params.length = b.params.length) :
    a.Within (a.raise b) ∧ b.Within (a.raise b) := by
  constructor
  · refine List.forall₂_iff_get.mpr ⟨by simp [raise, ofModes, h], fun i hi hi' => ?_⟩
    simp only [raise, ofModes, List.get_eq_getElem, List.getElem_zipWith]
    exact Mode.within_lub_left _ _
  · refine List.forall₂_iff_get.mpr ⟨by simp [raise, ofModes, h], fun i hi hi' => ?_⟩
    simp only [raise, ofModes, List.get_eq_getElem, List.getElem_zipWith]
    exact Mode.within_lub_right _ _

theorem raise_within (ha : a.Within c) (hb : b.Within c) : (a.raise b).Within c := by
  obtain ⟨hlen, hget⟩ := List.forall₂_iff_get.mp ha
  obtain ⟨hlen', hget'⟩ := List.forall₂_iff_get.mp hb
  refine List.forall₂_iff_get.mpr ⟨by simp [raise, ofModes, hlen, hlen'], fun i hi hi' => ?_⟩
  simp only [raise, ofModes, List.get_eq_getElem, List.getElem_zipWith]
  exact Mode.lub_within (hget i (hlen ▸ hi') hi') (hget' i (hlen' ▸ hi') hi')

end Signature

/-! ## Signatures of solutions -/

/-- The signature of a solution has the modes of the parameters. -/
theorem Environment.solve_signature {env : Environment} {f : Func} {u : Usage} {s : Solution}
    (h : env.solve f u = .ok s) : s.signature.resolved = true ∧
      List.Forall₂ (fun q m => s.modes[q]? = some m) f.params s.signature.params := by
  simp only [solve, bind_eq_ok, pure_eq_ok] at h
  obtain ⟨reachable, -, uses, -, annotated, -, params, hparams, rfl⟩ := h
  exact ⟨rfl, (mapM_eq_ok.mp hparams).imp fun q m => lookup_eq_ok.mp⟩

theorem Environment.length_signature {env : Environment} {f : Func} {u : Usage} {s : Solution}
    (h : env.solve f u = .ok s) : s.signature.params.length = f.params.length :=
  (solve_signature h).2.length_eq.symm

/-- The first assumption about a function has its keywords and immutable borrows. -/
theorem Func.initialSignature_eq_ok {f : Func} {sig : Signature}
    (h : f.initialSignature = .ok sig) : sig.resolved = true ∧
      List.Forall₂ (fun q m => ∃ decl, f.bindings[q]? = some decl ∧
        m = decl.fixedMode?.getD .immutableBorrow) f.params sig.params := by
  simp only [initialSignature, bind_eq_ok, pure_eq_ok] at h
  obtain ⟨modes, hmodes, rfl⟩ := h
  refine ⟨rfl, (mapM_eq_ok.mp hmodes).imp fun q m hm => ?_⟩
  rw [bind_eq_ok] at hm
  obtain ⟨decl, hdecl, hm⟩ := hm
  exact ⟨decl, lookup_eq_ok.mp hdecl, (pure_eq_ok.mp hm).symm⟩

theorem Func.length_initialSignature {f : Func} {sig : Signature}
    (h : f.initialSignature = .ok sig) : sig.params.length = f.params.length :=
  (initialSignature_eq_ok h).2.length_eq.symm

end Tenure

import Mathlib.Tactic.Tauto
import Tenure.Ascending

/-!
# Search in ascending lists

The search halves the part of a list in which a number can stand, and every halving keeps the number
within the part that is left (`Bracket.step`). So in a strictly ascending list it finds a number
exactly if the number is there (`searchAscending_eq_found_iff`), and otherwise it gives the one gap
that the number fits in (`searchAscending_eq_missing_iff`).
-/

namespace Tenure

/-! ## Members -/

theorem mem_insertAscending {n m : Nat} {ns : List Nat} :
    m ∈ insertAscending n ns ↔ m = n ∨ m ∈ ns := by
  induction ns with
  | nil => simp [insertAscending]
  | cons k rest ih =>
    unfold insertAscending
    split
    next => simp
    next =>
      split
      next heq => simp [heq]
      next =>
        simp only [List.mem_cons, ih]
        tauto

theorem mem_ascending {m : Nat} {ns : List Nat} : m ∈ ascending ns ↔ m ∈ ns := by
  induction ns with
  | nil => simp [ascending]
  | cons n ns ih =>
    show m ∈ insertAscending n (ascending ns) ↔ m ∈ n :: ns
    rw [mem_insertAscending, ih, List.mem_cons]

/-! ## Search by halves -/

section Search

variable {ns : List Nat} {n base size i : Nat}

/-- A strictly ascending list has a smaller number at an earlier position. -/
theorem lt_of_getElem? {j a b : Nat} (hsorted : ns.Pairwise (· < ·)) (hi : ns[i]? = some a)
    (hj : ns[j]? = some b) (hij : i < j) : a < b := by
  obtain ⟨hi', rfl⟩ := List.getElem?_eq_some_iff.mp hi
  obtain ⟨hj', rfl⟩ := List.getElem?_eq_some_iff.mp hj
  exact List.pairwise_iff_getElem.mp hsorted i j hi' hj' hij

/-- The place of `n` lies in the part of `size` numbers from `base`: what stands after the part is
greater than `n`, and the part begins with a number up to `n` unless it begins with the list. -/
structure Bracket (ns : List Nat) (n base size : Nat) : Prop where
  pos : 0 < size
  fits : base + size ≤ ns.length
  low : base = 0 ∨ ∀ m ∈ ns[base]?, m ≤ n
  high : ∀ i m, base + size ≤ i → ns[i]? = some m → n < m

theorem Bracket.start (hne : ns ≠ []) : Bracket ns n 0 ns.length where
  pos := List.length_pos_iff.mpr hne
  fits := by omega
  low := .inl rfl
  high i m hi hm := by
    have := (List.getElem?_eq_some_iff.mp hm).1
    omega

/-- One halving. -/
theorem Bracket.step (hsorted : ns.Pairwise (· < ·)) (h : Bracket ns n base size)
    (hsize : ¬ size ≤ 1) :
    Bracket ns n (if ns[base + size / 2]?.any (n < ·) then base else base + size / 2)
      (size - size / 2) := by
  have hfits := h.fits
  have hmiddle : base + size / 2 < ns.length := by omega
  have hread := List.getElem?_eq_getElem hmiddle
  rw [hread, Option.any_some]
  split
  next hgreater =>
    refine ⟨by omega, by omega, h.low, fun i m hi hm => ?_⟩
    rw [decide_eq_true_eq] at hgreater
    rcases Nat.eq_or_lt_of_le (show base + size / 2 ≤ i by omega) with rfl | hlt
    · rw [hread] at hm
      cases hm
      exact hgreater
    · exact Nat.lt_trans hgreater (lt_of_getElem? hsorted hread hm hlt)
  next hle =>
    refine ⟨by omega, by omega, .inr ?_, fun i m hi => h.high i m (by omega)⟩
    intro m hm
    rw [hread] at hm
    cases hm
    simpa using hle

/-- All halvings. -/
theorem Bracket.halve (hsorted : ns.Pairwise (· < ·)) (h : Bracket ns n base size) :
    Bracket ns n (halve ns n base size) 1 := by
  fun_induction Tenure.halve with
  | case1 base size hsize =>
    have hpos := h.pos
    obtain rfl : size = 1 := by omega
    exact h
  | case2 base size hsize middle ih => exact ih (h.step hsorted hsize)

/-- `n` fits between the numbers before position `i` and the others. -/
def Gap (ns : List Nat) (n i : Nat) : Prop :=
  i ≤ ns.length ∧ ∀ j m, ns[j]? = some m → (j < i → m < n) ∧ (i ≤ j → n < m)

theorem Gap.not_mem (h : Gap ns n i) : n ∉ ns := by
  intro hmem
  obtain ⟨j, hj⟩ := List.mem_iff_getElem?.mp hmem
  have := h.2 j n hj
  omega

theorem Gap.unique {j : Nat} (hi : Gap ns n i) (hj : Gap ns n j) : i = j := by
  -- a number between the two places would be on both sides of `n`
  have hne : ∀ {i j}, Gap ns n i → Gap ns n j → ¬ i < j := by
    intro i j hi hj hlt
    have hread := List.getElem?_eq_getElem (show i < ns.length from by have := hj.1; omega)
    exact Nat.lt_asymm ((hj.2 i _ hread).1 hlt) ((hi.2 i _ hread).2 (Nat.le_refl i))
  have := hne hi hj
  have := hne hj hi
  omega

/-- Once one number is left, comparing it decides. -/
theorem searchAscending_spec (hsorted : ns.Pairwise (· < ·)) (n : Nat) :
    match searchAscending ns n with
    | .found i => ns[i]? = some n
    | .missing i => Gap ns n i := by
  by_cases hne : ns = []
  · subst hne
    exact ⟨Nat.zero_le _, by simp⟩
  obtain ⟨-, hfits, hlow, hhigh⟩ := (Bracket.start (n := n) hne).halve hsorted
  simp only [searchAscending]
  generalize halve ns n 0 ns.length = base at hfits hlow hhigh ⊢
  have hread := List.getElem?_eq_getElem (show base < ns.length from hfits)
  rw [hread]
  rcases Nat.lt_trichotomy ns[base] n with hlt | heq | hgt
  · simp only [if_neg (Nat.ne_of_lt hlt), if_pos hlt]
    refine ⟨hfits, fun j m hm => ⟨fun hj => ?_, fun hj => hhigh j m hj hm⟩⟩
    rcases Nat.eq_or_lt_of_le (Nat.le_of_lt_succ hj) with rfl | hj
    · rw [hread] at hm
      cases hm
      exact hlt
    · exact Nat.lt_trans (lt_of_getElem? hsorted hm hread hj) hlt
  · simp only [if_pos heq]
    rw [hread, heq]
  · -- a greater number is left only at the start of the list
    obtain rfl : base = 0 := hlow.resolve_right fun hle =>
      Nat.not_le_of_lt hgt (hle _ hread)
    simp only [if_neg (Nat.ne_of_gt hgt), if_neg (Nat.lt_asymm hgt)]
    refine ⟨Nat.zero_le _, fun j m hm => ⟨fun hj => absurd hj (Nat.not_lt_zero j), fun _ => ?_⟩⟩
    rcases Nat.eq_zero_or_pos j with rfl | hj
    · rw [hread] at hm
      cases hm
      exact hgt
    · exact hhigh j m hj hm

theorem searchAscending_eq_found_iff (hsorted : ns.Pairwise (· < ·)) :
    searchAscending ns n = .found i ↔ ns[i]? = some n := by
  have hspec := searchAscending_spec hsorted n
  constructor
  · intro h
    rwa [h] at hspec
  · intro hi
    cases h : searchAscending ns n with
    | found j =>
      rw [h] at hspec
      rcases Nat.lt_trichotomy i j with hlt | rfl | hgt
      · exact absurd (lt_of_getElem? hsorted hi hspec hlt) (Nat.lt_irrefl n)
      · rfl
      · exact absurd (lt_of_getElem? hsorted hspec hi hgt) (Nat.lt_irrefl n)
    | missing j =>
      rw [h] at hspec
      exact absurd (List.mem_of_getElem? hi) hspec.not_mem

theorem searchAscending_eq_missing_iff (hsorted : ns.Pairwise (· < ·)) :
    searchAscending ns n = .missing i ↔ Gap ns n i := by
  have hspec := searchAscending_spec hsorted n
  constructor
  · intro h
    rwa [h] at hspec
  · intro hi
    cases h : searchAscending ns n with
    | found j =>
      rw [h] at hspec
      exact absurd (List.mem_of_getElem? hspec) hi.not_mem
    | missing j =>
      rw [h] at hspec
      rw [hspec.unique hi]

end Search

/-! ## Keys -/

theorem keyBefore_trans {a b c : List Nat} (hab : keyBefore a b = true)
    (hbc : keyBefore b c = true) : keyBefore a c = true := by
  induction a generalizing b c with
  | nil => rfl
  | cons x a ih =>
    cases b with
    | nil => simp [keyBefore] at hab
    | cons y b =>
      cases c with
      | nil => simp [keyBefore] at hbc
      | cons z c =>
        simp only [keyBefore, Bool.or_eq_true, Bool.and_eq_true, decide_eq_true_eq] at hab hbc ⊢
        rcases hab with hxy | ⟨rfl, hab⟩
        · rcases hbc with hyz | ⟨rfl, -⟩
          · exact .inl (Nat.lt_trans hxy hyz)
          · exact .inl hxy
        · rcases hbc with hyz | ⟨rfl, hbc⟩
          · exact .inl hyz
          · exact .inr ⟨rfl, ih hab hbc⟩

theorem keyBefore_total (a b : List Nat) : (keyBefore a b || keyBefore b a) = true := by
  induction a generalizing b with
  | nil => rfl
  | cons x a ih =>
    cases b with
    | nil => rfl
    | cons y b =>
      have hrest := ih b
      simp only [keyBefore, Bool.or_eq_true, Bool.and_eq_true, decide_eq_true_eq] at hrest ⊢
      rcases Nat.lt_trichotomy x y with hlt | rfl | hgt
      · exact .inl (.inl hlt)
      · exact hrest.imp (fun h => .inr ⟨rfl, h⟩) fun h => .inr ⟨rfl, h⟩
      · exact .inr (.inl hgt)

theorem keyBefore_refl (a : List Nat) : keyBefore a a = true := by
  simpa using keyBefore_total a a

end Tenure

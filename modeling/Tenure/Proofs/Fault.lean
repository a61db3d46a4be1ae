import Mathlib.Data.List.Forall2
import Tenure.Fault

/-!
# Computations that may fault

What a sequence of look-ups returns is peeled apart with `bind_eq_ok`, one step at a time.
-/

namespace Tenure

section Except

variable {ε α β : Type}

theorem ok_bind (a : α) (g : α → Except ε β) : (.ok a >>= g) = g a := rfl

theorem bind_eq_ok {x : Except ε α} {g : α → Except ε β} {r : β} :
    (x >>= g) = .ok r ↔ ∃ a, x = .ok a ∧ g a = .ok r := by
  cases x with
  | error e => simp [bind, Except.bind]
  | ok a => simp [bind, Except.bind]

/-- What follows a computation matters only for its result. -/
theorem bind_congr_of_ok {x : Except ε α} {g g' : α → Except ε β}
    (h : ∀ a, x = .ok a → g a = g' a) : (x >>= g) = (x >>= g') := by
  cases x with
  | error e => rfl
  | ok a => exact h a rfl

theorem pure_eq_ok {a r : α} : (pure a : Except ε α) = .ok r ↔ a = r := by
  simp [pure, Except.pure]

theorem mapM_eq_ok {g : α → Except ε β} {l : List α} {r : List β} :
    l.mapM g = .ok r ↔ List.Forall₂ (fun a b => g a = .ok b) l r := by
  induction l generalizing r with
  | nil => rw [List.mapM_nil, pure_eq_ok, List.forall₂_nil_left_iff, eq_comm]
  | cons a l ih =>
    simp only [List.mapM_cons, bind_eq_ok, pure_eq_ok, ih]
    constructor
    · rintro ⟨b, hb, bs, hbs, rfl⟩
      exact .cons hb hbs
    · rintro (_ | ⟨hb, hbs⟩)
      exact ⟨_, hb, _, hbs, rfl⟩

theorem mapM_eq_ok_map {g : α → Except ε β} {result : α → β} {l : List α}
    (h : ∀ a ∈ l, g a = .ok (result a)) : l.mapM g = .ok (l.map result) := by
  rw [mapM_eq_ok, List.forall₂_map_right_iff]
  exact List.forall₂_same.mpr h

theorem mapM_congr {g g' : α → Except ε β} {l : List α} (h : ∀ a ∈ l, g a = g' a) :
    l.mapM g = l.mapM g' := by
  induction l with
  | nil => rfl
  | cons a l ih =>
    rw [List.mapM_cons, List.mapM_cons, h a List.mem_cons_self,
      ih fun b hb => h b (List.mem_cons_of_mem _ hb)]

/-- Every entry of the results is the result of some computation. -/
theorem mem_of_mapM_eq_ok {g : α → Except ε β} {l : List α} {r : List β} (h : l.mapM g = .ok r)
    {b : β} (hb : b ∈ r) : ∃ a ∈ l, g a = .ok b := by
  rw [mapM_eq_ok] at h
  induction h with
  | nil => simp at hb
  | cons ha _ ih =>
    rcases List.mem_cons.mp hb with rfl | hb
    · exact ⟨_, List.mem_cons_self, ha⟩
    · obtain ⟨a, hmem, ha⟩ := ih hb
      exact ⟨a, List.mem_cons_of_mem _ hmem, ha⟩

/-- Every computation has its result among the results. -/
theorem isOk_of_mapM_eq_ok {g : α → Except ε β} {l : List α} {r : List β} (h : l.mapM g = .ok r)
    {a : α} (ha : a ∈ l) : ∃ b ∈ r, g a = .ok b := by
  rw [mapM_eq_ok] at h
  induction h with
  | nil => simp at ha
  | cons hb _ ih =>
    rcases List.mem_cons.mp ha with rfl | ha
    · exact ⟨_, List.mem_cons_self, hb⟩
    · obtain ⟨b, hmem, hb⟩ := ih ha
      exact ⟨b, List.mem_cons_of_mem _ hmem, hb⟩

/-- What every computation keeps, the list of results keeps. -/
theorem map_of_mapM_eq_ok {γ : Type} {g : α → Except ε β} {key : α → γ} {key' : β → γ} {l : List α}
    {r : List β} (h : l.mapM g = .ok r) (hkey : ∀ a ∈ l, ∀ b, g a = .ok b → key' b = key a) :
    r.map key' = l.map key := by
  rw [mapM_eq_ok] at h
  induction h with
  | nil => rfl
  | cons ha _ ih =>
    rw [List.map_cons, List.map_cons, hkey _ List.mem_cons_self _ ha,
      ih fun a hmem => hkey a (List.mem_cons_of_mem _ hmem)]

/-- A list of computations has a result if each of them has one. -/
theorem mapM_isOk {g : α → Except ε β} {l : List α} (h : ∀ a ∈ l, ∃ b, g a = .ok b) :
    ∃ r, l.mapM g = .ok r := by
  induction l with
  | nil => exact ⟨[], rfl⟩
  | cons a l ih =>
    obtain ⟨b, hb⟩ := h a (by simp)
    obtain ⟨bs, hbs⟩ := ih fun x hx => h x (by simp [hx])
    exact ⟨b :: bs, by rw [mapM_eq_ok] at hbs ⊢; exact .cons hb hbs⟩

/-- A list of checks passes if each of them does. -/
theorem map_bind_eq {γ : Type} (x : Except ε α) (k : α → β) (g : β → Except ε γ) :
    (x.map k >>= g) = x >>= fun a => g (k a) := by
  cases x <;> rfl

theorem bind_map_eq {γ : Type} (x : Except ε α) (g : α → Except ε β) (k : β → γ) :
    (x >>= g).map k = x >>= fun a => (g a).map k := by
  cases x <;> rfl

/-- Computations that correspond one by one have corresponding results. -/
theorem mapM_map_eq {α' β' : Type} {g : α → Except ε β} {g' : α' → Except ε β'} {c : α → α'}
    {k : β → β'} {l : List α} (h : ∀ a ∈ l, g' (c a) = (g a).map k) :
    (l.map c).mapM g' = (l.mapM g).map (List.map k) := by
  induction l with
  | nil => rfl
  | cons a l ih =>
    rw [List.map_cons, List.mapM_cons, List.mapM_cons, h a List.mem_cons_self,
      ih fun b hb => h b (List.mem_cons_of_mem _ hb)]
    simp only [map_bind_eq, bind_map_eq]
    rfl

theorem forM_eq_ok {g : α → Except ε Unit} {l : List α} :
    l.forM g = .ok () ↔ ∀ a ∈ l, g a = .ok () := by
  induction l with
  | nil => simp [pure_eq_ok]
  | cons a l ih =>
    rw [List.forM_eq_forM, List.forM_cons, bind_eq_ok, List.forall_mem_cons, ← ih,
      List.forM_eq_forM]
    exact ⟨fun ⟨_, ha, hl⟩ => ⟨ha, hl⟩, fun ⟨ha, hl⟩ => ⟨(), ha, hl⟩⟩

end Except

theorem lookup_eq_ok {α : Type} {table : List α} {index : Nat} {missing : Fault} {a : α} :
    lookup table index missing = .ok a ↔ table[index]? = some a := by
  rw [lookup]
  split <;> simp_all

theorem settled_eq_ok {α : Type} {s : Option α} {a : α} : settled s = .ok a ↔ s = some a := by
  cases s <;> simp [settled]

end Tenure

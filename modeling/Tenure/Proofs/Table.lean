import Mathlib.Data.Finset.NAry
import Mathlib.Data.List.GetD
import Mathlib.Data.List.Nodup

/-!
# Tables

States and results are lists indexed by ids, read with a default beyond their end. Two tables of one
length are equal if all their entries are, and there are finitely many tables of one length over a
finite set of entries. The last parts are about concatenated listings (one member alone contributes,
and where an entry comes from) and about tables whose entries carry their key.
-/

namespace Tenure.Table

variable {α : Type} {l m : List α} {d x : α} {i j : Nat}

theorem getD_replicate (n i : Nat) (d : α) : (List.replicate n d).getD i d = d := by
  rw [List.getD_eq_getElem?_getD, List.getElem?_getD_replicate_default_eq]

theorem getD_set : (l.set i x).getD j d = if i = j ∧ i < l.length then x else l.getD j d := by
  rw [List.getD_eq_getElem?_getD, List.getElem?_set, List.getD_eq_getElem?_getD]
  by_cases hij : i = j
  · subst hij
    by_cases hlt : i < l.length <;> simp [hlt]
  · simp [hij]

theorem getD_set_self (hi : i < l.length) : (l.set i x).getD i d = x := by
  rw [getD_set, if_pos ⟨rfl, hi⟩]

theorem getD_set_ne (hij : i ≠ j) : (l.set i x).getD j d = l.getD j d := by
  rw [getD_set, if_neg fun h => hij h.1]

theorem getD_modify_self {g : α → α} (hi : i < l.length) :
    (l.modify i g).getD i d = g (l.getD i d) := by
  rw [List.getD_eq_getElem?_getD, List.getElem?_modify_eq, List.getD_eq_getElem?_getD,
    List.getElem?_eq_getElem hi]
  rfl

theorem getD_modify_ne {g : α → α} (hij : i ≠ j) : (l.modify i g).getD j d = l.getD j d := by
  rw [List.getD_eq_getElem?_getD, List.getElem?_modify_ne g l hij, ← List.getD_eq_getElem?_getD]

theorem getD_zipWith {g : α → α → α} (hlen : l.length = m.length) (hd : g d d = d) :
    (List.zipWith g l m).getD i d = g (l.getD i d) (m.getD i d) := by
  by_cases hi : i < l.length
  · have hm : i < m.length := hlen ▸ hi
    simp [List.getD_eq_getElem?_getD, hi, hm]
  · rw [List.getD_eq_default _ _ (by simp; omega), List.getD_eq_default _ _ (Nat.not_lt.mp hi),
      List.getD_eq_default _ _ (hlen ▸ Nat.not_lt.mp hi), hd]

theorem ext_getD (hlen : l.length = m.length) (d : α)
    (h : ∀ i < l.length, l.getD i d = m.getD i d) : l = m := by
  refine List.ext_getElem hlen fun i hl hm => ?_
  rw [← List.getD_eq_getElem l d hl, ← List.getD_eq_getElem m d hm]
  exact h i hl

/-! ## Entries written one by one -/

section Writes

variable {β : Type} {key : β → Nat} {value : List α → β → α} {bs : List β}

theorem getElem?_foldl_set (hi : i ∉ bs.map key) :
    (bs.foldl (fun e b => e.set (key b) (value e b)) l)[i]? = l[i]? := by
  induction bs generalizing l with
  | nil => rfl
  | cons b bs ih =>
    rw [List.map_cons, List.mem_cons, not_or] at hi
    rw [List.foldl_cons, ih hi.2, List.getElem?_set_ne (Ne.symm hi.1)]

/-- If writing different entries one by one leaves a table as it was, each write by itself does. -/
theorem set_eq_of_foldl_eq (hnodup : (bs.map key).Nodup)
    (h : bs.foldl (fun e b => e.set (key b) (value e b)) l = l) {b : β} (hb : b ∈ bs) :
    l.set (key b) (value l b) = l := by
  induction bs with
  | nil => simp at hb
  | cons c bs ih =>
    rw [List.map_cons, List.nodup_cons] at hnodup
    rw [List.foldl_cons] at h
    -- no later write goes to the first entry
    have hfirst : l.set (key c) (value l c) = l := by
      refine List.ext_getElem? fun i => ?_
      by_cases hi : key c = i
      · subst hi
        rw [← getElem?_foldl_set hnodup.1, h]
      · rw [List.getElem?_set_ne hi]
    rw [hfirst] at h
    rcases List.mem_cons.mp hb with rfl | hb
    · exact hfirst
    · exact ih hnodup.2 h hb

end Writes

/-! ## Counting tables -/

section Tables

variable [DecidableEq α]

/-- The tables of a length with entries from a set. -/
def tables (entries : Finset α) : Nat → Finset (List α)
  | 0 => {[]}
  | n + 1 => Finset.image₂ List.cons entries (tables entries n)

theorem mem_tables {entries : Finset α} {n : Nat} {l : List α} :
    l ∈ tables entries n ↔ l.length = n ∧ ∀ x ∈ l, x ∈ entries := by
  induction n generalizing l with
  | zero =>
    rw [tables, Finset.mem_singleton, List.length_eq_zero_iff]
    exact ⟨fun h => by simp [h], And.left⟩
  | succ n ih =>
    rw [tables, Finset.mem_image₂]
    constructor
    · rintro ⟨x, hx, l, hl, rfl⟩
      obtain ⟨hlen, hall⟩ := ih.mp hl
      exact ⟨by rw [List.length_cons, hlen], by simpa [hx] using hall⟩
    · rintro ⟨hlen, hall⟩
      cases l with
      | nil => simp at hlen
      | cons x l =>
        refine ⟨x, hall x (by simp), l, ih.mpr ⟨by simpa using hlen, ?_⟩, rfl⟩
        exact fun y hy => hall y (by simp [hy])

theorem mem_tables_iff_getD {entries : Finset α} {n : Nat} {l : List α} (d : α) :
    l ∈ tables entries n ↔ l.length = n ∧ ∀ i < n, l.getD i d ∈ entries := by
  rw [mem_tables, List.forall_mem_iff_forall_getElem]
  refine and_congr_right fun hlen => ?_
  subst hlen
  refine forall_congr' fun i => forall_congr' fun hi => ?_
  rw [List.getD_eq_getElem l d hi]

theorem card_tables_le (entries : Finset α) (n : Nat) :
    (tables entries n).card ≤ entries.card ^ n := by
  induction n with
  | zero => simp [tables]
  | succ n ih =>
    calc (tables entries (n + 1)).card ≤ entries.card * (tables entries n).card :=
          Finset.card_image₂_le _ _ _
      _ ≤ entries.card * entries.card ^ n := Nat.mul_le_mul_left _ ih
      _ = entries.card ^ (n + 1) := by rw [Nat.pow_succ, Nat.mul_comm]

end Tables

/-! ## Concatenated listings -/

section Listings

variable {β : Type} {a : α}

theorem flatMap_eq_single {g : α → List β} (hnodup : l.Nodup) (ha : a ∈ l)
    (hothers : ∀ b ∈ l, b ≠ a → g b = []) : l.flatMap g = g a := by
  induction l with
  | nil => simp at ha
  | cons b l ih =>
    obtain ⟨hb, hnodup⟩ := List.nodup_cons.mp hnodup
    rw [List.flatMap_cons]
    rcases List.mem_cons.mp ha with rfl | ha
    · have hrest : l.flatMap g = [] := by
        rw [List.flatMap_eq_nil_iff]
        intro c hc
        exact hothers c (by simp [hc]) fun h => hb (h ▸ hc)
      rw [hrest, List.append_nil]
    · rw [hothers b (by simp) fun h => hb (h ▸ ha), List.nil_append]
      exact ih hnodup ha fun c hc => hothers c (by simp [hc])

theorem filterMap_eq_single {g : α → Option β} (hnodup : l.Nodup) (ha : a ∈ l)
    (hothers : ∀ b ∈ l, b ≠ a → g b = none) : l.filterMap g = (g a).toList := by
  rw [List.filterMap_eq_flatMap_toList]
  exact flatMap_eq_single hnodup ha fun b hb hne => by rw [hothers b hb hne]; rfl

/-- Where an entry of a concatenation comes from. -/
theorem flatMap_eq_append_cons {g : α → List β} {front rest : List β} {e : β}
    (h : l.flatMap g = front ++ e :: rest) :
    ∃ l₁ b l₂ s t, l = l₁ ++ b :: l₂ ∧ g b = s ++ e :: t ∧ front = l₁.flatMap g ++ s ∧
      rest = t ++ l₂.flatMap g := by
  induction l generalizing front with
  | nil => simp at h
  | cons b l ih =>
    rw [List.flatMap_cons] at h
    rcases List.append_eq_append_iff.mp h with ⟨front', rfl, hrest⟩ | ⟨t, hb, ht⟩
    · obtain ⟨l₁, c, l₂, s, t, rfl, hc, rfl, rfl⟩ := ih hrest
      exact ⟨b :: l₁, c, l₂, s, t, rfl, hc, by simp, rfl⟩
    · cases t with
      | nil =>
        obtain ⟨l₁, c, l₂, s, t, rfl, hc, hfront, rfl⟩ := @ih [] ht.symm
        refine ⟨b :: l₁, c, l₂, s, t, rfl, hc, ?_, rfl⟩
        rw [List.flatMap_cons, List.append_assoc, ← hfront, hb, List.append_nil, List.append_nil]
      | cons e' t =>
        obtain ⟨rfl, rfl⟩ := List.cons.inj ht
        exact ⟨[], b, l, front, t, rfl, hb, rfl, rfl⟩

/-- The first entry of a kind is found alike if it is in each part. -/
theorem find?_flatMap_congr {g g' : α → List β} {p : β → Bool}
    (h : ∀ a ∈ l, (g a).find? p = (g' a).find? p) :
    (l.flatMap g).find? p = (l.flatMap g').find? p := by
  rw [List.find?_flatMap, List.find?_flatMap, ← List.head?_filterMap, ← List.head?_filterMap]
  exact congrArg List.head? (List.filterMap_congr h)

/-- Two listings that look the same are the same if what looks the same is. -/
theorem eq_map_of_map_eq {γ : Type} {g : α → γ} {g' : β → γ} {c : β → α} {l' : List β}
    (h : l.map g = l'.map g') (heq : ∀ a ∈ l, ∀ b ∈ l', g a = g' b → a = c b) : l = l'.map c := by
  induction l' generalizing l with
  | nil => simpa using h
  | cons b rest ih =>
    cases l with
    | nil => simp at h
    | cons a l =>
      obtain ⟨hhead, htail⟩ := List.cons.inj h
      rw [List.map_cons, heq a List.mem_cons_self b List.mem_cons_self hhead, ih htail]
      exact fun a ha b hb => heq a (List.mem_cons_of_mem _ ha) b (List.mem_cons_of_mem _ hb)

end Listings

/-! ## The first entry of a kind -/

/-- In an ordered list the first entry of a kind stands before all others of the kind. -/
theorem rel_of_find? {R : α → α → Prop} (hrefl : ∀ a, R a a) (hl : l.Pairwise R) {p : α → Bool}
    {a b : α} (hfind : l.find? p = some a) (hb : b ∈ l) (hp : p b = true) : R a b := by
  obtain ⟨-, front, rest, rfl, hfront⟩ := List.find?_eq_some_iff_append.mp hfind
  rcases List.mem_append.mp hb with hb | hb
  · exact absurd hp (by simpa using hfront b hb)
  · rcases List.mem_cons.mp hb with rfl | hb
    · exact hrefl b
    · exact (List.pairwise_cons.mp (List.pairwise_append.mp hl).2.1).1 b hb

/-! ## Look-up by key -/

section Keys

variable {β : Type} [DecidableEq β] {key : α → β} {k : β}

/-- In a table without repeated keys the one entry with a key is found. -/
theorem find?_key_iff (hnodup : (l.map key).Nodup) :
    l.find? (fun a => key a = k) = some x ↔ x ∈ l ∧ key x = k := by
  constructor
  · intro h
    exact ⟨List.mem_of_find?_eq_some h, by simpa using List.find?_some h⟩
  · rintro ⟨hx, rfl⟩
    have hsome : (l.find? fun a => key a = key x).isSome :=
      List.find?_isSome.mpr ⟨x, hx, by simp⟩
    obtain ⟨y, hy⟩ := Option.isSome_iff_exists.mp hsome
    have hkey : key y = key x := by simpa using List.find?_some hy
    rw [hy, List.inj_on_of_nodup_map hnodup (List.mem_of_find?_eq_some hy) hx hkey]

theorem find?_key_eq_none_iff : l.find? (fun a => key a = k) = none ↔ k ∉ l.map key := by
  simp [List.find?_eq_none]

end Keys

section Numbers

variable {key : α → Nat} (hkeys : l.map key = List.range l.length)
include hkeys

/-- In a table of rows that are numbered in order, a row stands where its number says. -/
theorem key_eq_of_getElem? (h : l[i]? = some x) : key x = i := by
  have hkey : (l.map key)[i]? = some (key x) := by
    rw [List.getElem?_map, h]
    rfl
  rw [hkeys, List.getElem?_range (List.getElem?_eq_some_iff.mp h).1] at hkey
  exact (Option.some.inj hkey).symm

theorem getElem?_key (hx : x ∈ l) : l[key x]? = some x := by
  obtain ⟨i, hi⟩ := List.mem_iff_getElem?.mp hx
  rwa [key_eq_of_getElem? hkeys hi]

end Numbers

end Tenure.Table

import Mathlib.Data.Finset.Prod
import Tenure.Liveness
import Tenure.Proofs.Graph.Settle
import Tenure.Proofs.Table
import Tenure.Proofs.Usage

/-!
# Liveness settles

Live sets are read through membership. Every operation on them is monotone, so the sweeps only add
bindings and come to rest: liveness has a result for every valid function
(`Func.liveness_isOk`).
-/

namespace Tenure

/-! ## Membership in sets of bindings -/

namespace BindingSet

variable {s t : BindingSet} {b c : BindingId}

@[simp]
theorem contains_empty (width : Nat) (b : BindingId) : (empty width).contains b = false :=
  Table.getD_replicate width b false

@[simp]
theorem width_empty (width : Nat) : (empty width).width = width := by
  simp [empty, BindingSet.width]

@[simp]
theorem width_insert : (s.insert b).width = s.width := by
  simp [insert, width]

@[simp]
theorem width_erase : (s.erase b).width = s.width := by
  simp [erase, width]

@[simp]
theorem width_union : (s.union t).width = s.width := by
  simp [union, width]

theorem lt_width_of_contains (h : s.contains b = true) : b < s.width := by
  by_contra hb
  rw [contains, List.getD_eq_default _ _ (Nat.not_lt.mp hb)] at h
  exact absurd h (by decide)

theorem contains_insert (hb : b < s.width) :
    (s.insert b).contains c = true ↔ b = c ∨ s.contains c = true := by
  rw [contains, insert, Table.getD_set, contains]
  by_cases hbc : b = c
  · rw [if_pos ⟨hbc, hb⟩]
    simp [hbc]
  · rw [if_neg fun h => hbc h.1]
    simp [hbc]

theorem contains_erase (hb : b < s.width) :
    (s.erase b).contains c = true ↔ b ≠ c ∧ s.contains c = true := by
  rw [contains, erase, Table.getD_set, contains]
  by_cases hbc : b = c
  · rw [if_pos ⟨hbc, hb⟩]
    simp [hbc]
  · rw [if_neg fun h => hbc h.1]
    simp [hbc]

theorem contains_union (hst : s.width = t.width) :
    (s.union t).contains c = true ↔ s.contains c = true ∨ t.contains c = true := by
  by_cases hc : c < s.width
  · have hget : s.flags[c]? = some (s.contains c) := by
      rw [contains, List.getD_eq_getElem s.flags false hc, List.getElem?_eq_getElem hc]
    have hunion : (s.union t).contains c = (s.contains c || t.contains c) := by
      rw [contains, union, List.getD_eq_getElem?_getD, List.getElem?_map, List.getElem?_zipIdx, hget]
      simp
    rw [hunion, Bool.or_eq_true]
  · have hunion : ¬ (s.union t).contains c = true := fun h => hc (by
      simpa using lt_width_of_contains h)
    have hs : ¬ s.contains c = true := fun h => hc (lt_width_of_contains h)
    have ht : ¬ t.contains c = true := fun h => hc (hst ▸ lt_width_of_contains h)
    simp [hunion, hs, ht]

theorem ext_contains (hst : s.width = t.width) (h : ∀ b < s.width, s.contains b = t.contains b) :
    s = t := by
  obtain ⟨flags⟩ := s
  obtain ⟨flags'⟩ := t
  exact congrArg mk (Table.ext_getD hst false h)

section Folds

variable {α : Type} (key : α → BindingId)

theorem width_foldl_insert (xs : List α) (s : BindingSet) :
    (xs.foldl (fun s x => s.insert (key x)) s).width = s.width := by
  induction xs generalizing s with
  | nil => rfl
  | cons x rest ih => rw [List.foldl_cons, ih, width_insert]

theorem width_foldl_erase (xs : List α) (s : BindingSet) :
    (xs.foldl (fun s x => s.erase (key x)) s).width = s.width := by
  induction xs generalizing s with
  | nil => rfl
  | cons x rest ih => rw [List.foldl_cons, ih, width_erase]

variable {key} {xs : List α} (hxs : ∀ x ∈ xs, key x < s.width)
include hxs

theorem contains_foldl_insert : (xs.foldl (fun s x => s.insert (key x)) s).contains b = true ↔
    (∃ x ∈ xs, key x = b) ∨ s.contains b = true := by
  induction xs generalizing s with
  | nil => simp
  | cons x rest ih =>
    rw [List.foldl_cons, ih fun y hy => by simpa using hxs y (by simp [hy]),
      contains_insert (hxs x (by simp))]
    simp only [List.mem_cons, exists_eq_or_imp]
    rw [← or_assoc, or_comm (b := key x = b)]

theorem contains_foldl_erase : (xs.foldl (fun s x => s.erase (key x)) s).contains b = true ↔
    (∀ x ∈ xs, key x ≠ b) ∧ s.contains b = true := by
  induction xs generalizing s with
  | nil => simp
  | cons x rest ih =>
    rw [List.foldl_cons, ih fun y hy => by simpa using hxs y (by simp [hy]),
      contains_erase (hxs x (by simp))]
    simp only [List.mem_cons, forall_eq_or_imp]
    rw [← and_assoc, and_comm (b := key x ≠ b)]

end Folds

theorem mem_toList : b ∈ s.toList ↔ s.contains b = true := by
  rw [toList, List.mem_filter, List.mem_range]
  exact ⟨And.right, fun h => ⟨lt_width_of_contains h, h⟩⟩

end BindingSet

/-! ## Live sets around points -/

namespace Usage

variable {u : Usage} {width : Nat} {p : Point} {after : BindingSet} {b : BindingId}

@[simp]
theorem width_liveBefore : (u.liveBefore p after).width = after.width := by
  rw [liveBefore, BindingSet.beforePoint.eq_def, BindingSet.width_foldl_insert]
  split
  · exact BindingSet.width_erase
  · rfl

/-- The uses and the definition at a point are of bindings below the width. -/
def InWidth (u : Usage) (width : Nat) : Prop :=
  (∀ x ∈ u.uses, x.binding < width) ∧ ∀ p b, u.definitionAt p = some b → b < width

/-- A binding is live before a point if it is used there, or not defined there and live after. -/
theorem contains_liveBefore (hu : u.InWidth after.width) :
    (u.liveBefore p after).contains b = true ↔
      (∃ x ∈ u.usesAt p, x.binding = b) ∨
        u.definitionAt p ≠ some b ∧ after.contains b = true := by
  have huses : ∀ x ∈ u.usesAt p, x.binding < after.width := fun x hx =>
    hu.1 x (mem_uses_of_mem_usesAt hx)
  rw [liveBefore, BindingSet.beforePoint.eq_def]
  cases hdef : u.definitionAt p with
  | none =>
    rw [BindingSet.contains_foldl_insert huses]
    simp
  | some c =>
    rw [BindingSet.contains_foldl_insert (by simpa using huses), BindingSet.contains_erase (hu.2 p c hdef)]
    simp

theorem width_foldr_liveBefore (blk : BlockId) (indices : List Nat) (s : BindingSet) :
    (indices.foldr (fun i s => u.liveBefore ⟨blk, i⟩ s) s).width = s.width := by
  induction indices with
  | nil => rfl
  | cons i rest ih => rw [List.foldr_cons, width_liveBefore, ih]

@[simp]
theorem width_liveFrom {blk : BlockId} {last index : Nat} {atEnd : BindingSet} :
    (u.liveFrom blk last index atEnd).width = atEnd.width :=
  width_foldr_liveBefore blk _ atEnd

theorem liveFrom_mono {blk : BlockId} {last index : Nat} {s t : BindingSet}
    (hs : u.InWidth s.width) (hst : s.width = t.width)
    (hle : ∀ b, s.contains b = true → t.contains b = true) :
    (u.liveFrom blk last index s).contains b = true →
      (u.liveFrom blk last index t).contains b = true := by
  rw [liveFrom, liveFrom]
  induction List.range' index (last + 1 - index) generalizing b with
  | nil => exact hle b
  | cons i rest ih =>
    rw [List.foldr_cons, List.foldr_cons,
      contains_liveBefore (by rw [width_foldr_liveBefore]; exact hs),
      contains_liveBefore (by rw [width_foldr_liveBefore, ← hst]; exact hs)]
    exact Or.imp_right (And.imp_right ih)

end Usage

theorem Func.usage_inWidth {f : Func} (hf : f.Valid) : f.usage.InWidth f.bindings.length :=
  ⟨fun _ hx => use_binding_lt hf hx, fun _ _ h => definitionAt_lt hf h⟩

/-! ## Sweeps -/

section Sweep

variable {u : Usage} {width : Nat} {blocks : List LiveBlock} {e e' : List BindingSet}

/-- Every entry of the table has the width. -/
def WideEntries (width : Nat) (e : List BindingSet) : Prop :=
  ∀ b, (e.getD b (.empty width)).width = width

/-- The second table has every live binding that the first has. -/
def LiveBelow (width : Nat) (e e' : List BindingSet) : Prop :=
  ∀ b x, (e.getD b (.empty width)).contains x = true → (e'.getD b (.empty width)).contains x = true

theorem LiveBlock.width_atEnd (b : LiveBlock) (e : List BindingSet) :
    (b.atEnd width e).width = width := by
  rw [atEnd]
  suffices h : ∀ (succ : List BlockId) (s : BindingSet), s.width = width →
      (succ.foldl (fun s c => s.union (e.getD c (.empty width))) s).width = width from
    h _ _ (BindingSet.width_empty width)
  intro succ
  induction succ with
  | nil => intro s hs; exact hs
  | cons c rest ih => intro s hs; exact ih _ (by rw [BindingSet.width_union, hs])

/-- A binding is live at the end of a block if it is live at the entry of a successor. -/
theorem LiveBlock.contains_atEnd (b : LiveBlock) (he : WideEntries width e) {x : BindingId} :
    (b.atEnd width e).contains x = true ↔
      ∃ c ∈ b.successors, (e.getD c (.empty width)).contains x = true := by
  rw [atEnd]
  suffices h : ∀ (succ : List BlockId) (s : BindingSet), s.width = width →
      ((succ.foldl (fun s c => s.union (e.getD c (.empty width))) s).contains x = true ↔
        s.contains x = true ∨ ∃ c ∈ succ, (e.getD c (.empty width)).contains x = true) by
    rw [h _ _ (BindingSet.width_empty width)]
    simp
  intro succ
  induction succ with
  | nil => intro s _; simp
  | cons c rest ih =>
    intro s hs
    rw [List.foldl_cons, ih _ (by rw [BindingSet.width_union, hs]),
      BindingSet.contains_union (hs.trans (he c).symm)]
    simp [or_assoc]

theorem WideEntries.set (he : WideEntries width e) (b : LiveBlock) :
    WideEntries width (e.set b.id (b.before u width e 0)) := by
  intro c
  rw [Table.getD_set]
  split
  · rw [LiveBlock.before, Usage.width_liveFrom, LiveBlock.width_atEnd]
  · exact he c

/-- A sweep keeps the order of tables by their live bindings. -/
theorem liveFold_mono (hu : u.InWidth width) (hlen : e.length = e'.length)
    (he : WideEntries width e) (he' : WideEntries width e') (hle : LiveBelow width e e') :
    LiveBelow width (blocks.foldl (fun e b => e.set b.id (b.before u width e 0)) e)
      (blocks.foldl (fun e b => e.set b.id (b.before u width e 0)) e') := by
  induction blocks generalizing e e' with
  | nil => exact hle
  | cons b rest ih =>
    refine ih (by rw [List.length_set, List.length_set, hlen]) (he.set b) (he'.set b) ?_
    intro c x
    rw [Table.getD_set, Table.getD_set, ← hlen]
    split
    · refine Usage.liveFrom_mono (by rw [b.width_atEnd]; exact hu) (by
        rw [b.width_atEnd, b.width_atEnd]) fun y => ?_
      rw [b.contains_atEnd he, b.contains_atEnd he']
      rintro ⟨d, hd, hy⟩
      exact ⟨d, hd, hle d y hy⟩
    · exact hle c x

theorem liveFold_wide (he : WideEntries width e) :
    WideEntries width (blocks.foldl (fun e b => e.set b.id (b.before u width e 0)) e) := by
  induction blocks generalizing e with
  | nil => exact he
  | cons b rest ih => exact ih (he.set b)

theorem length_liveSweep : (liveSweep u width blocks e).length = e.length := by
  rw [liveSweep]
  induction blocks.reverse generalizing e with
  | nil => rfl
  | cons b rest ih => rw [List.foldl_cons, ih, List.length_set]

/-- The sweeps of liveness settle. -/
theorem liveSweep_settles (hu : u.InWidth width) (blocks : List LiveBlock) (count : Nat) :
    ∃ entries, Graph.settle (liveSweep u width blocks) (Nat.pow 2 (width * count) + 1)
      (List.replicate count (.empty width)) = some entries := by
  -- one fact for each block and binding: the binding is live at the entry of the block
  refine Graph.settle_isSome_of_growing ((Finset.range count) ×ˢ (Finset.range width))
    (fun k e => (e.getD k.1 (.empty width)).contains k.2 = true)
    (fun e => e.length = count ∧ WideEntries width e) ?_ ?_ ?_ ?_ ?_ ?_
  · exact ⟨by simp, fun b => by rw [Table.getD_replicate, BindingSet.width_empty]⟩
  · exact fun e he => ⟨by rw [length_liveSweep, he.1], liveFold_wide he.2⟩
  · intro k _ hk
    rw [Table.getD_replicate, BindingSet.contains_empty] at hk
    exact absurd hk (by decide)
  · intro e e' he he' hle k hk
    refine liveFold_mono hu (he.1.trans he'.1.symm) he.2 he'.2 (fun b x hx => ?_) k.1 k.2
    -- outside of the facts considered nothing is live
    have hb : b < count := by
      by_contra hb
      rw [List.getD_eq_default _ _ (he.1 ▸ Nat.not_lt.mp hb), BindingSet.contains_empty] at hx
      exact absurd hx (by decide)
    have hxw : x < width := (he.2 b) ▸ BindingSet.lt_width_of_contains hx
    exact hle (b, x) (Finset.mk_mem_product (Finset.mem_range.mpr hb) (Finset.mem_range.mpr hxw)) hx
  · intro e e' he he' hiff
    refine Table.ext_getD (he.1.trans he'.1.symm) (.empty width) fun b hb => ?_
    refine BindingSet.ext_contains ((he.2 b).trans (he'.2 b).symm) fun x hx => ?_
    rw [Bool.eq_iff_iff]
    exact hiff (b, x) (Finset.mk_mem_product (Finset.mem_range.mpr (he.1 ▸ hb))
      (Finset.mem_range.mpr ((he.2 b) ▸ hx)))
  · rw [Finset.card_product, Finset.card_range, Finset.card_range, Nat.mul_comm]
    exact Nat.lt_succ_of_lt Nat.lt_two_pow_self

end Sweep

/-- Every valid function has a liveness. -/
theorem Func.liveness_isOk {f : Func} (hf : f.Valid) : ∃ l, f.liveness f.usage = .ok l := by
  have hblocks : ∃ blocks, f.liveBlocks = .ok blocks := by
    refine mapM_isOk fun block hblock => ?_
    obtain ⟨i, hi⟩ := List.mem_iff_getElem?.mp hblock
    simp only [bind_eq_ok, pure_eq_ok]
    exact ⟨_, block, lookup_eq_ok.mpr (by rw [hf.id_eq hi, hi]), rfl⟩
  obtain ⟨blocks, hblocks⟩ := hblocks
  obtain ⟨entries, hentries⟩ := liveSweep_settles (usage_inWidth hf) blocks f.blocks.length
  simp only [liveness, bind_eq_ok, pure_eq_ok]
  exact ⟨_, blocks, hblocks, entries, settled_eq_ok.mpr hentries, rfl⟩

end Tenure

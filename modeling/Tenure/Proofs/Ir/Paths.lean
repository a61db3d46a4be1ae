import Mathlib.Data.Finset.Range
import Mathlib.Data.List.Chain
import Tenure.Ir.Func
import Tenure.Proofs.Graph.Search
import Tenure.Proofs.Ir.Valid

/-!
# Paths through a function

`Func.Next` is one step of control from program point to program point, and a path is a chain of
such steps. The reverse post-order of a valid function lists exactly the blocks on a path from the
entry, each once and the entry first (`Func.reversePostorder_spec`); `Func.reachable_iff` carries
this over to points.
-/

namespace Tenure.Func

open Relation Tenure.Graph

variable {f : Func}

/-! ## Steps of control -/

/-- Control goes from a statement to the next one and from a terminator to the start of a
successor. -/
inductive Next (f : Func) : Point → Point → Prop where
  | within {b : BlockId} {i : Nat} {block : Block} (hb : f.blocks[b]? = some block)
      (hi : i < block.statements.length) : Next f ⟨b, i⟩ ⟨b, i + 1⟩
  | jump {b c : BlockId} {block : Block} (hb : f.blocks[b]? = some block)
      (hc : c ∈ block.successors) : Next f ⟨b, block.statements.length⟩ ⟨c, 0⟩

/-- The first program point of a function. -/
def startPoint : Point := ⟨entry, 0⟩

/-- Some path from the start leads to the point. -/
def Reachable (f : Func) (p : Point) : Prop := ReflTransGen f.Next startPoint p

theorem Reachable.next {p q : Point} (h : f.Reachable p) (hpq : f.Next p q) : f.Reachable q :=
  ReflTransGen.tail h hpq

/-- A path from the first point of a function, point after point. -/
structure IsPath (f : Func) (path : List Point) : Prop where
  head : path.head? = some startPoint
  chain : path.IsChain f.Next

section Chains

variable {R : Point → Point → Prop} {p q : Point}

theorem chain_reflTransGen {l : List Point} (h : (p :: l).IsChain R) (hq : q ∈ p :: l) :
    ReflTransGen R p q := by
  induction l generalizing p with
  | nil =>
    obtain rfl := List.mem_singleton.mp hq
    exact ReflTransGen.refl
  | cons r l ih =>
    obtain ⟨hpr, hchain⟩ := List.isChain_cons_cons.mp h
    rcases List.mem_cons.mp hq with rfl | hq
    · exact ReflTransGen.refl
    · exact ReflTransGen.head hpr (ih hchain hq)

theorem chain_transGen {keep : Point → Prop} {between rest : List Point}
    (h : (p :: (between ++ q :: rest)).IsChain R) (hkeep : ∀ r ∈ p :: between, keep r) :
    TransGen (fun r r' => keep r ∧ R r r') p q := by
  induction between generalizing p with
  | nil => exact TransGen.single ⟨hkeep p (by simp), (List.isChain_cons_cons.mp h).1⟩
  | cons r between ih =>
    obtain ⟨hpr, hchain⟩ := List.isChain_cons_cons.mp h
    have hrest := ih hchain fun s hs => hkeep s (List.mem_cons_of_mem p hs)
    exact TransGen.head ⟨hkeep p (by simp), hpr⟩ hrest

theorem IsPath.reachable {path : List Point} (h : f.IsPath path) (hp : p ∈ path) :
    f.Reachable p := by
  cases path with
  | nil => simp at hp
  | cons r l =>
    obtain rfl : r = startPoint := Option.some.inj h.head
    exact chain_reflTransGen h.chain hp

/-- Some path ends at every reachable point. -/
theorem Reachable.exists_path (h : f.Reachable p) : ∃ front, f.IsPath (front ++ [p]) := by
  induction h with
  | refl => exact ⟨[], rfl, List.isChain_singleton _⟩
  | @tail p q _ hpq ih =>
    obtain ⟨front, hhead, hchain⟩ := ih
    refine ⟨front ++ [p], ?_, ?_⟩
    · rw [List.head?_append, hhead]
      rfl
    · rw [List.isChain_append]
      refine ⟨hchain, List.isChain_singleton _, fun r hr s hs => ?_⟩
      rw [List.getLast?_concat, Option.mem_some_iff] at hr
      rw [List.head?_cons, Option.mem_some_iff] at hs
      subst hr hs
      exact hpq

end Chains

section Points

variable {b : BlockId} {block : Block}

theorem pointsOf_eq (hb : f.blocks[b]? = some block) :
    f.pointsOf b = (List.range (block.statements.length + 1)).map (Point.mk b) := by
  simp [pointsOf, hb]

theorem mem_pointsOf (hb : f.blocks[b]? = some block) {p : Point} :
    p ∈ f.pointsOf b ↔ p.block = b ∧ p.index ≤ block.statements.length := by
  rw [pointsOf_eq hb, List.mem_map]
  constructor
  · rintro ⟨i, hi, rfl⟩
    exact ⟨rfl, Nat.lt_succ_iff.mp (List.mem_range.mp hi)⟩
  · rintro ⟨rfl, hi⟩
    exact ⟨p.index, List.mem_range.mpr (by omega), rfl⟩

theorem block_eq_of_mem_pointsOf {p : Point} (hp : p ∈ f.pointsOf b) : p.block = b := by
  rw [pointsOf] at hp
  split at hp
  next =>
    obtain ⟨i, -, rfl⟩ := List.mem_map.mp hp
    rfl
  next => simp at hp

theorem pointsOf_nodup (f : Func) (b : BlockId) : (f.pointsOf b).Nodup := by
  rw [pointsOf]
  split
  next => exact List.nodup_range.map fun i j hij => (Point.mk.inj hij).2
  next => exact List.nodup_nil

/-- Where control goes from a point of a block. -/
theorem next_iff (hb : f.blocks[b]? = some block) {i : Nat} {q : Point} :
    f.Next ⟨b, i⟩ q ↔ i < block.statements.length ∧ q = ⟨b, i + 1⟩ ∨
      i = block.statements.length ∧ ∃ c ∈ block.successors, q = ⟨c, 0⟩ := by
  constructor
  · intro h
    generalize hp : (⟨b, i⟩ : Point) = p at h
    cases h with
    | within hb' hi =>
      obtain ⟨rfl, rfl⟩ := Point.mk.inj hp
      obtain rfl := Option.some.inj (hb.symm.trans hb')
      exact Or.inl ⟨hi, rfl⟩
    | @jump b' c block' hb' hc =>
      obtain ⟨rfl, rfl⟩ := Point.mk.inj hp
      obtain rfl := Option.some.inj (hb.symm.trans hb')
      exact Or.inr ⟨rfl, c, hc, rfl⟩
  · rintro (⟨hi, rfl⟩ | ⟨rfl, c, hc, rfl⟩)
    · exact .within hb hi
    · exact .jump hb hc

/-- Control goes from points of a valid function to points of it. -/
theorem Next.mem_pointsOf (hf : f.Valid) {p q : Point} (h : f.Next p q) :
    p ∈ f.pointsOf p.block ∧ q ∈ f.pointsOf q.block := by
  cases h with
  | within hb hi =>
    exact ⟨(Func.mem_pointsOf hb).mpr ⟨rfl, Nat.le_of_lt hi⟩, (Func.mem_pointsOf hb).mpr ⟨rfl, hi⟩⟩
  | @jump b c block hb hc =>
    have hlt := hf.successor_lt (List.mem_of_getElem? hb) c hc
    exact ⟨(Func.mem_pointsOf hb).mpr ⟨rfl, le_rfl⟩,
      (Func.mem_pointsOf (List.getElem?_eq_getElem hlt)).mpr ⟨rfl, Nat.zero_le _⟩⟩

/-- Whether control returns at the point. -/
def returnsAt (f : Func) (p : Point) : Bool :=
  f.blocks[p.block]?.any fun block => block.isReturn && p.index = block.statements.length

theorem successors_of_isReturn {block : Block} (h : block.isReturn = true) :
    block.successors = [] := by
  unfold Block.isReturn at h
  split at h
  next hret => rw [Block.successors, hret]; rfl
  next => simp at h

theorem not_next_of_returnsAt {p q : Point} (h : f.returnsAt p = true) : ¬ f.Next p q := by
  intro hnext
  cases hnext with
  | within hb hi =>
    simp only [returnsAt, hb, Option.any_some, Bool.and_eq_true, decide_eq_true_eq] at h
    omega
  | jump hb hc =>
    simp only [returnsAt, hb, Option.any_some, Bool.and_eq_true, decide_eq_true_eq] at h
    rw [successors_of_isReturn h.1] at hc
    simp at hc

theorem successors_eq (hb : f.blocks[b]? = some block) : f.successors b = block.successors := by
  simp [successors, hb]

theorem edge_iff {b c : BlockId} :
    Edge f.successors b c ↔ ∃ block, f.blocks[b]? = some block ∧ c ∈ block.successors := by
  rw [Edge, successors]
  split <;> simp_all

/-- In a valid function the predecessors of a block are the blocks that jump to it. -/
theorem mem_predecessors (hf : f.Valid) {b c : BlockId} :
    b ∈ f.predecessors c ↔ Edge f.successors b c := by
  rw [edge_iff, predecessors, List.mem_map]
  constructor
  · rintro ⟨block, hblock, rfl⟩
    obtain ⟨hmem, hc⟩ := List.mem_filter.mp hblock
    obtain ⟨i, hi⟩ := List.mem_iff_getElem?.mp hmem
    rw [hf.id_eq hi]
    exact ⟨block, hi, by simpa using hc⟩
  · rintro ⟨block, hb, hc⟩
    exact ⟨block, List.mem_filter.mpr ⟨List.mem_of_getElem? hb, by simpa using hc⟩, hf.id_eq hb⟩

/-- Within a block, control gets from its start to every point. -/
theorem reflTransGen_within (hb : f.blocks[b]? = some block) {i : Nat}
    (hi : i ≤ block.statements.length) : ReflTransGen f.Next ⟨b, 0⟩ ⟨b, i⟩ := by
  induction i with
  | zero => exact ReflTransGen.refl
  | succ i ih => exact ReflTransGen.tail (ih (by omega)) (.within hb (by omega))

end Points

/-! ## The listing of the reachable blocks -/

/-- The blocks on a path from the entry, each once. -/
structure Traversal (f : Func) (order : List BlockId) : Prop where
  nodup : order.Nodup
  mem_iff : ∀ {b : BlockId}, b ∈ order ↔ ReflTransGen (Edge f.successors) entry b
  lt : ∀ {b : BlockId}, b ∈ order → b < f.blocks.length
  head : order.head? = some entry
  /-- A jump back to an earlier block closes a cycle. -/
  ordered : order.Pairwise fun b c =>
    Edge f.successors c b → ReflTransGen (Edge f.successors) b c

theorem successors_subset (hf : f.Valid) (b : BlockId) :
    ∀ c ∈ f.successors b, c ∈ Finset.range f.blocks.length := by
  intro c hc
  obtain ⟨block, hb, hc⟩ := edge_iff.mp hc
  exact Finset.mem_range.mpr (hf.successor_lt (List.mem_of_getElem? hb) c hc)

theorem entry_mem (hf : f.Valid) : entry ∈ Finset.range f.blocks.length :=
  Finset.mem_range.mpr (List.length_pos_of_ne_nil hf.nonempty)

/-- The reverse post-order of a valid function exists and lists its reachable blocks. -/
theorem reversePostorder_spec (hf : f.Valid) :
    ∃ order, f.reversePostorder = .ok order ∧ f.Traversal order := by
  have hroots : ∀ v ∈ [entry], Bounded f.successors (f.blocks.length + 1) v := by
    intro v hv
    rw [List.mem_singleton.mp hv]
    exact ⟨_, entry_mem hf, by simp, fun v _ => successors_subset hf v⟩
  have hsearch : f.blockSearch.finished = reach f.successors (f.blocks.length + 1) [entry] := by
    simp [blockSearch, reach, hf.nonempty]
  have hmem : ∀ {b : BlockId}, b ∈ f.blockSearch.finished ↔
      ReflTransGen (Edge f.successors) entry b := by
    intro b
    rw [hsearch, mem_reach_iff hroots]
    simp
  have hlt : ∀ {b : BlockId}, b ∈ f.blockSearch.finished → b < f.blocks.length := by
    intro b hb
    rcases (hmem.mp hb).cases_tail with rfl | ⟨c, -, hstep⟩
    · exact Finset.mem_range.mp (entry_mem hf)
    · exact Finset.mem_range.mp (successors_subset hf c b hstep)
  refine ⟨f.blockSearch.finished, ?_, ?_, hmem, hlt, ?_, ?_⟩
  · rw [reversePostorder]
    split
    next b hfind =>
      have hle : f.blocks.length ≤ b := by simpa using List.find?_some hfind
      exact absurd (hlt (List.mem_of_find?_eq_some hfind)) (Nat.not_lt.mpr hle)
    next => rfl
  · rw [hsearch]
    exact reach_nodup hroots
  · rw [hsearch]
    exact head?_reach_single _ _ _
  · rw [hsearch]
    exact reach_ordered hroots

namespace Traversal

variable {order : List BlockId} (ht : f.Traversal order)
include ht

theorem entry_mem : entry ∈ order := ht.mem_iff.mpr ReflTransGen.refl

theorem mem_of_edge {b c : BlockId} (hb : b ∈ order) (hbc : Edge f.successors b c) : c ∈ order :=
  ht.mem_iff.mpr (ReflTransGen.tail (ht.mem_iff.mp hb) hbc)

theorem exists_block {b : BlockId} (hb : b ∈ order) : ∃ block, f.blocks[b]? = some block :=
  ⟨_, List.getElem?_eq_getElem (ht.lt hb)⟩

/-- Every listed block is entered on some path. -/
theorem reachable_start {b : BlockId} (hb : b ∈ order) : f.Reachable ⟨b, 0⟩ := by
  induction ht.mem_iff.mp hb with
  | refl => exact ReflTransGen.refl
  | @tail b c hpath hstep ih =>
    obtain ⟨block, hblock, hc⟩ := edge_iff.mp hstep
    have hend := reflTransGen_within hblock (le_refl block.statements.length)
    exact Reachable.next ((ih (ht.mem_iff.mpr hpath)).trans hend) (.jump hblock hc)

/-- Every point of a listed block lies on some path. -/
theorem reachable_point {b : BlockId} (hb : b ∈ order) {block : Block}
    (hblock : f.blocks[b]? = some block) {i : Nat} (hi : i ≤ block.statements.length) :
    f.Reachable ⟨b, i⟩ :=
  (ht.reachable_start hb).trans (reflTransGen_within hblock hi)

/-- A point lies on a path from the start exactly if it is a point of a listed block. -/
theorem reachable_iff {p : Point} :
    f.Reachable p ↔ p.block ∈ order ∧ p ∈ f.pointsOf p.block := by
  constructor
  · intro h
    induction h with
    | refl =>
      obtain ⟨block, hb⟩ := ht.exists_block ht.entry_mem
      exact ⟨ht.entry_mem, (mem_pointsOf hb).mpr ⟨rfl, Nat.zero_le _⟩⟩
    | tail _ hstep ih =>
      cases hstep with
      | within hb hi => exact ⟨ih.1, (mem_pointsOf hb).mpr ⟨rfl, hi⟩⟩
      | jump hb hc =>
        have hmem := ht.mem_of_edge ih.1 (edge_iff.mpr ⟨_, hb, hc⟩)
        obtain ⟨block, hb⟩ := ht.exists_block hmem
        exact ⟨hmem, (mem_pointsOf hb).mpr ⟨rfl, Nat.zero_le _⟩⟩
  · rintro ⟨hmem, hp⟩
    obtain ⟨block, hb⟩ := ht.exists_block hmem
    exact ht.reachable_point hmem hb ((mem_pointsOf hb).mp hp).2

end Traversal

/-- The ascending list of reachable blocks has the members of the reverse post-order. -/
theorem reachable_spec {order : List BlockId} (ho : f.reversePostorder = .ok order)
    (ht : f.Traversal order) :
    ∃ blocks, f.reachable = .ok blocks ∧ blocks.Nodup ∧ ∀ b, b ∈ blocks ↔ b ∈ order := by
  refine ⟨f.blockIds.filter order.contains, ?_, ?_, ?_⟩
  · rw [reachable, ho]
    rfl
  · exact List.Nodup.filter _ List.nodup_range
  · intro b
    simp only [List.mem_filter, blockIds, List.mem_range, List.contains_iff_mem]
    exact ⟨And.right, fun hb => ⟨ht.lt hb, hb⟩⟩

end Tenure.Func

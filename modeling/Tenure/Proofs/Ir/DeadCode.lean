import Tenure.Proofs.Ir.Regions
import Tenure.Proofs.Usage

/-!
# Dead code

Two functions that agree on the blocks control can come to have the same paths from the entry: what
control never comes to is not on any of them (`AgreesOn.reachable_iff`). Of all functions that agree
with a given one, `Func.prune` is the one without dead code. It is common to all of them
(`SameLive.prune_eq`), so the analyses of two functions are compared by comparing both with it.
-/

namespace Tenure

open Relation

/-- From where a property holds that steps keep, two relations that agree where it holds lead to the
same. -/
theorem reflTransGen_iff_of_closed {α : Type} {R S : α → α → Prop} {P : α → Prop}
    (hclosed : ∀ p q, P p → R p q → P q) (h : ∀ p q, P p → (R p q ↔ S p q)) {p q : α} (hp : P p) :
    ReflTransGen R p q ↔ ReflTransGen S p q := by
  constructor
  · intro hpath
    suffices hgoal : P q ∧ ReflTransGen S p q from hgoal.2
    induction hpath with
    | refl => exact ⟨hp, .refl⟩
    | tail _ hstep ih => exact ⟨hclosed _ _ ih.1 hstep, ih.2.tail ((h _ _ ih.1).mp hstep)⟩
  · intro hpath
    suffices hgoal : P q ∧ ReflTransGen R p q from hgoal.2
    induction hpath with
    | refl => exact ⟨hp, .refl⟩
    | tail _ hstep ih =>
      have hstep := (h _ _ ih.1).mpr hstep
      exact ⟨hclosed _ _ ih.1 hstep, ih.2.tail hstep⟩

theorem transGen_iff_of_closed {α : Type} {R S : α → α → Prop} {P : α → Prop}
    (hclosed : ∀ p q, P p → R p q → P q) (h : ∀ p q, P p → (R p q ↔ S p q)) {p q : α} (hp : P p) :
    TransGen R p q ↔ TransGen S p q := by
  rw [TransGen.head'_iff, TransGen.head'_iff]
  refine exists_congr fun r => ?_
  rw [← h p r hp]
  exact and_congr_right fun hstep => reflTransGen_iff_of_closed hclosed h (hclosed p r hp hstep)

namespace Func

/-! ## Agreement on live blocks -/

/-- The list names the reachable blocks of the first function, and the second one has the same
blocks there. -/
structure AgreesOn (f g : Func) (live : List BlockId) : Prop where
  mem_iff : ∀ {b}, b ∈ live ↔ f.Reachable ⟨b, 0⟩
  block : ∀ {b}, b ∈ live → g.blocks[b]? = f.blocks[b]?
  length : g.blocks.length = f.blocks.length

namespace AgreesOn

variable {f g : Func} {live : List BlockId} {p q : Point} {b : BlockId} (h : f.AgreesOn g live)
include h

theorem entry_mem : entry ∈ live := h.mem_iff.mpr .refl

theorem successors_eq (hb : b ∈ live) : g.successors b = f.successors b := by
  rw [successors, successors, h.block hb]

theorem pointsOf_eq (hb : b ∈ live) : g.pointsOf b = f.pointsOf b := by
  rw [pointsOf, pointsOf, h.block hb]

theorem step?_eq (hp : p.block ∈ live) : g.step? p = f.step? p := by
  rw [step?, step?, h.block hp]

theorem next_iff (hp : p.block ∈ live) : g.Next p q ↔ f.Next p q := by
  constructor
  · rintro (⟨hb, hi⟩ | ⟨hb, hc⟩)
    · exact .within (h.block hp ▸ hb) hi
    · exact .jump (h.block hp ▸ hb) hc
  · rintro (⟨hb, hi⟩ | ⟨hb, hc⟩)
    · exact .within ((h.block hp).trans hb) hi
    · exact .jump ((h.block hp).trans hb) hc

/-- Control stays in live blocks. -/
theorem live_next (hp : p.block ∈ live) (hpq : f.Next p q) : q.block ∈ live := by
  cases hpq with
  | within => exact hp
  | @jump b c block hb hc =>
    have hend : f.Reachable ⟨b, block.statements.length⟩ :=
      (h.mem_iff.mp hp).trans (reflTransGen_within hb le_rfl)
    exact h.mem_iff.mpr (hend.next (.jump hb hc))

theorem live_of_edge {c : BlockId} (hb : b ∈ live) (hbc : Graph.Edge f.successors b c) :
    c ∈ live := by
  obtain ⟨block, hblock, hc⟩ := edge_iff.mp hbc
  exact h.live_next (p := ⟨b, block.statements.length⟩) hb (.jump hblock hc)

theorem reachable_iff : g.Reachable p ↔ f.Reachable p :=
  (reflTransGen_iff_of_closed (P := fun p => p.block ∈ live) (fun _ _ => h.live_next)
    (fun _ _ hp => (h.next_iff hp).symm) h.entry_mem).symm

theorem live_of_reachable (hp : f.Reachable p) : p.block ∈ live := by
  induction hp with
  | refl => exact h.entry_mem
  | tail _ hstep ih => exact h.live_next ih hstep

theorem reversePostorder_eq : g.reversePostorder = f.reversePostorder := by
  have hempty : g.blocks.isEmpty = f.blocks.isEmpty := by
    rw [Bool.eq_iff_iff, List.isEmpty_iff_length_eq_zero, List.isEmpty_iff_length_eq_zero, h.length]
  have hsearch : g.blockSearch = f.blockSearch := by
    rw [blockSearch, blockSearch, h.length, hempty]
    refine (Graph.search_congr (P := (· ∈ live)) (fun _ hb => (h.successors_eq hb).symm)
      (fun _ hb _ => h.live_of_edge hb) _ fun v hv => ?_).symm
    split at hv
    · cases hv
    · exact List.mem_singleton.mp hv ▸ h.entry_mem
  rw [reversePostorder, reversePostorder, hsearch, h.length]

theorem reachable_eq : g.reachable = f.reachable := by
  rw [reachable, reachable, h.reversePostorder_eq, blockIds, blockIds, h.length]

end AgreesOn

/-! ## Regions -/

section Regions

variable {f g : Func} (h : g.regions = f.regions)
include h

theorem within_congr (outer : RegionId) (steps : Nat) (inner : RegionId) :
    g.within outer steps inner = f.within outer steps inner := by
  induction steps generalizing inner with
  | zero => rfl
  | succ steps ih => simp only [within, parent?, h, ih]

theorem regionWithin_congr (inner outer : RegionId) :
    g.regionWithin inner outer = f.regionWithin inner outer := by
  rw [regionWithin, regionWithin, h, within_congr h]

theorem chainFrom_congr (limit : Nat) (met : List RegionId) (r : RegionId) :
    g.chainFrom limit met r = f.chainFrom limit met r := by
  induction limit generalizing met r with
  | zero => rfl
  | succ limit ih => simp only [chainFrom, parent?, h, ih]

theorem regionAncestors_congr (r : RegionId) : g.regionAncestors r = f.regionAncestors r := by
  rw [regionAncestors, regionAncestors, h, chainFrom_congr h]

end Regions

/-! ## The function without its dead code -/

end Func

/-- The block without its code. Control does not leave it. -/
def Block.emptied (b : Block) : Block where
  id := b.id
  region := b.region
  statements := []
  terminator := some ⟨.unreachable, ⟨0, 0⟩⟩

namespace Func

/-- The function without the code of the blocks that are not listed. -/
def prune (f : Func) (live : List BlockId) : Func :=
  { f with blocks := f.blocks.map fun block =>
      if live.contains block.id then block else block.emptied }

/-- The functions are equal but for the statements and terminators of unreachable blocks. -/
structure SameLive (f g : Func) : Prop where
  rest : { g with blocks := f.blocks } = f
  length : g.blocks.length = f.blocks.length
  label : ∀ {b : BlockId} {block block' : Block}, f.blocks[b]? = some block →
    g.blocks[b]? = some block' → block'.id = block.id ∧ block'.region = block.region
  live : ∀ {b}, f.Reachable ⟨b, 0⟩ → g.blocks[b]? = f.blocks[b]?

section Prune

variable {f : Func} {live : List BlockId} {b : BlockId}

theorem getElem?_prune (hf : f.Valid) (live : List BlockId) (b : BlockId) :
    (f.prune live).blocks[b]? =
      f.blocks[b]?.map fun block => if b ∈ live then block else block.emptied := by
  rw [prune, List.getElem?_map]
  cases hb : f.blocks[b]? with
  | none => rfl
  | some block => simp [hf.id_eq hb]

theorem prune_agrees (hf : f.Valid) (hlive : ∀ b, b ∈ live ↔ f.Reachable ⟨b, 0⟩) :
    f.AgreesOn (f.prune live) live where
  mem_iff := hlive _
  block hb := by simp [getElem?_prune hf, hb]
  length := List.length_map _

/-- The blocks of the pruned function are old ones and empty ones. -/
theorem mem_prune {block : Block} (h : block ∈ (f.prune live).blocks) :
    block ∈ f.blocks ∨ ∃ old ∈ f.blocks, block = old.emptied := by
  obtain ⟨old, hold, rfl⟩ := List.mem_map.mp h
  split
  · exact .inl hold
  · exact .inr ⟨old, hold, rfl⟩

theorem prune_valid (hf : f.Valid) (live : List BlockId) : (f.prune live).Valid where
  nonempty := by simpa [prune] using hf.nonempty
  id_eq := by
    intro b block hb
    rw [getElem?_prune hf] at hb
    obtain ⟨old, hold, rfl⟩ := Option.map_eq_some_iff.mp hb
    have hid : old.id = b := hf.id_eq hold
    split
    · exact hid
    · exact hid
  successor_lt := by
    intro block hblock c hc
    rw [show (f.prune live).blocks.length = f.blocks.length from List.length_map _]
    rcases mem_prune hblock with hold | ⟨old, -, rfl⟩
    · exact hf.successor_lt hold c hc
    · cases hc
  access_lt := by
    intro block hblock step hstep a ha
    rcases mem_prune hblock with hold | ⟨old, -, rfl⟩
    · exact hf.access_lt hold step hstep a ha
    · obtain rfl := List.mem_singleton.mp hstep
      cases ha
  dest_lt := by
    intro block hblock dest value span hmem
    rcases mem_prune hblock with hold | ⟨old, -, rfl⟩
    · exact hf.dest_lt hold hmem
    · cases hmem
  param_lt := hf.param_lt

/-- Only live blocks lead anywhere. -/
theorem predecessors_prune (f : Func) (live : List BlockId) (b : BlockId) :
    (f.prune live).predecessors b = (f.predecessors b).filter live.contains := by
  simp only [predecessors, prune]
  induction f.blocks with
  | nil => rfl
  | cons block rest ih =>
    by_cases hlive : block.id ∈ live
    · by_cases hedge : b ∈ block.successors
      · simpa [hlive, hedge] using ih
      · simpa [hlive, hedge] using ih
    · have hempty : block.emptied.successors = [] := rfl
      by_cases hedge : b ∈ block.successors
      · simpa [hlive, hedge, hempty] using ih
      · simpa [hlive, hedge, hempty] using ih

theorem blocksIn_prune (f : Func) (live : List BlockId) (r : RegionId) :
    (f.prune live).blocksIn r = f.blocksIn r := by
  have hregion : ∀ inner, (f.prune live).regionWithin inner r = f.regionWithin inner r :=
    fun inner => regionWithin_congr (g := f.prune live) (f := f) rfl inner r
  simp only [blocksIn, hregion]
  simp only [prune]
  congr 1
  induction f.blocks with
  | nil => rfl
  | cons block rest ih =>
    have hlabel : block.emptied.id = block.id ∧ block.emptied.region = block.region := ⟨rfl, rfl⟩
    by_cases hlive : block.id ∈ live
    · by_cases hin : f.regionWithin block.region r
      · simpa [hlive, hin] using ih
      · simpa [hlive, hin] using ih
    · by_cases hin : f.regionWithin block.region r
      · simpa [hlive, hin, hlabel] using ih
      · simpa [hlive, hin, hlabel] using ih

end Prune

/-! ## Functions with the same live code -/

namespace SameLive

variable {f g : Func} {live : List BlockId} (h : f.SameLive g)
include h

theorem agrees (hlive : ∀ b, b ∈ live ↔ f.Reachable ⟨b, 0⟩) : f.AgreesOn g live where
  mem_iff := hlive _
  block hb := h.live ((hlive _).mp hb)
  length := h.length

/-- Without dead code the two functions are one. -/
theorem prune_eq (hf : f.Valid) (hg : g.Valid) (hlive : ∀ b, b ∈ live ↔ f.Reachable ⟨b, 0⟩) :
    g.prune live = f.prune live := by
  have hblocks : (g.prune live).blocks = (f.prune live).blocks := by
    refine List.ext_getElem? fun b => ?_
    rw [getElem?_prune hf, getElem?_prune hg]
    by_cases hb : b ∈ live
    · simp [hb, h.live ((hlive b).mp hb)]
    · simp only [hb, if_false]
      cases hold : f.blocks[b]? with
      | none =>
        rw [List.getElem?_eq_none_iff, ← h.length, ← List.getElem?_eq_none_iff] at hold
        rw [hold]
      | some block =>
        have hlt : b < g.blocks.length := h.length ▸ (List.getElem?_eq_some_iff.mp hold).1
        have hnew := List.getElem?_eq_getElem hlt
        obtain ⟨hid, hregion⟩ := h.label hold hnew
        simp [hnew, Block.emptied, hid, hregion]
  calc g.prune live
      = { g with blocks := (g.prune live).blocks } := rfl
    _ = { g with blocks := (f.prune live).blocks } := by rw [hblocks]
    _ = f.prune live := congrArg (fun h => h.prune live) h.rest

end SameLive

end Func

end Tenure

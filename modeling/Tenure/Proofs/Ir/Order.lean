import Tenure.Proofs.Graph.Stack
import Tenure.Proofs.Ir.Paths

/-!
# The order of the blocks

The reverse post-order lists the blocks that control can reach, each once, the entry first. A jump
leads forward in it unless control can come back from its target (`Func.Traversal.idxOf_lt`), so
without cycles every jump leads forward. The loops that keep a stack of blocks, or of blocks with
the index of their next successor, come to the same blocks and to the same order
(`Func.reversePostorder_exact`).
-/

namespace Tenure.Func

open Relation Tenure.Graph

variable {f : Func} {order : List BlockId} {b c : BlockId}

/-- A block stands before its successors, except for those that lead back to it. -/
theorem Traversal.idxOf_lt (ht : f.Traversal order) (hb : b ∈ order)
    (hedge : Edge f.successors b c) (hback : ¬ ReflTransGen (Edge f.successors) c b) :
    order.idxOf b < order.idxOf c := by
  have hc : c ∈ order := ht.mem_of_edge hb hedge
  by_contra hle
  have hne : order.idxOf c ≠ order.idxOf b := by
    intro heq
    obtain rfl := (List.idxOf_inj hc).mp heq
    exact hback .refl
  have hlt : order.idxOf c < order.idxOf b := by omega
  have hordered := List.pairwise_iff_getElem.mp ht.ordered _ _ (List.idxOf_lt_length_of_mem hc)
    (List.idxOf_lt_length_of_mem hb) hlt
  rw [List.getElem_idxOf, List.getElem_idxOf] at hordered
  exact hback (hordered hedge)

section Searches

variable (hf : f.Valid)
include hf

/-- The loop over a stack of blocks meets the reachable ones and ends. -/
theorem worklist_end : ∃ n seen, (Worklist.step f.successors)^[n] ⟨[], [entry]⟩ = ⟨seen, []⟩ ∧
    ∀ b, b ∈ seen ↔ ReflTransGen (Edge f.successors) entry b := by
  have hroots : ∀ v ∈ [entry], v ∈ Finset.range f.blocks.length := fun v hv =>
    List.mem_singleton.mp hv ▸ entry_mem hf
  obtain ⟨n, seen, hend, hmem⟩ := Worklist.exists_end (fun v _ => successors_subset hf v) hroots
  exact ⟨n, seen, hend, fun b => by simp [hmem]⟩

/-- The loop over a stack of blocks with indices ends with the reverse post-order. -/
theorem trail_end (horder : f.reversePostorder = .ok order) :
    ∃ n seen, (Trail.step f.successors)^[n] ⟨⟨[entry], []⟩, [(entry, 0)]⟩ =
      ⟨⟨seen, order⟩, []⟩ := by
  obtain rfl : f.blockSearch.finished = order := by
    rw [reversePostorder] at horder
    split at horder
    · simp at horder
    · exact Except.ok.inj horder
  have hsearch : f.blockSearch = visit f.successors (f.blocks.length + 1) entry .start := by
    simp [blockSearch, search, hf.nonempty]
  have hdepth : (unseen (Finset.range f.blocks.length) .start).card ≤ f.blocks.length + 1 :=
    (Finset.card_le_card (Finset.filter_subset _ _)).trans (by simp)
  obtain ⟨n, hn⟩ :=
    Trail.leads_visit (fun v _ => successors_subset hf v) (f.blocks.length + 1) entry
      (entry_mem hf) .start hdepth List.not_mem_nil []
  rw [← hsearch] at hn
  exact ⟨n, f.blockSearch.seen, hn⟩

end Searches

/-- In an accepted function the reachable blocks are those on a path from the entry, and the reverse
post-order lists them, each once and the entry first. A block stands before each of its successors
from which no path leads back to it, and before all of them if there are no cycles. A loop over a
stack of blocks comes to the same blocks, and a loop over a stack of blocks, each with the index of
its next successor, to the same order. -/
theorem reversePostorder_exact (f : Func) (hvalid : f.validate = .ok ()) :
    ∃ blocks order, f.reachable = .ok blocks ∧ f.reversePostorder = .ok order ∧
      (∀ b, b ∈ blocks ↔ ReflTransGen (Edge f.successors) entry b) ∧
      (∀ b, b ∈ order ↔ b ∈ blocks) ∧ order.Nodup ∧ order.head? = some entry ∧
      (∀ b ∈ blocks, ∀ c, Edge f.successors b c → ¬ ReflTransGen (Edge f.successors) c b →
        order.idxOf b < order.idxOf c) ∧
      ((∀ b ∈ blocks, ¬ TransGen (Edge f.successors) b b) →
        ∀ b ∈ blocks, ∀ c, Edge f.successors b c → order.idxOf b < order.idxOf c) ∧
      (∃ n seen, (Worklist.step f.successors)^[n] ⟨[], [entry]⟩ = ⟨seen, []⟩ ∧
        ∀ b, b ∈ seen ↔ b ∈ blocks) ∧
      ∃ n seen, (Trail.step f.successors)^[n] ⟨⟨[entry], []⟩, [(entry, 0)]⟩ =
        ⟨⟨seen, order⟩, []⟩ := by
  have hf := valid_of_validate hvalid
  obtain ⟨order, horder, ht⟩ := reversePostorder_spec hf
  obtain ⟨blocks, hblocks, -, hmem⟩ := reachable_spec horder ht
  obtain ⟨n, seen, hend, hseen⟩ := worklist_end hf
  have hforward : ∀ b ∈ blocks, ∀ c, Edge f.successors b c →
      ¬ ReflTransGen (Edge f.successors) c b → order.idxOf b < order.idxOf c :=
    fun b hb c => ht.idxOf_lt ((hmem b).mp hb)
  refine ⟨blocks, order, hblocks, horder, fun b => (hmem b).trans ht.mem_iff,
    fun b => (hmem b).symm, ht.nodup, ht.head, hforward, ?_, ⟨n, seen, hend, ?_⟩,
    trail_end hf horder⟩
  · intro hacyclic b hb c hedge
    exact hforward b hb c hedge fun hback => hacyclic b hb (.head' hedge hback)
  · exact fun b => (hseen b).trans (((hmem b).trans ht.mem_iff).symm)

/-- A loop of blocks 1 and 2, left at block 3 or at block 4, which both lead to block 5. Control
never comes to block 6. -/
def loopWithExits : Func where
  id := 0
  name := "f"
  span := ⟨0, 40⟩
  params := []
  bindings := []
  blocks := [
    ⟨0, 0, [], some ⟨.goto 1, ⟨1, 2⟩⟩⟩,
    ⟨1, 0, [], some ⟨.branch (.constant (.bool true)) 2 3, ⟨3, 4⟩⟩⟩,
    ⟨2, 0, [], some ⟨.branch (.constant (.bool true)) 4 1, ⟨5, 6⟩⟩⟩,
    ⟨3, 0, [], some ⟨.goto 5, ⟨7, 8⟩⟩⟩,
    ⟨4, 0, [], some ⟨.branch (.constant (.bool true)) 5 5, ⟨9, 10⟩⟩⟩,
    ⟨5, 0, [], some ⟨.ret none, ⟨11, 12⟩⟩⟩,
    ⟨6, 0, [], some ⟨.goto 1, ⟨13, 14⟩⟩⟩]
  regions := [⟨0, .body, none, none, ⟨0, 40⟩⟩]
  allocations := []
  isAsync := false

/-- Both exits stand before the block where they meet, though only the first one comes to it as a
new block. -/
theorem loopWithExits_ordered :
    loopWithExits.validate = .ok () ∧ loopWithExits.reachable = .ok [0, 1, 2, 3, 4, 5] ∧
    ∃ order, loopWithExits.reversePostorder = .ok order ∧ order.head? = some 0 ∧
      order.idxOf 3 < order.idxOf 5 ∧ order.idxOf 4 < order.idxOf 5 ∧
      ¬ ReflTransGen (Edge loopWithExits.successors) entry 6 ∧
      ∃ n seen, (Trail.step loopWithExits.successors)^[n] ⟨⟨[entry], []⟩, [(entry, 0)]⟩ =
        ⟨⟨seen, order⟩, []⟩ := by
  have hvalid : loopWithExits.validate = .ok () := by decide +kernel
  have hreachable : loopWithExits.reachable = .ok [0, 1, 2, 3, 4, 5] := by decide +kernel
  obtain ⟨blocks, order, hblocks, horder, hmem, -, -, hhead, hforward, -, -, htrail⟩ :=
    reversePostorder_exact loopWithExits hvalid
  obtain rfl := Except.ok.inj (hreachable.symm.trans hblocks)
  -- control returns from block 5
  have hlast : ∀ b, b ≠ 5 → ¬ ReflTransGen (Edge loopWithExits.successors) 5 b := by
    intro b hne hpath
    rcases hpath.cases_head with rfl | ⟨c, hedge, -⟩
    · exact hne rfl
    · simp [Edge, successors, loopWithExits, Block.successors, TerminatorKind.successors] at hedge
  refine ⟨hvalid, hreachable, order, horder, hhead, ?_, ?_, ?_, htrail⟩
  · have hedge : 5 ∈ loopWithExits.successors 3 := by decide
    exact hforward 3 (by decide) 5 hedge (hlast 3 (by decide))
  · have hedge : 5 ∈ loopWithExits.successors 4 := by decide
    exact hforward 4 (by decide) 5 hedge (hlast 4 (by decide))
  · rw [← hmem]
    decide

end Tenure.Func

import Mathlib.Data.List.Nodup
import Tenure.Signature.Table

/-!
# Slots of the table of signatures

The table is described slot by slot: a write changes one slot and no other, and a pending slot takes
a signature. Which functions have a slot, and in which order, never changes.
-/

namespace Tenure.SignatureTable

variable {t t' : SignatureTable} {f g : FuncId} {signature : Signature}

theorem map_id_write (t : SignatureTable) (f : FuncId) (slot : Slot) :
    (t.write f slot).entries.map TableEntry.id = t.entries.map TableEntry.id := by
  rw [write, List.map_map]
  refine List.map_congr_left fun e _ => ?_
  rw [Function.comp_apply]
  split <;> rfl

theorem entry?_write (t : SignatureTable) (f g : FuncId) (slot : Slot) :
    entry? (t.write f slot) g = (t.entry? g).map fun e => if e.id = f then { e with slot } else e := by
  rw [ entry?, write, List.find?_map, entry?]
  congr 2
  funext e
  rw [Function.comp_apply]
  split <;> rfl

theorem slot?_write_of_ne (h : g ≠ f) (slot : Slot) : (t.write f slot).slot? g = t.slot? g := by
  rw [slot?, slot?, entry?_write, Option.map_map]
  refine Option.map_congr fun e he => ?_
  have hid : e.id = g := by simpa using List.find?_some he
  rw [Function.comp_apply, if_neg (hid ▸ h)]

theorem slot?_write_self (h : t.slot? f ≠ none) (slot : Slot) :
    (t.write f slot).slot? f = some slot := by
  rw [slot?, Ne, Option.map_eq_none_iff] at h
  obtain ⟨e, he⟩ := Option.ne_none_iff_exists'.mp h
  have hid : e.id = f := by simpa using List.find?_some he
  rw [slot?, entry?_write, he, Option.map_some, if_pos hid]
  rfl

/-- A pending slot takes a signature. -/
theorem finalize_of_pending (h : t.slot? f = some .pending) (signature : Signature) :
    t.finalize f signature = .ok (t.write f (.final signature)) := by
  obtain ⟨⟨id, name, slot⟩, he, hslot⟩ := Option.map_eq_some_iff.mp h
  obtain rfl : slot = .pending := hslot
  rw [finalize, he]

theorem finalize_eq_ok (h : t.finalize f signature = .ok t') :
    t.slot? f = some .pending ∧ t' = t.write f (.final signature) := by
  rw [finalize] at h
  split at h
  next id name he =>
    refine ⟨?_, (Except.ok.inj h).symm⟩
    rw [slot?, he]
    rfl
  next => cases h
  next => cases h

theorem slot?_abandon (t : SignatureTable) (f g : FuncId) :
    (t.abandon f).slot? g =
      if g = f ∧ t.slot? g = some .pending then some .abandoned else t.slot? g := by
  rw [abandon]
  split
  next hpending =>
    by_cases hgf : g = f
    · subst hgf
      rw [if_pos ⟨rfl, hpending⟩, slot?_write_self (by rw [hpending]; simp)]
    · rw [if_neg (fun h => hgf h.1), slot?_write_of_ne hgf]
  next hother =>
    rw [if_neg]
    rintro ⟨rfl, hpending⟩
    exact hother hpending

theorem map_id_abandon (t : SignatureTable) (f : FuncId) :
    (t.abandon f).entries.map TableEntry.id = t.entries.map TableEntry.id := by
  rw [abandon]
  split
  · exact map_id_write t f .abandoned
  · rfl

theorem get?_eq_some_iff : t.get? f = some signature ↔ t.slot? f = some (.final signature) := by
  rw [get?]
  split
  next found h => rw [h, Option.some.injEq, Option.some.injEq, Slot.final.injEq]
  next h =>
    constructor
    · intro hnone
      cases hnone
    · intro hfinal
      exact absurd hfinal (h signature)

/-- The settled slots of one table are the same in another. -/
def KeptIn (t u : SignatureTable) : Prop :=
  ∀ f, t.slot? f ≠ some .pending → u.slot? f = t.slot? f

theorem KeptIn.refl (t : SignatureTable) : t.KeptIn t := fun _ _ => rfl

theorem KeptIn.trans {u v : SignatureTable} (h : t.KeptIn u) (h' : u.KeptIn v) : t.KeptIn v := by
  intro f hsettled
  rw [h' f (by rwa [h f hsettled]), h f hsettled]

theorem KeptIn.get?_eq {u : SignatureTable} (h : t.KeptIn u) (hf : t.slot? f ≠ some .pending) :
    u.get? f = t.get? f := by
  rw [get?, h f hf, get?]

/-- A table of different functions starts with one pending slot for each. -/
theorem ofFunctions_eq {functions : List (FuncId × String)}
    (h : (functions.map Prod.fst).Nodup) :
    ofFunctions functions = ⟨functions.map fun x => ⟨x.1, x.2, .pending⟩⟩ := by
  have hfold : ∀ (rest : List (FuncId × String)) (entries : List TableEntry),
      (entries.map TableEntry.id ++ rest.map Prod.fst).Nodup →
      rest.foldl ofFunctions.enter entries = entries ++ rest.map fun x => ⟨x.1, x.2, .pending⟩ := by
    intro rest
    induction rest with
    | nil => simp
    | cons x rest ih =>
      intro entries hnodup
      have hfresh : (entries.any fun e => e.id = x.1) = false := by
        rw [List.any_eq_false]
        intro e he heq
        have hdisjoint := List.disjoint_of_nodup_append hnodup
        exact hdisjoint (List.mem_map_of_mem he) (by simp [of_decide_eq_true heq])
      rw [List.foldl_cons, ofFunctions.enter, hfresh, if_neg Bool.false_ne_true, ih, List.map_cons,
        List.append_assoc, List.singleton_append]
      rwa [List.map_append, List.map_singleton, List.append_assoc]
  rw [ofFunctions, hfold functions [] (by simpa using h), List.nil_append]

theorem slot?_ofFunctions {functions : List (FuncId × String)}
    (h : (functions.map Prod.fst).Nodup) (f : FuncId) :
    (ofFunctions functions).slot? f =
      if f ∈ functions.map Prod.fst then some .pending else none := by
  rw [ofFunctions_eq h, slot?, entry?, List.find?_map, Option.map_map]
  split
  next hmem =>
    obtain ⟨x, hx, rfl⟩ := List.mem_map.mp hmem
    have hfind : (functions.find? ((fun e : TableEntry => decide (e.id = x.1)) ∘
        fun y => ⟨y.1, y.2, .pending⟩)).isSome := List.find?_isSome.mpr ⟨x, hx, by simp⟩
    obtain ⟨y, hy⟩ := Option.isSome_iff_exists.mp hfind
    rw [hy]
    rfl
  next hmem =>
    rw [Option.map_eq_none_iff, List.find?_eq_none]
    intro y hy heq
    exact hmem (List.mem_map.mpr ⟨y, hy, by simpa using heq⟩)

/-- The published signatures stand in the order of the slots. -/
theorem snapshot_eq (t : SignatureTable) :
    t.snapshot = (t.entries.map TableEntry.id).filterMap fun f => (t.get? f).map (Prod.mk f) := by
  rw [snapshot, List.filterMap_map]
  rfl

end Tenure.SignatureTable

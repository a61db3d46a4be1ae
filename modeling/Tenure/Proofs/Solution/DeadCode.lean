import Tenure.Proofs.Signature
import Tenure.Proofs.Solution.Running
import Tenure.Proofs.Usage.Renumber

/-!
# Solutions without dead code

The modes of bindings, the signature and the conflicts are made of the live uses
(`Environment.solve_liveUses`). The live uses of a function are the uses of its pruned form under
increasing numbers, with the same modes (`Environment.exists_renumbering_of_solve`): the running
modes merge what comes along paths, and these are the same. So a function and its pruned form have
the same solution but for the numbers of the uses.
-/

namespace Tenure

open Relation

/-! ## Solved uses under new numbers -/

/-- The solved use under its new number. -/
def SolvedUse.renumber (r : Renumbering) (u : SolvedUse) : SolvedUse :=
  { u with id := r.use u.id, group := u.group.map r.group }

section Renumber

variable (r : Renumbering) (u : Use) (x : SolvedUse)

@[simp]
theorem Use.renumber_toAccess : (u.renumber r).toAccess = u.toAccess := rfl

@[simp]
theorem Use.renumber_id : (u.renumber r).id = r.use u.id := rfl

@[simp]
theorem Use.renumber_group : (u.renumber r).group = u.group.map r.group := rfl

@[simp]
theorem Use.renumber_point : (u.renumber r).point = u.point := rfl

@[simp]
theorem SolvedUse.renumber_toUse : (x.renumber r).toUse = x.toUse.renumber r := rfl

@[simp]
theorem SolvedUse.renumber_resolved : (x.renumber r).resolved = x.resolved := rfl

end Renumber

theorem Mode.IsMergeOf.eq {m m' : Mode} {needed needed' : Mode → Prop} (h : m.IsMergeOf needed)
    (h' : m'.IsMergeOf needed') (hneeded : ∀ n, needed n ↔ needed' n) : m = m' := by
  have hwithin : ∀ k, m.within k = true ↔ m'.within k = true := by
    intro k
    rw [h k, h' k]
    exact forall_congr' fun n => imp_congr_left (hneeded n)
  exact within_antisymm ((hwithin m').mpr (within_refl m')) ((hwithin m).mp (within_refl m))

namespace Environment

variable {env : Environment} {f : Func} {s core : Solution} {r : Renumbering}

/-! ## What a solution takes from the live uses -/

/-- The modes of all bindings, from the uses that count. -/
def modesOf (f : Func) (uses : List SolvedUse) : List Mode :=
  f.bindings.zipIdx.map fun (decl, b) => bindingMode uses b decl

theorem solve_liveUses {u : Usage} (h : env.solve f u = .ok s) :
    s.modes = modesOf f s.liveUses ∧
    s.conflicts = s.liveUses.filterMap (fun x => env.conflict? x.toAccess x.decl) ∧
    ∃ params, f.params.mapM (fun p => lookup s.modes p (.noBinding p)) = .ok params ∧
      s.signature = .ofModes params := by
  simp only [solve, bind_eq_ok, pure_eq_ok] at h
  obtain ⟨reachable, -, uses, -, annotated, hannotated, params, hparams, rfl⟩ := h
  obtain ⟨order, exits, -, -, hentered⟩ := annotateRunning_eq_ok hannotated
  obtain ⟨running, hrunning⟩ := enterRunning_eq uses _
  obtain rfl := hentered.trans hrunning
  refine ⟨?_, ?_, params, hparams, rfl⟩
  · refine List.map_congr_left fun entry _ => ?_
    simp [bindingMode, Solution.liveUses, Solution.isReachable, List.filter_map, Function.comp_def]
  · simp [Solution.liveUses, Solution.isReachable, List.filter_map, Function.comp_def]

theorem modesOf_renumber (f : Func) (uses : List SolvedUse) :
    modesOf f (uses.map (SolvedUse.renumber r)) = modesOf f uses := by
  refine List.map_congr_left fun entry _ => ?_
  simp only [bindingMode, List.filter_map, List.map_map, Function.comp_def]
  rfl

/-! ## The pruned function -/

section Prune

variable (hf : f.Valid) (hs : env.solve f f.usage = .ok s)
  (hcore : env.solve (f.prune s.reachable) (f.prune s.reachable).usage = .ok core)
include hf hs

theorem prune_agrees_of_solve : f.AgreesOn (f.prune s.reachable) s.reachable :=
  Func.prune_agrees hf fun _ => (solved_of_solve hs).mem_reachable_iff hf

include hcore

theorem reachable_core_eq : core.reachable = s.reachable := by
  have heq := (prune_agrees_of_solve hf hs).reachable_eq
  rw [(solved_of_solve hs).reachable, (solved_of_solve hcore).reachable] at heq
  exact Except.ok.inj heq

omit hf in
/-- The two uses have the same text, and so the same modes. -/
theorem modes_eq_of_toUse {u u' : SolvedUse} (hu : u ∈ s.uses) (hu' : u' ∈ core.uses)
    (h : u.toUse = u'.toUse.renumber r) :
    u.decl = u'.decl ∧ u.required = u'.required ∧ u.resolved = u'.resolved := by
  have hsolved := solved_of_solve hs
  have hsolved' := solved_of_solve hcore
  have haccess : u.toAccess = u'.toAccess := by rw [h, Use.renumber_toAccess]
  have hdecl : u.decl = u'.decl := by
    have hget := hsolved.decl u hu
    rw [haccess] at hget
    exact Option.some.inj (hget.symm.trans (hsolved'.decl u' hu'))
  refine ⟨hdecl, ?_, ?_⟩
  · rw [hsolved.required u hu, hsolved'.required u' hu', haccess, hdecl]
  · rw [hsolved.resolved u hu, hsolved'.resolved u' hu', haccess, hdecl]

omit hcore

/-- The same paths lead from one use to another. -/
theorem countsAt_iff_of_toUse (hr : r.Increasing) {u u' v v' : SolvedUse}
    (hu : u.toUse = u'.toUse.renumber r) (hv : v.toUse = v'.toUse.renumber r)
    (hlive : v.point.block ∈ s.reachable) :
    f.CountsAt v u ↔ (f.prune s.reachable).CountsAt v' u' := by
  have hagrees := prune_agrees_of_solve hf hs
  have hbinding : u.binding = u'.binding ∧ v.binding = v'.binding := by
    simp [hu, hv]
  have hpoint : u.point = u'.point ∧ v.point = v'.point := by
    simp [hu, hv]
  have hid : v.id ≤ u.id ↔ v'.id ≤ u'.id := by
    rw [hu, hv]
    exact hr.use.le_iff_le
  have hpath : TransGen (fun p q => ¬ f.InitialisedAt p u.binding ∧ f.Next p q) v.point u.point ↔
      TransGen (fun p q => ¬ (f.prune s.reachable).InitialisedAt p u'.binding ∧
        (f.prune s.reachable).Next p q) v'.point u'.point := by
    rw [← hpoint.1, ← hpoint.2, ← hbinding.1]
    refine transGen_iff_of_closed (P := fun p => p.block ∈ s.reachable)
      (fun p q hp hpq => hagrees.live_next hp hpq.2) (fun p q hp => ?_) hlive
    rw [Func.InitialisedAt, Func.InitialisedAt, hagrees.step?_eq hp, hagrees.next_iff hp]
  constructor
  · rintro ⟨hvu, hway⟩
    refine ⟨hbinding.2 ▸ hbinding.1 ▸ hvu, hway.imp (fun h => ⟨?_, hid.mp h.2⟩) hpath.mp⟩
    rw [← hpoint.1, ← hpoint.2, h.1]
  · rintro ⟨hvu, hway⟩
    refine ⟨hbinding.2.trans (hvu.trans hbinding.1.symm),
      hway.imp (fun h => ⟨?_, hid.mpr h.2⟩) hpath.mpr⟩
    rw [hpoint.1, hpoint.2, h.1]

include hcore

/-- What comes along the same paths is merged to the same running mode. -/
theorem running_eq_of_toUse (hr : r.Increasing)
    (heq : s.liveUses.map SolvedUse.toUse = core.uses.map fun x => x.toUse.renumber r)
    {u u' : SolvedUse} (hu : u ∈ s.liveUses) (hu' : u' ∈ core.uses)
    (h : u.toUse = u'.toUse.renumber r) : u.running = u'.running := by
  have hsolved := solved_of_solve hs
  have hagrees := prune_agrees_of_solve hf hs
  obtain ⟨hmem, hreach⟩ := (hsolved.mem_liveUses hf).mp hu
  have hpoint : u.point = u'.point := by simp [h]
  have hreach' : (f.prune s.reachable).Reachable u'.point :=
    hagrees.reachable_iff.mpr (hpoint ▸ hreach)
  have hvalid := Func.prune_valid hf s.reachable
  refine ((running_of_solve hf hs hmem).1 hreach).eq
    ((running_of_solve hvalid hcore hu').1 hreach') fun m => ?_
  constructor
  · rintro ⟨v, hv, hvreach, hcounts, hm⟩
    have hvlive := (hsolved.mem_liveUses hf).mpr ⟨hv, hvreach⟩
    obtain ⟨v', hv', hvv⟩ := List.mem_map.mp (heq ▸ List.mem_map_of_mem hvlive)
    have hblock := hagrees.live_of_reachable hvreach
    refine ⟨v', hv', ?_, (countsAt_iff_of_toUse hf hs hr h hvv.symm hblock).mp hcounts, ?_⟩
    · rw [hagrees.reachable_iff]
      have hpoint : v'.point = v.point := by simp [← hvv]
      rwa [hpoint]
    · rw [← (modes_eq_of_toUse hs hcore hv hv' hvv.symm).2.2, hm]
  · rintro ⟨v', hv', hvreach, hcounts, hm⟩
    obtain ⟨v, hvlive, hvv⟩ := List.mem_map.mp
      (heq.symm ▸ List.mem_map_of_mem (f := fun x : SolvedUse => x.toUse.renumber r) hv')
    obtain ⟨hv, hvreach⟩ := (hsolved.mem_liveUses hf).mp hvlive
    have hblock := hagrees.live_of_reachable hvreach
    refine ⟨v, hv, hvreach, (countsAt_iff_of_toUse hf hs hr h hvv hblock).mpr hcounts, ?_⟩
    rw [(modes_eq_of_toUse hs hcore hv hv' hvv).2.2, hm]

/-- The live uses of a function are the uses of its pruned form under increasing numbers. -/
theorem exists_renumbering_of_solve :
    ∃ r : Renumbering, r.Increasing ∧ s.liveUses = core.uses.map (SolvedUse.renumber r) := by
  have hsolved := solved_of_solve hs
  have hsolved' := solved_of_solve hcore
  obtain ⟨r, hr, huses⟩ := f.exists_live_renumbering s.reachable
  have heq : s.liveUses.map SolvedUse.toUse = core.uses.map fun x => x.toUse.renumber r := by
    rw [← hsolved.uses, ← hsolved'.uses, List.map_map, List.filter_map] at huses
    exact huses
  refine ⟨r, hr, Table.eq_map_of_map_eq heq fun u hu u' hu' h => ?_⟩
  have hmem := ((hsolved.mem_liveUses hf).mp hu).1
  obtain ⟨hdecl, hrequired, hresolved⟩ := modes_eq_of_toUse hs hcore hmem hu' h
  have hrunning := running_eq_of_toUse hf hs hcore hr heq hu hu' h
  obtain ⟨use, decl, required, resolved, running⟩ := u
  obtain rfl : use = u'.toUse.renumber r := h
  obtain rfl : decl = u'.decl := hdecl
  obtain rfl : required = u'.required := hrequired
  obtain rfl : resolved = u'.resolved := hresolved
  obtain rfl : running = u'.running := hrunning
  rfl

end Prune

end Environment

end Tenure

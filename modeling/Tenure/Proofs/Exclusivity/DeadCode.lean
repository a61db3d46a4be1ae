import Tenure.Proofs.Exclusivity
import Tenure.Proofs.Facts.DeadCode
import Tenure.Proofs.Forward.Correspondence

/-!
# Exclusivity and dead code

The check gathers the aliases of a holder from all uses, also from those in dead code. This is the
only way dead code gets into its reports. With the aliases given, the reports about a function are
those about its pruned form (`violationsWith_eq`), and of the aliases it only matters which bindings
they are, and only for loans in live code (`violationsWith_congr`).
-/

namespace Tenure.Exclusivity

open Relation

variable {facts core : Facts} {r : Renumbering} {aliases aliases' : BindingId → List BindingId}
  {p : Point}

/-! ## The check with given aliases -/

/-- The loan with other aliases. -/
def Loan.withAliases (aliases : BindingId → List BindingId) (loan : Loan) : Loan :=
  { loan with aliases := aliases loan.holder }

/-- The loans of a function with other aliases. -/
def loansWith (aliases : BindingId → List BindingId) (s : Solution) : List Loan :=
  (loans s).map (Loan.withAliases aliases)

/-- Every use that one of the loans excludes. -/
def conflictsOf (facts : Facts) (taken : List Loan) : Except Fault (List (UseId × Violation)) := do
  let order ← facts.func.reversePostorder
  let analysis := reaching facts.usage taken
  let exits ← analysis.exits facts.func order (Nat.pow 2 taken.length)
  return facts.solution.reachable.flatMap fun b =>
    (analysis.trace facts.func exits b).flatMap fun (p, s) => loanConflictsAt facts taken p s

/-- The check in which a loan counts while one of the given aliases of its holder is live. -/
def violationsWith (aliases : BindingId → List BindingId) (facts : Facts) :
    Except Fault (List Violation) := do
  let held ← conflictsOf facts (loansWith aliases facts.solution)
  return keepFirst [] (groupConflicts facts.solution ++ held)

theorem withAliases_loanOf? (uses uses' : List SolvedUse) (u : SolvedUse) :
    (loanOf? uses u).map (Loan.withAliases aliases) =
      (loanOf? uses' u).map (Loan.withAliases aliases) := by
  rw [loanOf?, loanOf?]
  split
  · rw [Option.map_map, Option.map_map]
    rfl
  · rfl

theorem loansWith_ownAliases (s : Solution) : loansWith (ownAliases s.uses) s = loans s := by
  rw [loansWith, loans, List.map_filterMap]
  refine List.filterMap_congr fun u _ => ?_
  rw [loanOf?]
  split
  · rw [Option.map_map]
    rfl
  · rfl

/-- The check takes the aliases that all uses make. -/
theorem violations_eq_violationsWith (facts : Facts) :
    violations facts = violationsWith (ownAliases facts.solution.uses) facts := by
  rw [violations, violationsWith, loansWith_ownAliases]
  rfl

/-! ## Loans that count -/

/-- The loan counts at the point: it has come there and some alias is live. -/
structure Loan.CountsAt (facts : Facts) (p : Point) (loan : Loan) : Prop where
  reaches : facts.func.Reaches (fun q => loan.point = q)
    (fun q => facts.usage.definitionAt q ≠ some loan.holder) p
  live : ∃ a ∈ loan.aliases, facts.liveness.isLiveIn p a = true

/-- A loan that counts somewhere was taken in live code. -/
theorem Loan.CountsAt.reachable {loan : Loan} (h : loan.CountsAt facts p) :
    facts.func.Reachable loan.point := by
  obtain ⟨q, q', hq, rfl, -⟩ := h.reaches
  exact hq

theorem Loan.CountsAt.withAliases {loan : Loan} (h : (loan.withAliases aliases).CountsAt facts p)
    (hsub : facts.func.Reachable loan.point → ∀ a ∈ aliases loan.holder, a ∈ aliases' loan.holder) :
    (loan.withAliases aliases').CountsAt facts p := by
  obtain ⟨a, ha, hlive⟩ := h.live
  exact ⟨h.reaches, a, hsub h.reachable a ha, hlive⟩

/-- What the loan excludes at the point. -/
def excludedAt (facts : Facts) (p : Point) (loan : Loan) : List (UseId × Violation) :=
  ((facts.solution.usesAt p).filter fun u =>
    u.binding = loan.borrowed && u.id ≠ loan.use && overlaps loan.mode u.resolved).map fun u =>
      (u.id, conflict u loan.span loan.mode)

open Classical in
theorem loanConflictsAt_eq {taken : List Loan} {s : List Bool} (hlen : s.length = taken.length)
    (hs : ∀ i loan, taken[i]? = some loan → (s.getD i false = true ↔
      facts.func.Reaches (fun q => loan.point = q)
        (fun q => facts.usage.definitionAt q ≠ some loan.holder) p)) :
    loanConflictsAt facts taken p s =
      (taken.filter fun loan => loan.CountsAt facts p).flatMap (excludedAt facts p) := by
  have hflags : s = taken.map fun loan => decide (facts.func.Reaches (fun q => loan.point = q)
      (fun q => facts.usage.definitionAt q ≠ some loan.holder) p) := by
    refine List.ext_getElem (by simpa using hlen) fun i hi hi' => ?_
    have hflag := hs i taken[i] (List.getElem?_eq_getElem (hlen ▸ hi))
    rw [List.getD_eq_getElem s false hi] at hflag
    rw [List.getElem_map, Bool.eq_iff_iff, decide_eq_true_iff, hflag]
  have hlive : ∀ loan : Loan, (facts.liveness.liveIn p).containsAny loan.aliases = true ↔
      ∃ a ∈ loan.aliases, facts.liveness.isLiveIn p a = true := fun loan => List.any_eq_true
  rw [loanConflictsAt, hflags, ← List.map_prod_left_eq_zip]
  simp only [List.filter_map, List.flatMap_map]
  congr 1
  refine List.filter_congr fun loan _ => ?_
  rw [Bool.eq_iff_iff, Function.comp_apply, Bool.and_eq_true, decide_eq_true_iff,
    decide_eq_true_iff, hlive]
  exact ⟨fun h => ⟨h.1, h.2⟩, fun h => ⟨h.1, h.2⟩⟩

open Classical in
/-- The check follows the loans along paths, and reports at each live point what those exclude that
count there. -/
theorem conflictsOf_eq (hf : facts.func.Valid)
    (hreachable : ∀ b ∈ facts.solution.reachable, facts.func.Reachable ⟨b, 0⟩)
    (taken : List Loan) :
    conflictsOf facts taken = .ok (facts.solution.reachable.flatMap fun b =>
      (facts.func.pointsOf b).flatMap fun p =>
        (taken.filter fun loan => loan.CountsAt facts p).flatMap (excludedAt facts p)) := by
  obtain ⟨order, horder, ht⟩ := Func.reversePostorder_spec hf
  obtain ⟨exits, hexits⟩ : ∃ exits, (reaching facts.usage taken).exits facts.func order
      (Nat.pow 2 taken.length) = .ok exits := reaching_exits_isOk order
  have hset := Forward.settled_of_exits hexits
  have hshaped := reaching_shaped facts.usage taken
  simp only [conflictsOf, bind_eq_ok, pure_eq_ok]
  refine ⟨order, horder, exits, hexits, ?_⟩
  simp only [Forward.trace_eq, List.flatMap_map]
  refine List.flatMap_congr fun b hb => List.flatMap_congr fun p hp => ?_
  obtain rfl := Func.block_eq_of_mem_pointsOf hp
  have hreach : facts.func.Reachable p :=
    ht.reachable_iff.mpr ⟨(ht.reachable_iff.mp (hreachable _ hb)).1, hp⟩
  refine loanConflictsAt_eq ?_ fun i loan hi =>
    (reaching_tracks hi).before_iff hshaped hf ht hset hreach
  exact hshaped.through _ (hshaped.entry (hset.shaped hshaped hf ht) _)

/-- Of the aliases it only matters which they are, for the holders of live loans. -/
theorem violationsWith_congr (hf : facts.func.Valid)
    (hreachable : ∀ b ∈ facts.solution.reachable, facts.func.Reachable ⟨b, 0⟩)
    (h : ∀ loan ∈ loans facts.solution, facts.func.Reachable loan.point →
      ∀ a, a ∈ aliases loan.holder ↔ a ∈ aliases' loan.holder) :
    violationsWith aliases facts = violationsWith aliases' facts := by
  classical
  have hconflicts : conflictsOf facts (loansWith aliases facts.solution) =
      conflictsOf facts (loansWith aliases' facts.solution) := by
    rw [conflictsOf_eq hf hreachable, conflictsOf_eq hf hreachable]
    refine congrArg Except.ok (List.flatMap_congr fun b hb => List.flatMap_congr fun p hp => ?_)
    simp only [loansWith, List.filter_map, List.flatMap_map]
    refine congrArg (List.flatMap (excludedAt facts p)) (List.filter_congr fun loan hloan => ?_)
    rw [Function.comp_apply, Function.comp_apply, decide_eq_decide]
    exact ⟨fun hcounts => hcounts.withAliases fun hlive a => (h loan hloan hlive a).mp,
      fun hcounts => hcounts.withAliases fun hlive a => (h loan hloan hlive a).mpr⟩
  rw [violationsWith, violationsWith, hconflicts]

/-! ## The pruned function -/

/-- The loan under its new number. -/
def Loan.renumber (r : Renumbering) (loan : Loan) : Loan := { loan with use := r.use loan.use }

/-- A finding under the new number of its use. -/
def renumberFinding (r : Renumbering) (entry : UseId × Violation) : UseId × Violation :=
  (r.use entry.1, entry.2.renumber r)

theorem clash_renumber (hr : r.Increasing) (first later : SolvedUse) :
    clash (first.renumber r) (later.renumber r) = clash first later := by
  have hid : r.use first.id < r.use later.id ↔ first.id < later.id := hr.use.lt_iff_lt
  have hgroup : first.group.map r.group = later.group.map r.group ↔ first.group = later.group :=
    (Option.map_injective hr.group.injective).eq_iff
  have hfields : disjointFields (first.renumber r) (later.renumber r) =
      disjointFields first later := rfl
  rw [Bool.eq_iff_iff]
  simp only [clash, Bool.and_eq_true, decide_eq_true_eq, hfields]
  simp only [SolvedUse.renumber_toUse, SolvedUse.renumber_resolved, Use.renumber_id,
    Use.renumber_group, Use.renumber_toAccess, Option.isSome_map, hid, hgroup]

theorem groupConflicts_eq (h : facts.PrunedTo r core) :
    groupConflicts facts.solution = (groupConflicts core.solution).map (renumberFinding r) := by
  rw [groupConflicts, groupConflicts, h.liveUses_eq, List.filterMap_map, List.map_filterMap]
  refine List.filterMap_congr fun later _ => ?_
  have hclash : (fun first => clash first (later.renumber r)) ∘ SolvedUse.renumber r =
      fun first => clash first later := funext fun first => clash_renumber h.increasing first later
  rw [Function.comp_apply, List.find?_map, hclash, Option.map_map, Option.map_map]
  rfl

theorem excludedAt_eq (h : facts.PrunedTo r core) (hp : p.block ∈ facts.solution.reachable)
    (loan : Loan) :
    excludedAt facts p (loan.renumber r) = (excludedAt core p loan).map (renumberFinding r) := by
  have hid : ∀ u : SolvedUse, r.use u.id = r.use loan.use ↔ u.id = loan.use :=
    fun u => h.increasing.use.injective.eq_iff
  have hmode : (loan.renumber r).mode = loan.mode := rfl
  simp only [excludedAt, h.usesAt_eq hp, List.filter_map, List.map_map]
  refine congrArg₂ List.map rfl (List.filter_congr fun u _ => ?_)
  rw [Function.comp_apply, Bool.eq_iff_iff]
  simp only [Bool.and_eq_true, decide_eq_true_eq, hmode, ne_eq]
  simp only [Loan.renumber, SolvedUse.renumber_toUse, SolvedUse.renumber_resolved, Use.renumber_id,
    Use.renumber_toAccess, hid]

theorem countsAt_renumber_iff (h : facts.PrunedTo r core) (hp : p.block ∈ facts.solution.reachable)
    (loan : Loan) : (loan.renumber r).CountsAt facts p ↔ loan.CountsAt core p := by
  have hreaches : core.func.Reaches (fun q => loan.point = q)
      (fun q => core.usage.definitionAt q ≠ some loan.holder) p ↔
      facts.func.Reaches (fun q => loan.point = q)
        (fun q => facts.usage.definitionAt q ≠ some loan.holder) p :=
    h.agrees.reaches_iff fun q hq => by rw [h.definitionAt hq]
  constructor
  · rintro ⟨hr, a, ha, hlive⟩
    exact ⟨hreaches.mpr hr, a, ha, (h.isLiveIn hp).trans hlive⟩
  · rintro ⟨hr, a, ha, hlive⟩
    exact ⟨hreaches.mp hr, a, ha, (h.isLiveIn hp).symm.trans hlive⟩

theorem point_of_loanOf? {uses : List SolvedUse} {u : SolvedUse} {loan : Loan}
    (h : loanOf? uses u = some loan) : loan.point = u.point := by
  rw [loanOf?] at h
  split at h
  · obtain ⟨isMutable, -, rfl⟩ := Option.map_eq_some_iff.mp h
    rfl
  · cases h

theorem loanOf?_renumber (uses : List SolvedUse) (u : SolvedUse) :
    loanOf? uses (u.renumber r) = (loanOf? uses u).map (Loan.renumber r) := by
  have hloan : (u.renumber r).loan = u.loan := rfl
  have hlends : lends? (u.renumber r) = lends? u := rfl
  rw [loanOf?, loanOf?, hloan]
  split
  · rw [hlends, Option.map_map]
    rfl
  · rfl

theorem loansWith_eq (h : facts.PrunedTo r core) :
    (loansWith aliases facts.solution).filter (fun loan => facts.solution.isReachable loan.point) =
      (loansWith aliases core.solution).map (Loan.renumber r) := by
  have hlive : (loansWith aliases facts.solution).filter
      (fun loan => facts.solution.isReachable loan.point) = facts.solution.liveUses.filterMap
        fun u => (loanOf? facts.solution.uses u).map (Loan.withAliases aliases) := by
    rw [loansWith, loans, List.map_filterMap, List.filter_filterMap, Solution.liveUses,
      List.filterMap_filter]
    refine List.filterMap_congr fun u _ => ?_
    cases hloan : loanOf? facts.solution.uses u with
    | none => simp
    | some loan =>
      have hpoint : loan.point = u.point := point_of_loanOf? hloan
      simp [Option.filter, Loan.withAliases, hpoint]
  rw [hlive, h.uses, List.filterMap_map, loansWith, loans, List.map_filterMap, List.map_filterMap]
  refine List.filterMap_congr fun u _ => ?_
  rw [Function.comp_apply, withAliases_loanOf? _ core.solution.uses, loanOf?_renumber,
    Option.map_map, Option.map_map]
  rfl

open Classical in
theorem loansWith_countsAt_eq (h : facts.PrunedTo r core) (hp : p.block ∈ facts.solution.reachable)
    (aliases : BindingId → List BindingId) :
    ((loansWith aliases facts.solution).filter fun loan => loan.CountsAt facts p) =
      ((loansWith aliases core.solution).filter fun loan => loan.CountsAt core p).map
        (Loan.renumber r) := by
  have hlive : ((loansWith aliases facts.solution).filter fun loan => loan.CountsAt facts p) =
      ((loansWith aliases facts.solution).filter fun loan =>
        facts.solution.isReachable loan.point).filter fun loan => loan.CountsAt facts p := by
    rw [List.filter_filter]
    refine List.filter_congr fun loan hloan => ?_
    rw [Bool.eq_iff_iff, Bool.and_eq_true, decide_eq_true_iff]
    refine ⟨fun hcounts => ⟨hcounts, ?_⟩, And.left⟩
    exact List.contains_iff_mem.mpr (h.agrees.live_of_reachable hcounts.reachable)
  rw [hlive, loansWith_eq h, List.filter_map]
  congr 1
  refine List.filter_congr fun loan _ => ?_
  rw [Function.comp_apply, decide_eq_decide]
  exact countsAt_renumber_iff h hp loan

/-- With the aliases given, dead code makes no difference but for the numbers in the reports. -/
theorem violationsWith_eq (hf : facts.func.Valid) (hcore : core.func.Valid)
    (h : facts.PrunedTo r core) (aliases : BindingId → List BindingId) :
    violationsWith aliases facts =
      (violationsWith aliases core).map (List.map (Violation.renumber r)) := by
  classical
  have hreachable : ∀ b ∈ facts.solution.reachable, facts.func.Reachable ⟨b, 0⟩ :=
    fun b hb => h.agrees.mem_iff.mp hb
  have hreachable' : ∀ b ∈ core.solution.reachable, core.func.Reachable ⟨b, 0⟩ := by
    intro b hb
    rw [h.reachable] at hb
    exact h.agrees.reachable_iff.mpr (hreachable b hb)
  rw [violationsWith, violationsWith, conflictsOf_eq hf hreachable,
    conflictsOf_eq hcore hreachable', ok_bind, ok_bind, groupConflicts_eq h]
  refine congrArg Except.ok ?_
  rw [← keepFirst_map h.increasing.use.injective, List.map_append]
  congr 2
  simp only [h.reachable, List.map_flatMap]
  refine List.flatMap_congr fun b hb => ?_
  rw [h.agrees.pointsOf_eq hb]
  refine List.flatMap_congr fun p hp => ?_
  obtain rfl := Func.block_eq_of_mem_pointsOf hp
  rw [loansWith_countsAt_eq h hb, List.flatMap_map]
  exact List.flatMap_congr fun loan _ => excludedAt_eq h hb loan

end Tenure.Exclusivity

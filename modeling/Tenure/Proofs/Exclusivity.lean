import Tenure.Exclusivity
import Tenure.Proofs.Facts

/-!
# What the exclusivity check reports

For a valid function the check always has a result, and it reports a reachable use exactly if an
earlier operand of its call excludes it, or if a loan does that has come to it along a path on which
its holder is not defined and of which some alias is live (`isReported_iff`).
-/

namespace Tenure

/-! ## Findings by use -/

theorem exists_mem_keepFirst {α : Type} {met : List UseId} {found : List (UseId × α)} {use : UseId}
    (hmet : use ∉ met) {finding : α} (h : (use, finding) ∈ found) :
    ∃ kept, (use, kept) ∈ found ∧ kept ∈ keepFirst met found := by
  induction found generalizing met with
  | nil => simp at h
  | cons entry rest ih =>
    obtain ⟨use', first⟩ := entry
    rw [keepFirst]
    by_cases heq : use' = use
    · subst heq
      rw [if_neg (by simpa using hmet)]
      exact ⟨first, by simp, by simp⟩
    · have hrest : (use, finding) ∈ rest := by
        rcases List.mem_cons.mp h with h | h
        · exact absurd (congrArg Prod.fst h).symm heq
        · exact h
      split
      next =>
        obtain ⟨kept, hkept, hmem⟩ := ih hmet hrest
        exact ⟨kept, by simp [hkept], hmem⟩
      next =>
        have hmet' : use ∉ use' :: met := by simp [Ne.symm heq, hmet]
        obtain ⟨kept, hkept, hmem⟩ := ih hmet' hrest
        exact ⟨kept, by simp [hkept], by simp [hmem]⟩

theorem mem_of_mem_keepFirst {α : Type} {met : List UseId} {found : List (UseId × α)} {kept : α}
    (h : kept ∈ keepFirst met found) : ∃ use, (use, kept) ∈ found := by
  induction found generalizing met with
  | nil => simp [keepFirst] at h
  | cons entry rest ih =>
    obtain ⟨use', first⟩ := entry
    rw [keepFirst] at h
    split at h
    next =>
      obtain ⟨use, hmem⟩ := ih h
      exact ⟨use, by simp [hmem]⟩
    next =>
      rcases List.mem_cons.mp h with rfl | h
      · exact ⟨use', by simp⟩
      · obtain ⟨use, hmem⟩ := ih h
        exact ⟨use, by simp [hmem]⟩

/-- The use that a report of an excluded use is about. -/
def Violation.excludedUse? : Violation → Option UseId
  | .conflictingBorrow _ use _ _ _ _ => some use
  | _ => none

namespace Exclusivity

open Relation

variable {env : Environment} {f : Func} {facts : Facts} {u : SolvedUse} {p : Point}

/-- Some report of an excluded use is about `u`. -/
def IsReported (u : SolvedUse) (vs : List Violation) : Prop :=
  ∃ v ∈ vs, v.excludedUse? = some u.id

/-! ## Operands of one call -/

theorem mem_groupConflicts {s : Solution} {use : UseId} {v : Violation}
    (h : (use, v) ∈ groupConflicts s) :
    ∃ later ∈ s.liveUses, ∃ first ∈ s.liveUses, clash first later = true ∧ use = later.id ∧
      v = conflict later first.span first.resolved := by
  rw [groupConflicts, List.mem_filterMap] at h
  obtain ⟨later, hlater, h⟩ := h
  obtain ⟨first, hfirst, heq⟩ := Option.map_eq_some_iff.mp h
  obtain ⟨rfl, rfl⟩ := Prod.mk.inj heq
  have hclash := List.find?_some hfirst
  exact ⟨later, hlater, first, List.mem_of_find?_eq_some hfirst, hclash, rfl, rfl⟩

theorem exists_groupConflict {s : Solution} {first later : SolvedUse} (hfirst : first ∈ s.liveUses)
    (hlater : later ∈ s.liveUses) (hclash : clash first later = true) :
    ∃ v, (later.id, v) ∈ groupConflicts s := by
  have hfound : (s.liveUses.find? fun first => clash first later).isSome = true :=
    List.find?_isSome.mpr ⟨first, hfirst, hclash⟩
  obtain ⟨found, hfound⟩ := Option.isSome_iff_exists.mp hfound
  refine ⟨conflict later found.span found.resolved, List.mem_filterMap.mpr ⟨later, hlater, ?_⟩⟩
  rw [hfound]
  rfl

/-! ## Aliases -/

section Aliases

variable {uses : List SolvedUse} {a b holder : BindingId}

theorem mem_ownTargets :
    b ∈ ownTargets uses a ↔ ∃ u ∈ uses, u.binding = a ∧ u.flow = some (b, .own) := by
  rw [ownTargets, List.mem_filterMap]
  refine exists_congr fun u => and_congr_right fun _ => ?_
  constructor
  · intro h
    split at h
    next target hflow =>
      split at h
      next hbinding => exact ⟨hbinding, by rw [hflow, Option.some.inj h]⟩
      next => simp at h
    next => simp at h
  · rintro ⟨rfl, hflow⟩
    simp [hflow]

/-- The aliases of a holder are the bindings that its value may be moved on to. -/
theorem mem_ownAliases :
    b ∈ ownAliases uses holder ↔ ReflTransGen (Graph.Edge (ownTargets uses)) holder b := by
  -- at most one new alias for each use, so the search is deep enough
  let targets := uses.filterMap fun u => u.flow.map Prod.fst
  let nodes : Finset Nat := insert holder targets.toFinset
  have hclosed : ∀ v ∈ nodes, ∀ w ∈ ownTargets uses v, w ∈ nodes := by
    intro v _ w hw
    obtain ⟨u, hu, -, hflow⟩ := mem_ownTargets.mp hw
    refine Finset.mem_insert_of_mem (List.mem_toFinset.mpr (List.mem_filterMap.mpr ⟨u, hu, ?_⟩))
    rw [hflow]
    rfl
  have hcard : nodes.card ≤ uses.length + 1 := by
    refine (Finset.card_insert_le _ _).trans (Nat.succ_le_succ ?_)
    exact (List.toFinset_card_le _).trans (List.length_filterMap_le _ _)
  have hroots : ∀ v ∈ [holder], Graph.Bounded (ownTargets uses) (uses.length + 1) v := by
    intro v hv
    exact ⟨nodes, by simp [nodes, List.mem_singleton.mp hv], hcard, hclosed⟩
  rw [ownAliases, Graph.mem_reach_iff hroots]
  simp

end Aliases

/-! ## Loans -/

/-- The loan that a use takes for a holder, by making a reference or by capturing. -/
def referenceLoan (uses : List SolvedUse) (v : SolvedUse) (holder : BindingId) (isMutable : Bool) :
    Loan where
  use := v.id
  span := v.span
  borrowed := v.binding
  isMutable := isMutable
  holder := holder
  aliases := ownAliases uses holder
  point := v.point

/-! ## Loans on their way -/

section Reaching

variable {usage : Usage} {taken : List Loan} {loan : Loan} {i : Nat}

theorem reaching_shaped (usage : Usage) (taken : List Loan) :
    (reaching usage taken).Shaped fun s => s.length = taken.length where
  start := List.length_replicate
  join {s t} hs ht := by simp [reaching, hs, ht]
  step {p s} hs := by simp [reaching, hs]

/-- That a loan has come to a point is a fact that the point of the loan makes and every point keeps
that does not define its holder. -/
theorem reaching_tracks (hi : taken[i]? = some loan) :
    (reaching usage taken).Tracks (fun s => s.length = taken.length)
      (fun s => s.getD i false = true) (fun p => loan.point = p)
      (fun p => usage.definitionAt p ≠ some loan.holder) where
  start := by
    rw [reaching, Table.getD_replicate]
    exact Bool.false_ne_true
  join {s t} hs ht := by
    simp only [reaching]
    rw [Table.getD_zipWith (hs.trans ht.symm) rfl, Bool.or_eq_true]
  step {p s} hs := by
    have hlt : i < s.length := hs ▸ (List.getElem?_eq_some_iff.mp hi).1
    have hget : (taken.zip s)[i]? = some (loan, s.getD i false) := by
      rw [List.getElem?_zip_eq_some, List.getD_eq_getElem s false hlt]
      exact ⟨hi, List.getElem?_eq_getElem hlt⟩
    simp only [reaching]
    rw [List.getD_eq_getElem?_getD, List.getElem?_map, hget]
    simp [and_comm]

theorem reaching_exits_isOk (order : List BlockId) :
    ∃ exits, (reaching usage taken).exits f order (Nat.pow 2 taken.length) = .ok exits := by
  have hloan : ∀ i ∈ Finset.range taken.length, ∃ loan, taken[i]? = some loan := fun i hi =>
    ⟨_, List.getElem?_eq_getElem (Finset.mem_range.mp hi)⟩
  choose! loan hloan using hloan
  refine Forward.exits_isOk (Finset.range taken.length) (fun i s => s.getD i false = true)
    (reaching_shaped usage taken) (fun i hi => reaching_tracks (hloan i hi)) ?_ ?_
  · intro s t hs ht hiff
    refine Table.ext_getD (hs.trans ht.symm) false fun i hi => ?_
    exact Bool.eq_iff_iff.mpr (hiff i (Finset.mem_range.mpr (hs ▸ hi)))
  · rw [Finset.card_range]
    calc f.blocks.length * taken.length ≤ 2 ^ (taken.length * f.blocks.length) := by
          rw [Nat.mul_comm]
          exact Nat.le_of_lt Nat.lt_two_pow_self
      _ = (Nat.pow 2 taken.length) ^ f.blocks.length := Nat.pow_mul _ _ _

end Reaching

/-- A loan excludes a use of what it borrows: it was taken by another use, it has come to the point
of the use along a path on which its holder is not defined, and some alias of the holder is live. -/
structure LoanExcludes (facts : Facts) (loan : Loan) (u : SolvedUse) : Prop where
  taken : loan ∈ loans facts.solution
  borrowed : u.binding = loan.borrowed
  other : u.id ≠ loan.use
  reaches : facts.func.Reaches (fun p => loan.point = p)
    (fun p => facts.usage.definitionAt p ≠ some loan.holder) u.point
  live : (facts.liveness.liveIn u.point).containsAny loan.aliases = true
  overlap : overlaps loan.mode u.resolved = true

theorem mem_loanConflictsAt {taken : List Loan} {s : List Bool} {use : UseId} {v : Violation} :
    (use, v) ∈ loanConflictsAt facts taken p s ↔
      ∃ (i : Nat) (loan : Loan), taken[i]? = some loan ∧ s.getD i false = true ∧
        (facts.liveness.liveIn p).containsAny loan.aliases = true ∧
        ∃ u ∈ facts.solution.usesAt p, u.binding = loan.borrowed ∧ u.id ≠ loan.use ∧
          overlaps loan.mode u.resolved = true ∧ use = u.id ∧
          v = conflict u loan.span loan.mode := by
  have hzip : ∀ loan flag, (loan, flag) ∈ taken.zip s ↔
      ∃ i : Nat, taken[i]? = some loan ∧ s[i]? = some flag := by
    intro loan flag
    rw [List.mem_iff_getElem?]
    exact exists_congr fun i => List.getElem?_zip_eq_some
  have hflag : ∀ i : Nat, s[i]? = some true ↔ s.getD i false = true := by
    intro i
    rw [List.getD_eq_getElem?_getD]
    cases s[i]? <;> simp
  constructor
  · intro h
    obtain ⟨⟨loan, flag⟩, hactive, h⟩ := List.mem_flatMap.mp h
    obtain ⟨hmem, hlive⟩ := List.mem_filter.mp hactive
    obtain ⟨rfl, hlive⟩ := Bool.and_eq_true_iff.mp hlive
    obtain ⟨i, hloan, hi⟩ := (hzip _ _).mp hmem
    obtain ⟨u, hu, heq⟩ := List.mem_map.mp h
    obtain ⟨hat, hcond⟩ := List.mem_filter.mp hu
    obtain ⟨huse, hv⟩ := Prod.mk.inj heq
    simp only [Bool.and_eq_true, decide_eq_true_eq] at hcond
    exact ⟨i, loan, hloan, (hflag i).mp hi, hlive, u, hat, hcond.1.1, hcond.1.2, hcond.2, huse.symm,
      hv.symm⟩
  · rintro ⟨i, loan, hloan, hi, hlive, u, hat, hbinding, hother, hoverlap, rfl, rfl⟩
    refine List.mem_flatMap.mpr ⟨(loan, true), List.mem_filter.mpr ⟨?_, ?_⟩, ?_⟩
    · exact (hzip _ _).mpr ⟨i, hloan, (hflag i).mpr hi⟩
    · simpa using hlive
    · refine List.mem_map.mpr ⟨u, List.mem_filter.mpr ⟨hat, ?_⟩, rfl⟩
      simp [hbinding, hother, hoverlap]

/-- The loan conflicts of a valid function: every reachable use that a loan excludes. -/
theorem loanConflicts_spec (hf : f.Valid) (h : facts.Of env f) :
    ∃ held, loanConflicts facts = .ok held ∧ ∀ use v, (use, v) ∈ held ↔
      ∃ u ∈ facts.solution.uses, f.Reachable u.point ∧ use = u.id ∧
        ∃ loan, LoanExcludes facts loan u ∧ v = conflict u loan.span loan.mode := by
  obtain ⟨order, horder, ht⟩ := Func.reversePostorder_spec hf
  obtain rfl := h.func
  obtain ⟨-, hreachable⟩ := h.solved.reachable_spec horder ht
  let analysis := reaching facts.usage (loans facts.solution)
  obtain ⟨exits, hexits⟩ : ∃ exits, analysis.exits facts.func order
      (Nat.pow 2 (loans facts.solution).length) = .ok exits := reaching_exits_isOk order
  have hset := Forward.settled_of_exits hexits
  -- each loan is followed by one flag of the settled states
  have hflag : ∀ (i : Nat) (loan : Loan), (loans facts.solution)[i]? = some loan →
      ∀ q, facts.func.Reachable q →
        ((analysis.before facts.func exits q).getD i false = true ↔
          facts.func.Reaches (fun p => loan.point = p)
            (fun p => facts.usage.definitionAt p ≠ some loan.holder) q) := by
    intro i loan hi q hq
    exact (reaching_tracks hi).before_iff (reaching_shaped _ _) hf ht hset hq
  refine ⟨facts.solution.reachable.flatMap fun b => (facts.func.pointsOf b).flatMap fun p =>
    loanConflictsAt facts (loans facts.solution) p (analysis.before facts.func exits p), ?_, ?_⟩
  · rw [loanConflicts, horder]
    simp only [bind_eq_ok, pure_eq_ok, Forward.trace_eq, List.flatMap_map]
    exact ⟨order, rfl, exits, hexits, rfl⟩
  · intro use v
    simp only [List.mem_flatMap, mem_loanConflictsAt]
    constructor
    · rintro ⟨b, hb, p, hp, i, loan, hi, hreaches, hlive, u, hu, hbinding, hother, hoverlap, rfl,
        rfl⟩
      obtain ⟨hmem, rfl⟩ := Solution.mem_usesAt.mp hu
      obtain rfl := Func.block_eq_of_mem_pointsOf hp
      have hq := ht.reachable_iff.mpr ⟨(hreachable _).mp hb, hp⟩
      rw [hflag i loan hi _ hq] at hreaches
      exact ⟨u, hmem, hq, rfl, loan,
        ⟨List.mem_of_getElem? hi, hbinding, hother, hreaches, hlive, hoverlap⟩, rfl⟩
    · rintro ⟨u, hmem, hq, rfl, loan, hloan, rfl⟩
      obtain ⟨hb, hp⟩ := ht.reachable_iff.mp hq
      obtain ⟨i, hi⟩ := List.mem_iff_getElem?.mp hloan.taken
      refine ⟨_, (hreachable _).mpr hb, _, hp, i, loan, hi, ?_, hloan.live, u, ?_, hloan.borrowed,
        hloan.other, hloan.overlap, rfl, rfl⟩
      · rw [hflag i loan hi _ hq]
        exact hloan.reaches
      · exact Solution.mem_usesAt.mpr ⟨hmem, rfl⟩

/-- For a valid function the check has a result, and it reports a reachable use exactly if an earlier
operand of its call or a loan excludes it. -/
theorem isReported_iff (hf : f.Valid) (h : facts.Of env f) :
    ∃ vs, violations facts = .ok vs ∧ ∀ u ∈ facts.solution.uses, f.Reachable u.point →
      (IsReported u vs ↔ (∃ first ∈ facts.solution.liveUses, clash first u = true) ∨
        ∃ loan, LoanExcludes facts loan u) := by
  obtain ⟨held, hheld, hiff⟩ := loanConflicts_spec hf h
  refine ⟨keepFirst [] (groupConflicts facts.solution ++ held), ?_, fun u hu hreach => ?_⟩
  · rw [violations, hheld]
    rfl
  · have hsame : ∀ w ∈ facts.solution.uses, w.id = u.id → w = u := fun w hw hid =>
      h.solved.eq_of_id_eq hw hu hid
    constructor
    · rintro ⟨v, hv, huse⟩
      obtain ⟨use, hfound⟩ := mem_of_mem_keepFirst hv
      rcases List.mem_append.mp hfound with hfound | hfound
      · obtain ⟨later, hlater, first, hfirst, hclash, rfl, rfl⟩ := mem_groupConflicts hfound
        obtain rfl := hsame later ((h.solved.mem_liveUses hf).mp hlater).1 (Option.some.inj huse)
        exact Or.inl ⟨first, hfirst, hclash⟩
      · obtain ⟨w, hw, -, rfl, loan, hloan, rfl⟩ := (hiff _ _).mp hfound
        obtain rfl := hsame w hw (Option.some.inj huse)
        exact Or.inr ⟨loan, hloan⟩
    · intro hexcluded
      have hfound : ∃ v, (u.id, v) ∈ groupConflicts facts.solution ++ held := by
        rcases hexcluded with ⟨first, hfirst, hclash⟩ | ⟨loan, hloan⟩
        · obtain ⟨v, hv⟩ := exists_groupConflict hfirst ((h.solved.mem_liveUses hf).mpr ⟨hu, hreach⟩)
            hclash
          exact ⟨v, List.mem_append_left _ hv⟩
        · exact ⟨_, List.mem_append_right _ ((hiff _ _).mpr ⟨u, hu, hreach, rfl, loan, hloan, rfl⟩)⟩
      obtain ⟨v, hv⟩ := hfound
      -- only the first finding about a use is kept, which need not be this one
      obtain ⟨kept, hkept, hmem⟩ := exists_mem_keepFirst List.not_mem_nil hv
      refine ⟨kept, hmem, ?_⟩
      rcases List.mem_append.mp hkept with hkept | hkept
      · obtain ⟨later, -, first, -, -, hid, rfl⟩ := mem_groupConflicts hkept
        rw [hid]
        rfl
      · obtain ⟨w, -, -, hid, loan, -, rfl⟩ := (hiff _ _).mp hkept
        rw [hid]
        rfl

end Exclusivity

end Tenure

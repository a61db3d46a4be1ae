import Tenure.Proofs.Analysis.Run

/-!
# Recursive units in another order

The members of a recursive unit may stand in any order, and in another program, as long as the
foreign functions are the same and the same signatures are known outside of the unit. Round by round
the assumptions then match (`SameUnit.round`, `SameUnit.cycle`), so the members are solved alike: only
the names in the report on an unstable signature stand in another order. Whatever is solved alike is
finished alike (`SolvedFunc.Alike.finish`).
-/

namespace Tenure

/-! ## Up to the order of a cycle -/

/-- The same violation, up to the order of the names of a recursive unit. -/
inductive Violation.Alike : Violation → Violation → Prop
  | refl (v : Violation) : Alike v v
  | unstable {function : String} {cycle cycle' : List String} {iterations : Nat} {span : Span} :
      cycle.Perm cycle' → Alike (.unstableSignature function cycle iterations span)
        (.unstableSignature function cycle' iterations span)

/-- The functions are solved with the same modes, and the same was found. -/
structure SolvedFunc.Alike (m m' : SolvedFunc) : Prop where
  func : m.func = m'.func
  solution : m.solution = m'.solution
  found : List.Forall₂ Violation.Alike m.found m'.found

/-- The same is said about a function. -/
structure FuncAnalysis.Alike (r r' : FuncAnalysis) : Prop where
  function : r.function = r'.function
  name : r.name = r'.name
  usage : r.usage = r'.usage
  solution : r.solution = r'.solution
  plan : r.plan = r'.plan
  violations : List.Forall₂ Violation.Alike r.violations r'.violations
  hints : r.hints = r'.hints

theorem Violation.Alike.primarySpan_eq {v v' : Violation} (h : v.Alike v') :
    v.primarySpan = v'.primarySpan := by
  cases h with
  | refl => rfl
  | unstable => rfl

/-- Sorting keeps violations that are alike at the same positions. -/
theorem Violation.sortByStart_alike {vs vs' : List Violation}
    (h : List.Forall₂ Violation.Alike vs vs') :
    List.Forall₂ Violation.Alike (sortByStart vs) (sortByStart vs') := by
  -- both lists are sorted as the list of pairs is
  obtain ⟨hlength, halike⟩ := List.forall₂_iff_zip.mp h
  have hfst : (vs.zip vs').map Prod.fst = vs := List.map_fst_zip (Nat.le_of_eq hlength)
  have hsnd : (vs.zip vs').map Prod.snd = vs' := List.map_snd_zip (Nat.le_of_eq hlength.symm)
  have hpair : ∀ x ∈ vs.zip vs', x.1.Alike x.2 := fun x hx => halike hx
  generalize vs.zip vs' = pairs at hfst hsnd hpair
  subst hfst hsnd
  have hmap : sortByStart (pairs.map Prod.fst) = (pairs.mergeSort fun x y =>
      x.1.primarySpan.start ≤ y.1.primarySpan.start).map Prod.fst := by
    refine (List.map_mergeSort (f := Prod.fst) fun x _ y _ => ?_).symm
    rfl
  have hmap' : sortByStart (pairs.map Prod.snd) = (pairs.mergeSort fun x y =>
      x.1.primarySpan.start ≤ y.1.primarySpan.start).map Prod.snd := by
    refine (List.map_mergeSort fun x hx y hy => ?_).symm
    rw [(hpair x hx).primarySpan_eq, (hpair y hy).primarySpan_eq]
  rw [hmap, hmap', List.forall₂_map_left_iff, List.forall₂_map_right_iff, List.forall₂_same]
  intro x hx
  exact hpair x (List.mem_mergeSort.mp hx)

theorem SolvedFunc.Alike.finish {m m' : SolvedFunc} (h : m.Alike m') {config : Config}
    {r : FuncAnalysis} (hr : m.finish config = .ok r) :
    ∃ r', m'.finish config = .ok r' ∧ r.Alike r' := by
  obtain ⟨f, solution, found⟩ := m
  obtain ⟨f', solution', found'⟩ := m'
  obtain rfl : f = f' := h.func
  obtain rfl : solution = solution' := h.solution
  simp only [SolvedFunc.finish, bind_eq_ok, pure_eq_ok] at hr ⊢
  obtain ⟨liveness, hliveness, linear, hlinear, exclusive, hexclusive, plan, hplan, hints, hhints,
    rfl⟩ := hr
  refine ⟨_, ⟨liveness, hliveness, linear, hlinear, exclusive, hexclusive, plan, hplan, hints,
    hhints, rfl⟩, rfl, rfl, rfl, rfl, rfl, Violation.sortByStart_alike ?_, rfl⟩
  have hsame : ∀ vs : List Violation, List.Forall₂ Violation.Alike vs vs :=
    fun vs => List.forall₂_same.mpr fun v _ => .refl v
  simp only [List.append_assoc]
  exact List.rel_append h.found (hsame _)

/-! ## Rounds that match -/

namespace SignatureMap

/-- A map is known by its signatures. -/
theorem Covers.ext {members : List Func} {a b : SignatureMap}
    (hnodup : (members.map Func.id).Nodup) (ha : a.Covers members) (hb : b.Covers members)
    (hget : ∀ c, a.get? c = b.get? c) : a = b := by
  apply List.ext_getElem?
  intro i
  cases hf : members[i]? with
  | none =>
    have hlength := congrArg List.length ha
    have hlength' := congrArg List.length hb
    rw [List.length_map, List.length_map] at hlength hlength'
    have hi := List.getElem?_eq_none_iff.mp hf
    rw [List.getElem?_eq_none (hlength ▸ hi), List.getElem?_eq_none (hlength' ▸ hi)]
  | some f =>
    obtain ⟨sig, hsig⟩ := ha.getElem? hf
    obtain ⟨sig', hsig'⟩ := hb.getElem? hf
    have heq := hget f.id
    rw [ha.get?_of_getElem? hnodup hsig, hb.get?_of_getElem? hnodup hsig'] at heq
    rw [hsig, hsig', Option.some.inj heq]

/-- The maps have the same signatures, each in the order of its members. -/
structure Matches (assumed assumed' : SignatureMap) (members members' : List Func) : Prop where
  covers : assumed.Covers members
  covers' : assumed'.Covers members'
  get? : ∀ c, assumed.get? c = assumed'.get? c

end SignatureMap

theorem mem_zip_of_mapM {α β ε : Type} {g : α → Except ε β} {l : List α} {r : List β}
    (h : l.mapM g = .ok r) {a : α} {b : β} : (a, b) ∈ l.zip r ↔ a ∈ l ∧ g a = .ok b := by
  have hforall := mapM_eq_ok.mp h
  clear h
  induction hforall with
  | nil => simp
  | cons hhead _ ih =>
    simp only [List.zip_cons_cons, List.mem_cons, Prod.mk.injEq, ih]
    constructor
    · rintro (⟨rfl, rfl⟩ | ⟨hmem, hb⟩)
      · exact ⟨.inl rfl, hhead⟩
      · exact ⟨.inr hmem, hb⟩
    · rintro ⟨rfl | hmem, hb⟩
      · exact .inl ⟨rfl, Except.ok.inj (hb.symm.trans hhead)⟩
      · exact .inr ⟨hmem, hb⟩

/-- A unit in two programs: the members are the same functions, the foreign functions are the same,
and so are the known signatures that the members read. -/
structure SameUnit (p q : Program) (known known' : FuncId → Option Signature)
    (members members' : List Func) : Prop where
  foreign : ∀ name, p.foreign? name = q.foreign? name
  perm : members.Perm members'
  nodup : (members.map Func.id).Nodup
  known : ∀ f ∈ members, ∀ c ∈ f.usage.calledFunctions, c ∉ members.map Func.id →
    known c = known' c

namespace SameUnit

variable {p q : Program} {config : Config} {known known' : FuncId → Option Signature}
  {members members' : List Func} {assumed assumed' raised raised' : SignatureMap}
  {solutions solutions' : List Solution} (h : SameUnit p q known known' members members')
include h

theorem nodup' : (members'.map Func.id).Nodup := (h.perm.map Func.id).nodup_iff.mp h.nodup

theorem solve_eq (hm : assumed.Matches assumed' members members') {f : Func} (hf : f ∈ members) :
    (assumingEnvironment p config known assumed).solve f f.usage =
      (assumingEnvironment q config known' assumed').solve f f.usage := by
  have hsame : Environment.SameSettings (assumingEnvironment p config known assumed)
      (assumingEnvironment q config known' assumed') := ⟨h.foreign, rfl, rfl⟩
  refine hsame.solve_eq fun c hc => ?_
  show (assumed.get? c).or (known c) = (assumed'.get? c).or (known' c)
  rw [← hm.get? c]
  cases hget : assumed.get? c with
  | some sig => rfl
  | none => exact h.known f hf c hc (hm.covers.notMem_of_get?_eq_none hget)

/-- A round keeps assumptions that match, and gives every member the same solution. -/
theorem round (hm : assumed.Matches assumed' members members')
    (hround : solveRound p config known members assumed = .ok (solutions, raised))
    (hround' : solveRound q config known' members' assumed' = .ok (solutions', raised')) :
    raised.Matches raised' members members' ∧ (raised = assumed ↔ raised' = assumed') ∧
      ∀ f s, (f, s) ∈ members.zip solutions ↔ (f, s) ∈ members'.zip solutions' := by
  have hraises : Raises p config known members assumed raised := ⟨_, hround⟩
  have hraises' : Raises q config known' members' assumed' raised' := ⟨_, hround'⟩
  have hmatches : raised.Matches raised' members members' := by
    refine ⟨hraises.covers hm.covers, hraises'.covers hm.covers', fun c => ?_⟩
    by_cases hc : c ∈ members.map Func.id
    · obtain ⟨f, hf, rfl⟩ := List.mem_map.mp hc
      obtain ⟨sig, s, hsig, hs, hraised⟩ := hraises.get? hm.covers h.nodup hf
      obtain ⟨sig', s', hsig', hs', hraised'⟩ :=
        hraises'.get? hm.covers' h.nodup' (h.perm.mem_iff.mp hf)
      rw [h.solve_eq hm hf, hs'] at hs
      rw [hm.get?, hsig'] at hsig
      rw [hraised, hraised', Option.some.inj hsig, Except.ok.inj hs]
    · have hc' : c ∉ members'.map Func.id := fun hmem =>
        hc ((h.perm.map Func.id).mem_iff.mpr hmem)
      rw [(hraises.covers hm.covers).get?_eq_none hc, (hraises'.covers hm.covers').get?_eq_none hc']
  refine ⟨hmatches, ⟨fun heq => ?_, fun heq => ?_⟩, fun f s => ?_⟩
  · refine SignatureMap.Covers.ext h.nodup' hmatches.covers' hm.covers' fun c => ?_
    rw [← hmatches.get?, ← hm.get?, heq]
  · refine SignatureMap.Covers.ext h.nodup hmatches.covers hm.covers fun c => ?_
    rw [hmatches.get?, hm.get?, heq]
  · rw [mem_zip_of_mapM (solveRound_eq_ok.mp hround).1,
      mem_zip_of_mapM (solveRound_eq_ok.mp hround').1, ← h.perm.mem_iff]
    exact and_congr_right fun hf => by rw [h.solve_eq hm hf]

theorem cycle {more : Nat} {outcome outcome' : CycleOutcome}
    (hm : assumed.Matches assumed' members members')
    (hcycle : solveCycle p config known members more assumed = .ok outcome)
    (hcycle' : solveCycle q config known' members' more assumed' = .ok outcome') :
    outcome.assumed.Matches outcome'.assumed members members' ∧
      outcome.converged = outcome'.converged ∧
      ∀ f s, (f, s) ∈ members.zip outcome.solutions ↔
        (f, s) ∈ members'.zip outcome'.solutions := by
  induction more generalizing assumed assumed' with
  | zero =>
    rw [solveCycle, bind_eq_ok] at hcycle hcycle'
    obtain ⟨⟨solutions, raised⟩, hround, hcycle⟩ := hcycle
    obtain ⟨⟨solutions', raised'⟩, hround', hcycle'⟩ := hcycle'
    obtain ⟨hmatches, hstable, hzip⟩ := h.round hm hround hround'
    obtain rfl := pure_eq_ok.mp hcycle
    obtain rfl := pure_eq_ok.mp hcycle'
    by_cases heq : raised = assumed
    · rw [if_pos heq, if_pos (hstable.mp heq)]
      exact ⟨hm, rfl, hzip⟩
    · rw [if_neg heq, if_neg fun heq' => heq (hstable.mpr heq')]
      exact ⟨hmatches, rfl, hzip⟩
  | succ more ih =>
    rw [solveCycle, bind_eq_ok] at hcycle hcycle'
    obtain ⟨⟨solutions, raised⟩, hround, hcycle⟩ := hcycle
    obtain ⟨⟨solutions', raised'⟩, hround', hcycle'⟩ := hcycle'
    obtain ⟨hmatches, hstable, hzip⟩ := h.round hm hround hround'
    dsimp only at hcycle hcycle'
    by_cases heq : raised = assumed
    · rw [if_pos heq] at hcycle
      rw [if_pos (hstable.mp heq)] at hcycle'
      obtain rfl := pure_eq_ok.mp hcycle
      obtain rfl := pure_eq_ok.mp hcycle'
      exact ⟨hm, rfl, hzip⟩
    · rw [if_neg heq] at hcycle
      rw [if_neg fun heq' => heq (hstable.mpr heq')] at hcycle'
      exact ih hmatches hcycle hcycle'

/-! ## Solved alike -/

theorem initial {start start' : SignatureMap} (hstart : initialSignatures members = .ok start)
    (hstart' : initialSignatures members' = .ok start') :
    start.Matches start' members members' := by
  have hcovers := initialSignatures_covers hstart
  have hcovers' := initialSignatures_covers hstart'
  refine ⟨hcovers, hcovers', fun c => ?_⟩
  by_cases hc : c ∈ members.map Func.id
  · obtain ⟨f, hf, rfl⟩ := List.mem_map.mp hc
    obtain ⟨sig, hsig, hinitial⟩ := initialSignatures_get? hstart h.nodup hf
    obtain ⟨sig', hsig', hinitial'⟩ :=
      initialSignatures_get? hstart' h.nodup' (h.perm.mem_iff.mp hf)
    rw [hsig, hsig', Except.ok.inj (hinitial.symm.trans hinitial')]
  · have hc' : c ∉ members'.map Func.id := fun hmem => hc ((h.perm.map Func.id).mem_iff.mpr hmem)
    rw [hcovers.get?_eq_none hc, hcovers'.get?_eq_none hc']

/-- Each member is solved alike in both units. -/
theorem alike {solved solved' : List SolvedFunc}
    (hsolved : solveTogether p config known members = .ok solved)
    (hsolved' : solveTogether q config known' members' = .ok solved') {m : SolvedFunc}
    (hm : m ∈ solved) : ∃ m' ∈ solved', m.Alike m' := by
  simp only [solveTogether, bind_eq_ok, pure_eq_ok] at hsolved hsolved'
  obtain ⟨start, hstart, outcome, hcycle, rfl⟩ := hsolved
  obtain ⟨start', hstart', outcome', hcycle', rfl⟩ := hsolved'
  obtain ⟨hmatches, hconverged, hzip⟩ := h.cycle (h.initial hstart hstart') hcycle hcycle'
  obtain ⟨⟨f, entry, s⟩, hmem, rfl⟩ := List.mem_map.mp hm
  obtain ⟨i, hi⟩ := List.mem_iff_getElem?.mp hmem
  obtain ⟨hf, hpair⟩ := List.getElem?_zip_eq_some.mp hi
  obtain ⟨hentry, hs⟩ := List.getElem?_zip_eq_some.mp hpair
  -- the same function with the same solution stands at some position of the other unit
  have hfs : (f, s) ∈ members.zip outcome.solutions :=
    List.mem_of_getElem? (List.getElem?_zip_eq_some.mpr ⟨hf, hs⟩)
  obtain ⟨j, hj⟩ := List.mem_iff_getElem?.mp ((hzip f s).mp hfs)
  obtain ⟨hf', hs'⟩ := List.getElem?_zip_eq_some.mp hj
  obtain ⟨sig, hsig⟩ := hmatches.covers.getElem? hf
  obtain ⟨sig', hsig'⟩ := hmatches.covers'.getElem? hf'
  obtain rfl : entry = (f.id, sig) := Option.some.inj (hentry.symm.trans hsig)
  have hget := hmatches.get? f.id
  rw [hmatches.covers.get?_of_getElem? h.nodup hsig,
    hmatches.covers'.get?_of_getElem? h.nodup' hsig'] at hget
  obtain rfl := Option.some.inj hget
  refine ⟨_, List.mem_map.mpr ⟨(f, (f.id, sig), s), List.mem_of_getElem? (i := j) ?_, rfl⟩, rfl,
    ?_, ?_⟩
  · exact List.getElem?_zip_eq_some.mpr ⟨hf', List.getElem?_zip_eq_some.mpr ⟨hsig', hs'⟩⟩
  · dsimp only
    rw [hconverged]
  · dsimp only
    rw [hconverged]
    split
    · exact .nil
    · exact .cons (.unstable (h.perm.map Func.name)) .nil

end SameUnit

end Tenure

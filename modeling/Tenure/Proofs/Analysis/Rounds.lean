import Mathlib.Logic.Relation
import Tenure.Proofs.Signature
import Tenure.Proofs.Solution.Reads

/-!
# Rounds of a recursive unit

One round solves every member under the assumed signatures and raises the assumptions (`Raises`).
Solving a recursive unit is a chain of rounds from the first assumptions, and all that is known of
its result is what the last round did (`CycleRun`). A unit of valid functions is always solved, and
the signatures that are read besides the assumed ones are those of callees outside the unit.
-/

namespace Tenure

open Relation

/-! ## Maps of signatures -/

namespace SignatureMap

variable {signatures : SignatureMap} {members : List Func} {f : Func} {c : FuncId}
  {sig : Signature} {i : Nat}

theorem get?_eq_some_iff (hnodup : (signatures.map Prod.fst).Nodup) :
    signatures.get? c = some sig ↔ (c, sig) ∈ signatures := by
  simp only [get?, Option.map_eq_some_iff, Table.find?_key_iff hnodup]
  constructor
  · rintro ⟨_, ⟨hmem, rfl⟩, rfl⟩
    exact hmem
  · intro hmem
    exact ⟨_, ⟨hmem, rfl⟩, rfl⟩

theorem get?_eq_none_iff : signatures.get? c = none ↔ c ∉ signatures.map Prod.fst := by
  rw [get?, Option.map_eq_none_iff, Table.find?_key_eq_none_iff]

/-- The map has one entry for each member, in order. -/
def Covers (signatures : SignatureMap) (members : List Func) : Prop :=
  signatures.map Prod.fst = members.map Func.id

namespace Covers

variable (h : signatures.Covers members)
include h

theorem getElem? (hi : members[i]? = some f) : ∃ sig, signatures[i]? = some (f.id, sig) := by
  have hkey : (signatures.map Prod.fst)[i]? = some f.id := by
    rw [h, List.getElem?_map, hi]
    rfl
  rw [List.getElem?_map, Option.map_eq_some_iff] at hkey
  obtain ⟨⟨d, sig⟩, hentry, rfl⟩ := hkey
  exact ⟨sig, hentry⟩

theorem get?_of_getElem? (hnodup : (members.map Func.id).Nodup)
    (hi : signatures[i]? = some (c, sig)) : signatures.get? c = some sig :=
  (get?_eq_some_iff (h ▸ hnodup)).mpr (List.mem_of_getElem? hi)

theorem notMem_of_get?_eq_none (hnone : signatures.get? c = none) : c ∉ members.map Func.id :=
  h ▸ get?_eq_none_iff.mp hnone

theorem get?_eq_none (hc : c ∉ members.map Func.id) : signatures.get? c = none :=
  get?_eq_none_iff.mpr (h ▸ hc)

end Covers

/-- The signatures of the members are final and have one mode for each parameter. -/
def Fits (signatures : SignatureMap) (members : List Func) : Prop :=
  ∀ f ∈ members, ∀ sig, signatures.get? f.id = some sig →
    sig.resolved = true ∧ sig.params.length = f.params.length

end SignatureMap

/-! ## One round -/

section Rounds

variable {p : Program} {config : Config} {known known' : FuncId → Option Signature}
  {members : List Func} {start last assumed raised : SignatureMap} {solutions : List Solution}

theorem solveRound_eq_ok : solveRound p config known members assumed = .ok (solutions, raised) ↔
    (members.mapM fun f => (assumingEnvironment p config known assumed).solve f f.usage) =
        .ok solutions ∧
      List.zipWith (fun (entry : FuncId × Signature) (s : Solution) =>
        (entry.1, entry.2.raise s.signature)) assumed solutions = raised := by
  simp only [solveRound, bind_eq_ok, pure_eq_ok, Prod.mk.injEq]
  constructor
  · rintro ⟨_, hsolutions, rfl, hraised⟩
    exact ⟨hsolutions, hraised⟩
  · rintro ⟨hsolutions, hraised⟩
    exact ⟨solutions, hsolutions, rfl, hraised⟩

/-- What a round does for the member at a position. -/
theorem solveRound_getElem? (hcovers : assumed.Covers members)
    (h : solveRound p config known members assumed = .ok (solutions, raised)) {i : Nat} {f : Func}
    (hf : members[i]? = some f) : ∃ sig s, assumed[i]? = some (f.id, sig) ∧
      solutions[i]? = some s ∧
      (assumingEnvironment p config known assumed).solve f f.usage = .ok s ∧
      raised[i]? = some (f.id, sig.raise s.signature) := by
  obtain ⟨hsolutions, rfl⟩ := solveRound_eq_ok.mp h
  have hforall := mapM_eq_ok.mp hsolutions
  obtain ⟨hlt, rfl⟩ := List.getElem?_eq_some_iff.mp hf
  have hlt' : i < solutions.length := hforall.length_eq ▸ hlt
  have hsolve := (List.forall₂_iff_get.mp hforall).2 i hlt hlt'
  have hs := List.getElem?_eq_getElem hlt'
  obtain ⟨sig, hsig⟩ := hcovers.getElem? hf
  refine ⟨sig, _, hsig, hs, hsolve, ?_⟩
  rw [List.getElem?_zipWith, hsig, hs]

/-- One round leads from the one assumptions to the other. -/
def Raises (p : Program) (config : Config) (known : FuncId → Option Signature)
    (members : List Func) (assumed raised : SignatureMap) : Prop :=
  ∃ solutions, solveRound p config known members assumed = .ok (solutions, raised)

namespace Raises

variable (h : Raises p config known members assumed raised)
include h

theorem covers (hcovers : assumed.Covers members) : raised.Covers members := by
  obtain ⟨solutions, h⟩ := h
  obtain ⟨hsolutions, rfl⟩ := solveRound_eq_ok.mp h
  have hlength : assumed.length ≤ solutions.length := by
    have hkeys := congrArg List.length hcovers
    rw [List.length_map, List.length_map] at hkeys
    rw [hkeys, (mapM_eq_ok.mp hsolutions).length_eq]
  rw [SignatureMap.Covers, ← hcovers, List.map_zipWith]
  refine List.ext_getElem ?_ fun i _ _ => by simp
  rw [List.length_zipWith, List.length_map]
  omega

/-- A round raises what is assumed of a member to what it is solved with. -/
theorem get? (hcovers : assumed.Covers members) (hnodup : (members.map Func.id).Nodup) {f : Func}
    (hf : f ∈ members) : ∃ sig s, assumed.get? f.id = some sig ∧
      (assumingEnvironment p config known assumed).solve f f.usage = .ok s ∧
      raised.get? f.id = some (sig.raise s.signature) := by
  have hcovers' := h.covers hcovers
  obtain ⟨solutions, h⟩ := h
  obtain ⟨i, hi⟩ := List.mem_iff_getElem?.mp hf
  obtain ⟨sig, s, hsig, -, hsolve, hraised⟩ := solveRound_getElem? hcovers h hi
  exact ⟨sig, s, hcovers.get?_of_getElem? hnodup hsig, hsolve,
    hcovers'.get?_of_getElem? hnodup hraised⟩

theorem fits (hcovers : assumed.Covers members) (hnodup : (members.map Func.id).Nodup)
    (hfits : assumed.Fits members) : raised.Fits members := by
  intro f hf sig hsig
  obtain ⟨old, s, hold, hsolve, hraised⟩ := h.get? hcovers hnodup hf
  obtain rfl := Option.some.inj (hsig.symm.trans hraised)
  have hlength := (hfits f hf old hold).2
  refine ⟨rfl, ?_⟩
  rw [Signature.length_raise (hlength.trans (Environment.length_signature hsolve).symm), hlength]

end Raises

theorem covers_of_rounds (h : ReflTransGen (Raises p config known members) start last)
    (hcovers : start.Covers members) : last.Covers members := by
  induction h with
  | refl => exact hcovers
  | tail _ hraises ih => exact hraises.covers ih

theorem fits_of_rounds (h : ReflTransGen (Raises p config known members) start last)
    (hcovers : start.Covers members) (hnodup : (members.map Func.id).Nodup)
    (hfits : start.Fits members) : last.Fits members := by
  induction h with
  | refl => exact hfits
  | tail hrounds hraises ih => exact hraises.fits (covers_of_rounds hrounds hcovers) hnodup ih

/-! ## Chains of rounds -/

theorem solveCycle_spec {more : Nat} {outcome : CycleOutcome}
    (h : solveCycle p config known members more start = .ok outcome) :
    ∃ last, ReflTransGen (Raises p config known members) start last ∧
      solveRound p config known members last = .ok (outcome.solutions, outcome.assumed) ∧
      (outcome.converged = true ↔ outcome.assumed = last) := by
  induction more generalizing start with
  | zero =>
    rw [solveCycle, bind_eq_ok] at h
    obtain ⟨⟨solutions, raised⟩, hround, h⟩ := h
    refine ⟨start, .refl, ?_⟩
    obtain rfl := pure_eq_ok.mp h
    by_cases hstable : raised = start
    · rw [if_pos hstable]
      exact ⟨hstable ▸ hround, by simp⟩
    · rw [if_neg hstable]
      exact ⟨hround, by simp [hstable]⟩
  | succ more ih =>
    rw [solveCycle, bind_eq_ok] at h
    obtain ⟨⟨solutions, raised⟩, hround, h⟩ := h
    dsimp only at h
    by_cases hstable : raised = start
    · rw [if_pos hstable] at h
      obtain rfl := pure_eq_ok.mp h
      exact ⟨start, .refl, hstable ▸ hround, by simp⟩
    · rw [if_neg hstable] at h
      obtain ⟨last, hrounds, hlast⟩ := ih h
      exact ⟨last, .head ⟨solutions, hround⟩ hrounds, hlast⟩

theorem initialSignatures_covers (h : initialSignatures members = .ok start) :
    start.Covers members := by
  refine map_of_mapM_eq_ok h fun f _ entry hentry => ?_
  rw [bind_eq_ok] at hentry
  obtain ⟨sig, -, hentry⟩ := hentry
  rw [← pure_eq_ok.mp hentry]

theorem initialSignatures_get? (h : initialSignatures members = .ok start)
    (hnodup : (members.map Func.id).Nodup) {f : Func} (hf : f ∈ members) :
    ∃ sig, start.get? f.id = some sig ∧ f.initialSignature = .ok sig := by
  have hcovers := initialSignatures_covers h
  obtain ⟨i, hi⟩ := List.mem_iff_getElem?.mp hf
  obtain ⟨sig, hsig⟩ := hcovers.getElem? hi
  obtain ⟨hlt, rfl⟩ := List.getElem?_eq_some_iff.mp hi
  obtain ⟨hlt', hget⟩ := List.getElem?_eq_some_iff.mp hsig
  have hentry := (List.forall₂_iff_get.mp (mapM_eq_ok.mp h)).2 i hlt hlt'
  simp only [List.get_eq_getElem, hget, bind_eq_ok, pure_eq_ok, Prod.mk.injEq] at hentry
  obtain ⟨_, hinitial, -, rfl⟩ := hentry
  exact ⟨_, hcovers.get?_of_getElem? hnodup hsig, hinitial⟩

theorem initialSignatures_fits (h : initialSignatures members = .ok start)
    (hnodup : (members.map Func.id).Nodup) : start.Fits members := by
  intro f hf sig hsig
  obtain ⟨initial, hget, hinitial⟩ := initialSignatures_get? h hnodup hf
  obtain rfl := Option.some.inj (hsig.symm.trans hget)
  exact ⟨(Func.initialSignature_eq_ok hinitial).1, Func.length_initialSignature hinitial⟩

/-- How the members of a recursive unit were solved: rounds led from the first assumptions to
`last`, and one more round gave the solutions and raised the assumptions to `assumed`. -/
structure CycleRun (p : Program) (config : Config) (known : FuncId → Option Signature)
    (members : List Func) (start last assumed : SignatureMap) (converged : Bool)
    (solved : List SolvedFunc) : Prop where
  initial : initialSignatures members = .ok start
  rounds : ReflTransGen (Raises p config known members) start last
  raises : Raises p config known members last assumed
  converged_iff : converged = true ↔ assumed = last
  funcs : solved.map SolvedFunc.func = members
  solution : ∀ m ∈ solved, ∃ sig s, assumed.get? m.func.id = some sig ∧
    (assumingEnvironment p config known last).solve m.func m.func.usage = .ok s ∧
    m.solution = { s with signature := { sig with resolved := converged } }

theorem CycleRun.covers {converged : Bool} {solved : List SolvedFunc}
    (h : CycleRun p config known members start last assumed converged solved) :
    last.Covers members :=
  covers_of_rounds h.rounds (initialSignatures_covers h.initial)

theorem CycleRun.fits {converged : Bool} {solved : List SolvedFunc}
    (h : CycleRun p config known members start last assumed converged solved)
    (hnodup : (members.map Func.id).Nodup) : last.Fits members :=
  fits_of_rounds h.rounds (initialSignatures_covers h.initial) hnodup
    (initialSignatures_fits h.initial hnodup)

/-- A unit with stable signatures needs no more than they say. -/
theorem CycleRun.within {solved : List SolvedFunc}
    (h : CycleRun p config known members start last assumed true solved)
    (hnodup : (members.map Func.id).Nodup) {f : Func} (hf : f ∈ members) {sig : Signature}
    {s : Solution} (hsig : assumed.get? f.id = some sig)
    (hsolve : (assumingEnvironment p config known last).solve f f.usage = .ok s) :
    s.signature.Within sig := by
  obtain rfl : assumed = last := h.converged_iff.mp rfl
  obtain ⟨sig', s', hsig', hsolve', hraised⟩ := h.raises.get? h.covers hnodup hf
  obtain rfl := Option.some.inj (hsig.symm.trans hsig')
  obtain rfl := Except.ok.inj (hsolve.symm.trans hsolve')
  have hstable : sig.raise s.signature = sig := Option.some.inj (hraised.symm.trans hsig)
  have hlength : sig.params.length = s.signature.params.length :=
    (h.fits hnodup f hf sig hsig).2.trans (Environment.length_signature hsolve).symm
  exact hstable ▸ (Signature.within_raise hlength).2

/-- A unit has converged if the signatures of its members are final. -/
theorem CycleRun.converged_of_resolved {converged : Bool} {solved : List SolvedFunc}
    (h : CycleRun p config known members start last assumed converged solved)
    (hresolved : ∀ m ∈ solved, m.solution.signature.resolved = true) : converged = true := by
  cases solved with
  | nil =>
    have hnone : members = [] := h.funcs.symm
    have hlast := h.covers
    have hassumed := h.raises.covers hlast
    rw [SignatureMap.Covers, hnone, List.map_nil, List.map_eq_nil_iff] at hlast hassumed
    rw [h.converged_iff, hlast, hassumed]
  | cons m rest =>
    obtain ⟨sig, s, -, -, hsolution⟩ := h.solution m List.mem_cons_self
    have hfinal := hresolved m List.mem_cons_self
    rwa [hsolution] at hfinal

/-- The members of a unit with stable signatures were assumed to have the signatures they got. -/
theorem CycleRun.get?_last {solved : List SolvedFunc}
    (h : CycleRun p config known members start last assumed true solved)
    (hnodup : (members.map Func.id).Nodup) {m : SolvedFunc} (hm : m ∈ solved) :
    last.get? m.func.id = some m.solution.signature := by
  obtain rfl : assumed = last := h.converged_iff.mp rfl
  obtain ⟨sig, s, hsig, -, hsolution⟩ := h.solution m hm
  have hf : m.func ∈ members := h.funcs ▸ List.mem_map_of_mem hm
  rw [hsolution, hsig, ← (h.fits hnodup m.func hf sig hsig).1]

/-- How a unit is solved: the rounds have an outcome, and an unstable signature is reported for every
member unless they converged. -/
theorem solveTogether_eq_ok {solved : List SolvedFunc} (hnodup : (members.map Func.id).Nodup)
    (h : solveTogether p config known members = .ok solved) :
    ∃ start last outcome,
      solveCycle p config known members (max config.maxSignatureIterations 1 - 1) start =
        .ok outcome ∧
      CycleRun p config known members start last outcome.assumed outcome.converged solved ∧
      ∀ m ∈ solved, m.found = if outcome.converged then [] else
        [.unstableSignature m.func.name (members.map Func.name)
          (max config.maxSignatureIterations 1) m.func.span] := by
  simp only [solveTogether, bind_eq_ok, pure_eq_ok] at h
  obtain ⟨start, hstart, outcome, hcycle, rfl⟩ := h
  obtain ⟨last, hrounds, hround, hconverged⟩ := solveCycle_spec hcycle
  have hcovers := covers_of_rounds hrounds (initialSignatures_covers hstart)
  have hraises : Raises p config known members last outcome.assumed := ⟨_, hround⟩
  have hcovers' := hraises.covers hcovers
  refine ⟨start, last, outcome, hcycle,
    ⟨hstart, hrounds, hraises, hconverged, ?_, fun m hm => ?_⟩, fun m hm => ?_⟩
  · have hlength : members.length ≤ (outcome.assumed.zip outcome.solutions).length := by
      have hassumed := congrArg List.length hcovers'
      have hsolutions := (mapM_eq_ok.mp (solveRound_eq_ok.mp hround).1).length_eq
      rw [List.length_map, List.length_map] at hassumed
      rw [List.length_zip, hassumed, ← hsolutions]
      omega
    rw [List.map_map]
    exact List.map_fst_zip hlength
  · obtain ⟨⟨f, entry, s⟩, hmem, rfl⟩ := List.mem_map.mp hm
    obtain ⟨i, hi⟩ := List.mem_iff_getElem?.mp hmem
    obtain ⟨hf, hzip⟩ := List.getElem?_zip_eq_some.mp hi
    obtain ⟨hentry, hs⟩ := List.getElem?_zip_eq_some.mp hzip
    obtain ⟨sig, s', -, hs', hsolve, hraised⟩ := solveRound_getElem? hcovers hround hf
    obtain rfl : s = s' := Option.some.inj (hs.symm.trans hs')
    obtain rfl : entry = (f.id, sig.raise s.signature) :=
      Option.some.inj (hentry.symm.trans hraised)
    exact ⟨_, s, hcovers'.get?_of_getElem? hnodup hentry, hsolve, rfl⟩
  · obtain ⟨x, -, rfl⟩ := List.mem_map.mp hm
    rfl

theorem exists_cycleRun {solved : List SolvedFunc} (hnodup : (members.map Func.id).Nodup)
    (h : solveTogether p config known members = .ok solved) :
    ∃ start last assumed converged,
      CycleRun p config known members start last assumed converged solved := by
  obtain ⟨start, last, outcome, -, hrun, -⟩ := solveTogether_eq_ok hnodup h
  exact ⟨start, last, _, _, hrun⟩

theorem map_func_solveTogether {solved : List SolvedFunc} (hnodup : (members.map Func.id).Nodup)
    (h : solveTogether p config known members = .ok solved) :
    solved.map SolvedFunc.func = members := by
  obtain ⟨_, _, _, _, hrun⟩ := exists_cycleRun hnodup h
  exact hrun.funcs

/-! ## Units of valid functions are solved -/

theorem Func.initialSignature_isOk {f : Func} (hf : f.Valid) :
    ∃ sig, f.initialSignature = .ok sig := by
  obtain ⟨modes, hmodes⟩ := mapM_isOk (l := f.params)
    (g := fun q => do return (← f.binding q).fixedMode?.getD .immutableBorrow) fun q hq => by
      rw [Func.binding, lookup_eq_ok.mpr (List.getElem?_eq_getElem (hf.param_lt q hq)), ok_bind]
      exact ⟨_, rfl⟩
  rw [Func.initialSignature, hmodes, ok_bind]
  exact ⟨_, rfl⟩

theorem solveTogether_isOk (hvalid : ∀ f ∈ members, f.Valid) :
    ∃ solved, solveTogether p config known members = .ok solved := by
  obtain ⟨start, hstart⟩ : ∃ start, initialSignatures members = .ok start := by
    refine mapM_isOk fun f hf => ?_
    obtain ⟨sig, hsig⟩ := Func.initialSignature_isOk (hvalid f hf)
    rw [hsig, ok_bind]
    exact ⟨_, rfl⟩
  have hround : ∀ assumed, ∃ result, solveRound p config known members assumed = .ok result := by
    intro assumed
    obtain ⟨solutions, hsolutions⟩ := mapM_isOk (l := members)
      (g := fun f => (assumingEnvironment p config known assumed).solve f f.usage)
      fun f hf => Environment.solve_isOk _ (hvalid f hf)
    exact ⟨(solutions, _), solveRound_eq_ok.mpr ⟨hsolutions, rfl⟩⟩
  have hcycle : ∀ more assumed, ∃ outcome,
      solveCycle p config known members more assumed = .ok outcome := by
    intro more
    induction more with
    | zero =>
      intro assumed
      obtain ⟨result, hresult⟩ := hround assumed
      rw [solveCycle, hresult, ok_bind]
      exact ⟨_, rfl⟩
    | succ more ih =>
      intro assumed
      obtain ⟨⟨solutions, raised⟩, hresult⟩ := hround assumed
      rw [solveCycle, hresult, ok_bind]
      dsimp only
      split
      · exact ⟨_, rfl⟩
      · exact ih raised
  obtain ⟨outcome, houtcome⟩ := hcycle (max config.maxSignatureIterations 1 - 1) start
  simp only [solveTogether, hstart, houtcome, ok_bind]
  exact ⟨_, rfl⟩

/-! ## Signatures that are read -/

section Congr

variable (h : ∀ f ∈ members, ∀ c ∈ f.usage.calledFunctions, c ∉ members.map Func.id →
  known c = known' c)
include h

theorem solveRound_congr (hcovers : assumed.Covers members) :
    solveRound p config known members assumed = solveRound p config known' members assumed := by
  have hsolutions : (members.mapM fun f =>
        (assumingEnvironment p config known assumed).solve f f.usage) =
      members.mapM fun f => (assumingEnvironment p config known' assumed).solve f f.usage := by
    refine mapM_congr fun f hf => Environment.solve_congr fun c hc => ?_
    cases hget : assumed.get? c with
    | some sig => rfl
    | none => exact h f hf c hc (hcovers.notMem_of_get?_eq_none hget)
  simp only [solveRound, hsolutions]

theorem solveCycle_congr (more : Nat) (hcovers : assumed.Covers members) :
    solveCycle p config known members more assumed =
      solveCycle p config known' members more assumed := by
  induction more generalizing assumed with
  | zero => rw [solveCycle, solveCycle, solveRound_congr h hcovers]
  | succ more ih =>
    rw [solveCycle, solveCycle, ← solveRound_congr h hcovers]
    refine bind_congr_of_ok fun (solutions, raised) hround => ?_
    dsimp only
    rw [ih (Raises.covers ⟨solutions, hround⟩ hcovers)]

/-- The solution of a unit depends on the signatures of callees outside the unit only. -/
theorem solveTogether_congr :
    solveTogether p config known members = solveTogether p config known' members := by
  unfold solveTogether
  refine bind_congr_of_ok fun start hstart => ?_
  dsimp only
  rw [solveCycle_congr h _ (initialSignatures_covers hstart)]

end Congr

end Rounds

end Tenure

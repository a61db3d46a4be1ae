import Tenure.Proofs.Analysis.Findings
import Tenure.Proofs.Analysis.Least
import Tenure.Proofs.Analysis.Stopped

/-!
# How many rounds a recursive unit takes

The first assumptions about a parameter are at least a borrow, and a mode can be raised at most
twice from there. A round that is not the last one raises some mode, so a unit with `n` parameters
has stable signatures after `2 * n + 1` rounds (`solveCycle_converged`). Under a lower limit the
rounds are cut off: what is published then is what the rounds had come to, and more rounds only raise
it (`solveCycle_rounds`).
-/

namespace Tenure

open Relation

/-- The settings with another limit on the rounds of a recursive unit. -/
def Config.withLimit (config : Config) (limit : Nat) : Config :=
  { config with maxSignatureIterations := limit }

/-! ## Totals -/

section Total

variable {α β : Type} {w : α → Nat}

/-- The sum of the weights of all elements. -/
def total (w : α → Nat) (l : List α) : Nat := l.foldr (fun a n => w a + n) 0

theorem total_cons {a : α} {l : List α} : total w (a :: l) = w a + total w l := rfl

theorem total_le_of_forall₂ {v : β → Nat} {R : α → β → Prop} {c : Nat}
    (hR : ∀ a b, R a b → w a ≤ c * v b) {l : List α} {l' : List β} (h : List.Forall₂ R l l') :
    total w l ≤ c * total v l' := by
  induction h with
  | nil => exact Nat.zero_le _
  | cons hab _ ih =>
    have hhead := hR _ _ hab
    rw [total_cons, total_cons, Nat.mul_add]
    omega

/-- If elements can only grow in weight, or stay as they are, the same holds of the whole list. -/
theorem total_grows {R : α → α → Prop} (hR : ∀ a b, R a b → w a ≤ w b ∧ (w b ≤ w a → a = b))
    {l l' : List α} (h : List.Forall₂ R l l') :
    total w l ≤ total w l' ∧ (total w l' ≤ total w l → l = l') := by
  induction h with
  | nil => exact ⟨Nat.le_refl _, fun _ => rfl⟩
  | cons hab _ ih =>
    obtain ⟨hle, heq⟩ := hR _ _ hab
    obtain ⟨hrest, hsame⟩ := ih
    rw [total_cons, total_cons]
    refine ⟨by omega, fun htotal => ?_⟩
    rw [heq (by omega), hsame (by omega)]

end Total

/-- The number of parameters of some functions. -/
def parameterCount (members : List Func) : Nat := total (fun f => f.params.length) members

/-! ## The weight of signatures -/

namespace Signature

variable {a b : Signature}

/-- How much a signature needs from all parameters together. -/
def weight (sig : Signature) : Nat := total Mode.rank sig.params

theorem weight_le_length (sig : Signature) : sig.weight ≤ 3 * sig.params.length := by
  unfold weight
  induction sig.params with
  | nil => exact Nat.zero_le _
  | cons m modes ih =>
    have hrank := m.rank_le_three
    rw [total_cons, List.length_cons]
    omega

/-- The first assumption about a function needs at least to read every parameter. -/
theorem length_le_weight {f : Func} {sig : Signature} (h : f.initialSignature = .ok sig) :
    f.params.length ≤ sig.weight := by
  have hforall := (Func.initialSignature_eq_ok h).2
  unfold weight
  generalize f.params = params, sig.params = modes at hforall
  induction hforall with
  | nil => exact Nat.le_refl _
  | cons hmode _ ih =>
    obtain ⟨decl, -, rfl⟩ := hmode
    have hrank : 1 ≤ (decl.fixedMode?.getD .immutableBorrow).rank := by
      unfold Binding.fixedMode?
      rcases decl.keyword with _ | keyword
      · decide
      · cases keyword <;> decide
    rw [total_cons, List.length_cons]
    omega

theorem Within.weight_le (h : a.Within b) :
    a.weight ≤ b.weight ∧ (b.weight ≤ a.weight → a.params = b.params) := by
  refine total_grows (fun m n hwithin => ?_) h
  rw [Mode.within_iff] at hwithin
  exact ⟨hwithin, fun hback => Mode.rank_injective (by omega)⟩

end Signature

namespace SignatureMap

variable {members : List Func} {assumed raised start : SignatureMap}

/-- How much the signatures need together. -/
def weight (signatures : SignatureMap) : Nat := total (fun e => e.2.weight) signatures

theorem weight_le (hcovers : assumed.Covers members) (hnodup : (members.map Func.id).Nodup)
    (hfits : assumed.Fits members) : assumed.weight ≤ 3 * parameterCount members := by
  have hlength := congrArg List.length hcovers
  rw [List.length_map, List.length_map] at hlength
  have hlengths : List.Forall₂ (fun e f => e.2.params.length = f.params.length) assumed members := by
    refine List.forall₂_iff_get.mpr ⟨hlength, fun i hi hi' => ?_⟩
    have hf := List.getElem?_eq_getElem hi'
    obtain ⟨sig, hsig⟩ := hcovers.getElem? hf
    have hget := hcovers.get?_of_getElem? hnodup hsig
    have hentry : assumed.get ⟨i, hi⟩ = (_, sig) := (List.getElem?_eq_some_iff.mp hsig).2
    rw [hentry]
    exact (hfits _ (List.mem_of_getElem? hf) sig hget).2
  refine total_le_of_forall₂ (fun e f heq => ?_) hlengths
  rw [← heq]
  exact e.2.weight_le_length

theorem parameterCount_le_weight (h : initialSignatures members = .ok start) :
    parameterCount members ≤ start.weight := by
  rw [← Nat.one_mul start.weight]
  refine total_le_of_forall₂ (fun f e he => ?_) (mapM_eq_ok.mp h)
  rw [bind_eq_ok] at he
  obtain ⟨sig, hsig, he⟩ := he
  obtain rfl := pure_eq_ok.mp he
  rw [Nat.one_mul]
  exact Signature.length_le_weight hsig

/-- The entry is of the same function, and its signature needs no less. -/
structure Grows (e e' : FuncId × Signature) : Prop where
  id : e.1 = e'.1
  resolved : e.2.resolved = e'.2.resolved
  within : e.2.Within e'.2

theorem Grows.weight_le {e e' : FuncId × Signature} (h : Grows e e') :
    e.2.weight ≤ e'.2.weight ∧ (e'.2.weight ≤ e.2.weight → e = e') := by
  obtain ⟨hle, hparams⟩ := h.within.weight_le
  refine ⟨hle, fun hback => ?_⟩
  obtain ⟨c, modes, resolved⟩ := e
  obtain ⟨c', modes', resolved'⟩ := e'
  obtain rfl : c = c' := h.id
  obtain rfl : resolved = resolved' := h.resolved
  obtain rfl : modes = modes' := hparams hback
  rfl

end SignatureMap

/-! ## The last round -/

section Rounds

variable {p : Program} {config : Config} {known : FuncId → Option Signature}
  {members : List Func} {start assumed raised : SignatureMap} {outcome outcome' : CycleOutcome}
  {more more' : Nat}

theorem Raises.grows (h : Raises p config known members assumed raised)
    (hcovers : assumed.Covers members) (hnodup : (members.map Func.id).Nodup)
    (hfits : assumed.Fits members) : List.Forall₂ SignatureMap.Grows assumed raised := by
  have hlength := congrArg List.length hcovers
  have hlength' := congrArg List.length (h.covers hcovers)
  rw [List.length_map, List.length_map] at hlength hlength'
  refine List.forall₂_iff_get.mpr ⟨hlength.trans hlength'.symm, fun i hi hi' => ?_⟩
  obtain ⟨solutions, hround⟩ := h
  have hf := List.getElem?_eq_getElem (hlength ▸ hi)
  obtain ⟨sig, s, hsig, -, hsolve, hraised⟩ := solveRound_getElem? hcovers hround hf
  obtain ⟨hresolved, hparams⟩ :=
    hfits _ (List.mem_of_getElem? hf) sig (hcovers.get?_of_getElem? hnodup hsig)
  have heq : assumed.get ⟨i, hi⟩ = (_, sig) := (List.getElem?_eq_some_iff.mp hsig).2
  have heq' : raised.get ⟨i, hi'⟩ = (_, sig.raise s.signature) :=
    (List.getElem?_eq_some_iff.mp hraised).2
  rw [heq, heq']
  exact ⟨rfl, hresolved,
    (Signature.within_raise (hparams.trans (Environment.length_signature hsolve).symm)).1⟩

/-- A round that adds no weight changes nothing. -/
theorem Raises.eq_of_weight_le (h : Raises p config known members assumed raised)
    (hcovers : assumed.Covers members) (hnodup : (members.map Func.id).Nodup)
    (hfits : assumed.Fits members) (hweight : raised.weight ≤ assumed.weight) :
    raised = assumed := by
  have hgrows := h.grows hcovers hnodup hfits
  exact ((total_grows (fun _ _ => SignatureMap.Grows.weight_le) hgrows).2 hweight).symm

/-- Enough rounds make the signatures stable: each round that is not the last adds weight. -/
theorem solveCycle_converged (hnodup : (members.map Func.id).Nodup)
    (hcovers : assumed.Covers members) (hfits : assumed.Fits members)
    (hmore : 3 * parameterCount members ≤ assumed.weight + more)
    (h : solveCycle p config known members more assumed = .ok outcome) :
    outcome.converged = true := by
  induction more generalizing assumed with
  | zero =>
    rw [solveCycle, bind_eq_ok] at h
    obtain ⟨⟨solutions, raised⟩, hround, h⟩ := h
    have hraises : Raises p config known members assumed raised := ⟨solutions, hround⟩
    have hbound := SignatureMap.weight_le (hraises.covers hcovers) hnodup
      (hraises.fits hcovers hnodup hfits)
    have hstable := hraises.eq_of_weight_le hcovers hnodup hfits (by omega)
    obtain rfl := pure_eq_ok.mp h
    rw [if_pos hstable]
  | succ more ih =>
    rw [solveCycle, bind_eq_ok] at h
    obtain ⟨⟨solutions, raised⟩, hround, h⟩ := h
    dsimp only at h
    have hraises : Raises p config known members assumed raised := ⟨solutions, hround⟩
    by_cases heq : raised = assumed
    · rw [if_pos heq] at h
      obtain rfl := pure_eq_ok.mp h
      rfl
    · rw [if_neg heq] at h
      have hless : assumed.weight < raised.weight := by
        by_contra hnot
        exact heq (hraises.eq_of_weight_le hcovers hnodup hfits (by omega))
      exact ih (hraises.covers hcovers) (hraises.fits hcovers hnodup hfits) (by omega) h

/-! ## More rounds -/

/-- With more rounds to go, a unit comes to what it has come to with fewer, and goes on from there
unless it has converged. -/
theorem solveCycle_rounds (hle : more ≤ more')
    (h : solveCycle p config known members more assumed = .ok outcome)
    (h' : solveCycle p config known members more' assumed = .ok outcome') :
    ReflTransGen (Raises p config known members) outcome.assumed outcome'.assumed ∧
      (outcome.converged = true → outcome' = outcome) := by
  induction more generalizing more' assumed with
  | zero =>
    rw [solveCycle, bind_eq_ok] at h
    obtain ⟨⟨solutions, raised⟩, hround, h⟩ := h
    obtain rfl := pure_eq_ok.mp h
    cases more' with
    | zero =>
      rw [solveCycle, hround, ok_bind] at h'
      obtain rfl := pure_eq_ok.mp h'
      exact ⟨.refl, fun _ => rfl⟩
    | succ more' =>
      rw [solveCycle, hround, ok_bind] at h'
      dsimp only at h'
      by_cases heq : raised = assumed
      · rw [if_pos heq] at h' ⊢
        obtain rfl := pure_eq_ok.mp h'
        exact ⟨.refl, fun _ => rfl⟩
      · rw [if_neg heq] at h' ⊢
        -- the rounds were cut off here, and the other ones go on
        obtain ⟨last, hrounds, hlast, -⟩ := solveCycle_spec h'
        exact ⟨hrounds.tail ⟨_, hlast⟩, fun hfalse => by cases hfalse⟩
  | succ more ih =>
    obtain ⟨more', rfl⟩ : ∃ n, more' = n + 1 := ⟨more' - 1, by omega⟩
    rw [solveCycle, bind_eq_ok] at h
    obtain ⟨⟨solutions, raised⟩, hround, h⟩ := h
    rw [solveCycle, hround, ok_bind] at h'
    dsimp only at h h'
    by_cases heq : raised = assumed
    · rw [if_pos heq] at h h'
      obtain rfl := pure_eq_ok.mp h
      obtain rfl := pure_eq_ok.mp h'
      exact ⟨.refl, fun _ => rfl⟩
    · rw [if_neg heq] at h h'
      exact ih (by omega) h h'

/-! ## Limits -/

/-- The limit is not read while a round is run. -/
theorem solveCycle_withLimit (limit more : Nat) (assumed : SignatureMap) :
    solveCycle p (config.withLimit limit) known members more assumed =
      solveCycle p config known members more assumed := by
  have hround : ∀ signatures, solveRound p (config.withLimit limit) known members signatures =
      solveRound p config known members signatures := by
    intro signatures
    have hsame : Environment.SameSettings
        (assumingEnvironment p (config.withLimit limit) known signatures)
        (assumingEnvironment p config known signatures) := ⟨fun _ => rfl, rfl, rfl⟩
    simp only [solveRound, hsame.solve_eq fun _ _ => rfl]
  induction more generalizing assumed with
  | zero => rw [solveCycle, solveCycle, hround]
  | succ more ih =>
    rw [solveCycle, solveCycle, hround]
    simp only [ih]

variable {solved solved' : List SolvedFunc}

theorem resolved_of_limit (hnodup : (members.map Func.id).Nodup)
    (hlimit : 2 * parameterCount members + 1 ≤ config.maxSignatureIterations)
    (h : solveTogether p config known members = .ok solved) {m : SolvedFunc} (hm : m ∈ solved) :
    m.solution.signature.resolved = true ∧ m.found = [] := by
  obtain ⟨start, last, outcome, hcycle, hrun, hfound⟩ := solveTogether_eq_ok hnodup h
  have hweight := SignatureMap.parameterCount_le_weight hrun.initial
  have hconverged : outcome.converged = true :=
    solveCycle_converged hnodup (initialSignatures_covers hrun.initial)
      (initialSignatures_fits hrun.initial hnodup) (by omega) hcycle
  obtain ⟨sig, s, -, -, hsolution⟩ := hrun.solution m hm
  rw [hfound m hm, hsolution]
  exact ⟨hconverged, if_pos hconverged⟩

theorem within_of_limits (hnodup : (members.map Func.id).Nodup) {low high : Nat}
    (hle : low ≤ high)
    (h : solveTogether p (config.withLimit low) known members = .ok solved)
    (h' : solveTogether p (config.withLimit high) known members = .ok solved') {m m' : SolvedFunc}
    (hm : m ∈ solved) (hm' : m' ∈ solved') (hfunc : m.func = m'.func) :
    m.solution.signature.Within m'.solution.signature ∧
      (m.solution.signature.resolved = true →
        m.solution.signature.params = m'.solution.signature.params) := by
  obtain ⟨start, last, outcome, hcycle, hrun, -⟩ := solveTogether_eq_ok hnodup h
  obtain ⟨start', last', outcome', hcycle', hrun', -⟩ := solveTogether_eq_ok hnodup h'
  obtain rfl := Except.ok.inj (hrun.initial.symm.trans hrun'.initial)
  rw [solveCycle_withLimit] at hcycle hcycle'
  have hmore : max low 1 - 1 ≤ max high 1 - 1 := by omega
  obtain ⟨hrounds, hsame⟩ := solveCycle_rounds hmore hcycle hcycle'
  obtain ⟨sig, s, hsig, -, hsolution⟩ := hrun.solution m hm
  obtain ⟨sig', s', hsig', -, hsolution'⟩ := hrun'.solution m' hm'
  rw [← hfunc] at hsig'
  have hmember : m.func ∈ members := hrun.funcs ▸ List.mem_map_of_mem hm
  obtain ⟨last₀, hfirst, hlast₀, -⟩ := solveCycle_spec hcycle
  have hadmissible := (within_of_rounds (hfirst.tail ⟨_, hlast₀⟩) hnodup
    (initialSignatures_admissible hrun.initial hnodup)).1
  have hbelow := (within_of_rounds hrounds hnodup hadmissible).2
  rw [hsolution, hsolution']
  refine ⟨hbelow m.func hmember sig sig' hsig hsig', fun hresolved => ?_⟩
  rw [hsame hresolved, hsig] at hsig'
  rw [Option.some.inj hsig']

end Rounds

/-! ## Published signatures -/

namespace Program

/-- What the limit on rounds means for a recursive unit: with two rounds for each parameter and one
more its signatures are final, and under any limit they are what a higher one only raises. -/
structure RoundsSuffice (p : Program) (config : Config) (u : AnalysisUnit) : Prop where
  solved : ∀ known limit, 2 * parameterCount (p.members u) + 1 ≤ limit →
    ∃ solved, solveTogether p (config.withLimit limit) known (p.members u) = .ok solved ∧
      solved.map SolvedFunc.func = p.members u ∧
      ∀ m ∈ solved, m.solution.signature.resolved = true ∧ m.found = []
  published : ∀ limit stop a, 2 * parameterCount (p.members u) + 1 ≤ limit →
    p.analyze (config.withLimit limit) stop = .ok a →
      ∀ r ∈ a.functions, r.function ∈ (p.members u).map Func.id →
        (∃ sig, a.signature? r.function = some sig ∧ sig.resolved = true) ∧
          ∀ name cycle iterations span,
            .unstableSignature name cycle iterations span ∉ r.violations
  raised : ∀ known low high, low ≤ high → ∃ solved solved',
    solveTogether p (config.withLimit low) known (p.members u) = .ok solved ∧
      solveTogether p (config.withLimit high) known (p.members u) = .ok solved' ∧
      List.Forall₂ (fun m m' => m.func = m'.func ∧
        m.solution.signature.Within m'.solution.signature ∧
        (m.solution.signature.resolved = true →
          m.solution.signature.params = m'.solution.signature.params)) solved solved'
  publishedRaised : ∀ low high a a', low ≤ high →
    p.analyze (config.withLimit low) (fun _ => false) = .ok a →
    p.analyze (config.withLimit high) (fun _ => false) = .ok a' →
    (∀ c, c ∉ u.functions → a.signature? c = a'.signature? c) →
      ∀ f ∈ p.members u, ∃ sig sig', a.signature? f.id = some sig ∧
        a'.signature? f.id = some sig' ∧ sig.Within sig' ∧
        (sig.resolved = true → sig.params = sig'.params)

variable {p : Program} {config : Config} {u : AnalysisUnit} {known : FuncId → Option Signature}
  {solved : List SolvedFunc} {m : SolvedFunc}

theorem category_of_conflicts (hu : u ∈ p.callGraph.units) (hrec : u.recursive = true)
    (h : p.solveUnit config known u = .ok solved) (hm : m ∈ solved) :
    ∀ v ∈ m.solution.conflicts, v.category = "override-conflict" := by
  intro v hv
  obtain ⟨_, _, _, _, hrun⟩ := exists_cycleRun_of_solveUnit hu hrec h
  obtain ⟨sig, s, -, hsolve, hsolution⟩ := hrun.solution m hm
  rw [hsolution] at hv
  obtain ⟨x, -, hx⟩ := (Environment.mem_conflicts hsolve).mp hv
  exact Environment.category_of_conflict? hx

/-- Signatures that agree outside of a unit solve it alike. -/
theorem solveUnit_of_outside {known' : FuncId → Option Signature} {config' : Config}
    (hu : u ∈ p.callGraph.units) (hk : p.Signed config known)
    (hk' : p.Signed config' known') (houtside : ∀ c, c ∉ u.functions → known c = known' c) :
    p.solveUnit config known u = p.solveUnit config known' u := by
  refine solveUnit_congr hu fun f hf c hc hnot => ?_
  by_cases hcu : c ∈ u.functions
  · -- a function of the unit that is not solved with it is malformed
    have hrejected : ¬ p.accepts c := fun haccepts =>
      hnot (mem_map_id_members.mpr ⟨hcu, haccepts⟩)
    have hdefines : p.defines c :=
      CallGraph.mem_units_functions.mp (List.mem_flatMap.mpr ⟨u, hu, hcu⟩)
    obtain ⟨g, hg⟩ := defines_iff.mp hdefines
    rw [hk.rejected c g hg hrejected, hk'.rejected c g hg hrejected]
  · exact houtside c hcu

section Limits

variable (hp : (p.functions.map Func.id).Nodup) (hu : u ∈ p.callGraph.units)
  (hrec : u.recursive = true)
include hp hu hrec

theorem published_of_limit {limit : Nat} {stop : Nat → Bool} {a : Analysis}
    (hlimit : 2 * parameterCount (p.members u) + 1 ≤ limit)
    (ha : p.analyze (config.withLimit limit) stop = .ok a) {r : FuncAnalysis}
    (hr : r ∈ a.functions) (hmember : r.function ∈ (p.members u).map Func.id) :
    (∃ sig, a.signature? r.function = some sig ∧ sig.resolved = true) ∧
      ∀ name cycle iterations span,
        .unstableSignature name cycle iterations span ∉ r.violations := by
  obtain ⟨hsig, f, hf, hanalysis⟩ := (analysisOf_of_analyze hp ha).1 r hr
  rw [hanalysis.function_eq] at hmember
  obtain ⟨hfu, haccepts⟩ := mem_map_id_members.mp hmember
  obtain ⟨g, hg, hvalid⟩ := accepts_iff.mp haccepts
  obtain rfl : f = g := Option.some.inj ((function?_of_mem hp hf).symm.trans hg)
  obtain ⟨solved, hsolved⟩ := p.solveUnit_isOk (config.withLimit limit) a.signature? u
  obtain ⟨m, hm, rfl⟩ := exists_mem_solved hu hsolved (mem_members.mpr ⟨hfu, hg, hvalid⟩)
  have hfinish := hanalysis.finish_eq hu hsolved hm
  have hconflicts := category_of_conflicts hu hrec hsolved hm
  rw [solveUnit, if_pos hrec] at hsolved
  obtain ⟨hresolved, hfound⟩ := resolved_of_limit (members_nodup hu) hlimit hsolved hm
  refine ⟨⟨_, hsig, ?_⟩, fun name cycle iterations span hv => ?_⟩
  · rw [(SolvedFunc.finish_eq_ok hfinish).2.1]
    exact hresolved
  · have hnone := SolvedFunc.unstableSignature_mem hfinish hconflicts hv
    rw [hfound] at hnone
    cases hnone

theorem published_within {low high : Nat} {a a' : Analysis} (hle : low ≤ high)
    (ha : p.analyze (config.withLimit low) (fun _ => false) = .ok a)
    (ha' : p.analyze (config.withLimit high) (fun _ => false) = .ok a')
    (houtside : ∀ c, c ∉ u.functions → a.signature? c = a'.signature? c) {f : Func}
    (hf : f ∈ p.members u) :
    ∃ sig sig', a.signature? f.id = some sig ∧ a'.signature? f.id = some sig' ∧
      sig.Within sig' ∧ (sig.resolved = true → sig.params = sig'.params) := by
  obtain ⟨known, hk⟩ := p.exists_signed (config.withLimit low)
  obtain ⟨known', hk'⟩ := p.exists_signed (config.withLimit high)
  obtain rfl := ((analyze_eq_ok_iff hp hk).mp ha).signature?_eq hk
  obtain rfl := ((analyze_eq_ok_iff hp hk').mp ha').signature?_eq hk'
  obtain ⟨solved, hsolved⟩ := p.solveUnit_isOk (config.withLimit low) a.signature? u
  obtain ⟨solved', hsolved'⟩ := p.solveUnit_isOk (config.withLimit high) a'.signature? u
  obtain ⟨m, hm, rfl⟩ := exists_mem_solved hu hsolved hf
  obtain ⟨m', hm', hfunc⟩ := exists_mem_solved hu hsolved' hf
  have hsig := hk.solved u hu solved hsolved m hm
  have hsig' := hk'.solved u hu solved' hsolved' m' hm'
  rw [hfunc] at hsig'
  rw [solveUnit_of_outside hu hk hk' houtside] at hsolved
  rw [solveUnit, if_pos hrec] at hsolved hsolved'
  obtain ⟨hwithin, hsame⟩ :=
    within_of_limits (members_nodup hu) hle hsolved hsolved' hm hm' hfunc.symm
  exact ⟨_, _, hsig, hsig', hwithin, hsame⟩

/-- Two rounds for each parameter and one more are enough for a recursive unit, whatever is known
outside of it, and more rounds never lower what is published. -/
theorem rounds_suffice (config : Config) : p.RoundsSuffice config u := by
  have hvalid : ∀ f ∈ p.members u, f.Valid := fun f hf => valid_of_mem_members hf
  have hnodup := members_nodup hu
  refine ⟨fun known limit hlimit => ?_, fun limit stop a hlimit ha r hr hmember => ?_,
    fun known low high hle => ?_, fun low high a a' hle ha ha' houtside f hf => ?_⟩
  · obtain ⟨solved, hsolved⟩ := solveTogether_isOk hvalid
    exact ⟨solved, hsolved, map_func_solveTogether hnodup hsolved,
      fun m hm => resolved_of_limit hnodup hlimit hsolved hm⟩
  · exact published_of_limit hp hu hrec hlimit ha hr hmember
  · obtain ⟨solved, hsolved⟩ : ∃ solved,
        solveTogether p (config.withLimit low) known (p.members u) = .ok solved :=
      solveTogether_isOk hvalid
    obtain ⟨solved', hsolved'⟩ : ∃ solved,
        solveTogether p (config.withLimit high) known (p.members u) = .ok solved :=
      solveTogether_isOk hvalid
    refine ⟨solved, solved', hsolved, hsolved', ?_⟩
    have heq := (map_func_solveTogether hnodup hsolved).trans
      (map_func_solveTogether hnodup hsolved').symm
    have hlength := congrArg List.length heq
    rw [List.length_map, List.length_map] at hlength
    refine List.forall₂_iff_get.mpr ⟨hlength, fun i hi hi' => ?_⟩
    have hfunc : (solved.get ⟨i, hi⟩).func = (solved'.get ⟨i, hi'⟩).func := by
      have hget := congrArg (fun l => l[i]?) heq
      simpa [hi, hi'] using hget
    exact ⟨hfunc, within_of_limits hnodup hle hsolved hsolved' (List.get_mem ..)
      (List.get_mem ..) hfunc⟩
  · exact published_within hp hu hrec hle ha ha' houtside hf

end Limits

/-- Two functions that call each other have two parameters, so five rounds are enough for them. After
one round the signature of `ping` is not final yet, and the published one is below the final one. -/
theorem pingPong_rounds_suffice :
    ∃ a a', pingPong.analyze (Config.default.withLimit 1) (fun _ => false) = .ok a ∧
      pingPong.analyze (Config.default.withLimit 5) (fun _ => false) = .ok a' ∧
      a.signatures = [(0, ⟨[.immutableBorrow], false⟩), (1, ⟨[.moved], false⟩)] ∧
      a'.signatures = [(0, ⟨[.moved], true⟩), (1, ⟨[.moved], true⟩)] ∧
      (∃ sig sig', a.signature? 0 = some sig ∧ a'.signature? 0 = some sig' ∧ sig.Within sig') ∧
      a'.functions.map FuncAnalysis.function = [0, 1] ∧
      ∀ r ∈ a'.functions, (∃ sig, a'.signature? r.function = some sig ∧ sig.resolved = true) ∧
        ∀ name cycle iterations span,
          .unstableSignature name cycle iterations span ∉ r.violations := by
  have hone : (pingPong.analyze (Config.default.withLimit 1) (fun _ => false) >>= fun a =>
      pure a.signatures) = .ok [(0, ⟨[.immutableBorrow], false⟩), (1, ⟨[.moved], false⟩)] := by
    rw [Program.analyze, pingPong_levels]
    decide +kernel
  have hfive : (pingPong.analyze (Config.default.withLimit 5) (fun _ => false) >>= fun a =>
      pure (a.signatures, a.functions.map FuncAnalysis.function)) =
        .ok ([(0, ⟨[.moved], true⟩), (1, ⟨[.moved], true⟩)], [0, 1]) := by
    rw [Program.analyze, pingPong_levels]
    decide +kernel
  obtain ⟨a, ha, hresult⟩ := bind_eq_ok.mp hone
  obtain ⟨a', ha', hresult'⟩ := bind_eq_ok.mp hfive
  have hsignatures := pure_eq_ok.mp hresult
  obtain ⟨hsignatures', hfunctions⟩ := Prod.mk.inj (pure_eq_ok.mp hresult')
  have hunit : (⟨[0, 1], true, 0⟩ : AnalysisUnit) ∈ pingPong.callGraph.units := by
    rw [pingPong_units]
    exact List.mem_cons_self
  have hmembers : pingPong.members ⟨[0, 1], true, 0⟩ = [ping, pong] := by decide +kernel
  obtain ⟨-, hpublished, -, hraised⟩ :=
    rounds_suffice (p := pingPong) (u := ⟨[0, 1], true, 0⟩) (by decide +kernel) hunit rfl .default
  rw [hmembers] at hpublished hraised
  have houtside : ∀ c, c ∉ [0, 1] → a.signature? c = a'.signature? c := by
    intro c hc
    rw [List.mem_cons, List.mem_singleton, not_or] at hc
    simp [Analysis.signature?, hsignatures, hsignatures', SignatureMap.get?, Ne.symm hc.1,
      Ne.symm hc.2]
  obtain ⟨sig, sig', hsig, hsig', hwithin, -⟩ :=
    hraised 1 5 a a' (by decide) ha ha' houtside ping List.mem_cons_self
  refine ⟨a, a', ha, ha', hsignatures, hsignatures', ⟨sig, sig', hsig, hsig', hwithin⟩,
    hfunctions, fun r hr => ?_⟩
  have hmem : r.function ∈ [0, 1] := hfunctions ▸ List.mem_map_of_mem hr
  exact hpublished 5 _ a' (by decide) ha' r hr hmem

end Program

end Tenure

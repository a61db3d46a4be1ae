import Tenure.Proofs.Analysis.Rounds
import Tenure.Proofs.CallGraph
import Tenure.Proofs.Facts

/-!
# Signatures that explain each other

What a run publishes does not depend on the run: there are signatures of all functions such that
every unit, solved against them, gets just these signatures (`Program.Signed`). They exist for every
program (`Program.exists_signed`), because a unit reads only signatures of units at lower levels and
of functions that are not accepted.
-/

namespace Tenure

open Relation

namespace Program

/-- Whether a function is defined and passes validation. -/
def accepts (p : Program) (f : FuncId) : Bool :=
  (p.function? f).any fun func => p.validateFunction func = .ok ()

/-- The members of a unit that are solved. -/
def members (p : Program) (u : AnalysisUnit) : List Func :=
  (u.functions.filter p.accepts).filterMap p.function?

/-- Solve the members of a unit against known signatures. -/
def solveUnit (p : Program) (config : Config) (known : FuncId → Option Signature)
    (u : AnalysisUnit) : Except Fault (List SolvedFunc) :=
  if u.recursive then solveTogether p config known (p.members u)
  else (p.members u).mapM (solveAlone p config known)

/-- The signatures are those that all functions get when every unit is solved against them. -/
structure Signed (p : Program) (config : Config) (known : FuncId → Option Signature) : Prop where
  undefined : ∀ f, ¬ p.defines f → known f = none
  rejected : ∀ f func, p.function? f = some func → ¬ p.accepts f →
    known f = some (.allMoved func.params.length)
  solved : ∀ u ∈ p.callGraph.units, ∀ solved, p.solveUnit config known u = .ok solved →
    ∀ m ∈ solved, known m.func.id = some m.solution.signature

/-! ## Functions of a program -/

section Functions

variable {p : Program} {f : FuncId} {func : Func} {c : FuncId} {u : AnalysisUnit}

theorem id_of_function? (h : p.function? f = some func) : func.id = f := by
  simpa using List.find?_some h

theorem mem_of_function? (h : p.function? f = some func) : func ∈ p.functions :=
  List.mem_of_find?_eq_some h

theorem function?_of_mem (hp : (p.functions.map Func.id).Nodup) (h : func ∈ p.functions) :
    p.function? func.id = some func :=
  (Table.find?_key_iff hp).mpr ⟨h, rfl⟩

theorem defines_iff : p.defines f ↔ ∃ func, p.function? f = some func := by
  rw [← Option.isSome_iff_exists, function?, List.find?_isSome, defines, List.any_eq_true]

theorem mem_map_id : f ∈ p.functions.map Func.id ↔ p.defines f := by
  simp [defines]

theorem accepts_iff :
    p.accepts f ↔ ∃ func, p.function? f = some func ∧ p.validateFunction func = .ok () := by
  simp [accepts, Option.any_eq_true]

theorem mem_members : func ∈ p.members u ↔
    func.id ∈ u.functions ∧ p.function? func.id = some func ∧ p.validateFunction func = .ok () := by
  simp only [members, List.mem_filterMap, List.mem_filter, accepts_iff]
  constructor
  · rintro ⟨f, ⟨hf, other, hother, hvalid⟩, hfunc⟩
    obtain rfl := Option.some.inj (hother.symm.trans hfunc)
    obtain rfl := id_of_function? hfunc
    exact ⟨hf, hfunc, hvalid⟩
  · rintro ⟨hf, hfunc, hvalid⟩
    exact ⟨func.id, ⟨hf, func, hfunc, hvalid⟩, hfunc⟩

theorem map_id_members (p : Program) (u : AnalysisUnit) :
    (p.members u).map Func.id = u.functions.filter p.accepts := by
  rw [members, List.map_filterMap]
  refine (List.filterMap_congr fun f hf => ?_).trans List.filterMap_some
  obtain ⟨func, hfunc, -⟩ := accepts_iff.mp (List.mem_filter.mp hf).2
  rw [hfunc, Option.map_some, id_of_function? hfunc]

theorem mem_map_id_members : c ∈ (p.members u).map Func.id ↔ c ∈ u.functions ∧ p.accepts c := by
  rw [map_id_members, List.mem_filter]

theorem members_nodup (hu : u ∈ p.callGraph.units) : ((p.members u).map Func.id).Nodup := by
  have hflat := List.nodup_flatMap.mp (CallGraph.units_functions_nodup p)
  rw [map_id_members]
  exact (hflat.1 u hu).filter _

theorem valid_of_mem_members (h : func ∈ p.members u) : func.Valid :=
  valid_of_validateFunction (mem_members.mp h).2.2

theorem length_members_le_one (hu : u ∈ p.callGraph.units) (hrec : ¬ u.recursive = true) :
    (p.members u).length ≤ 1 := by
  have hids := congrArg List.length (p.map_id_members u)
  rw [List.length_map] at hids
  rw [hids]
  exact (List.length_filter_le _ _).trans
    (CallGraph.length_functions_le_one hu (by simpa using hrec))

/-- A signature that is read for an accepted function is that of a function it calls. -/
theorem calls_of_called (hfunc : p.function? f = some func)
    (hvalid : p.validateFunction func = .ok ()) (hc : c ∈ func.usage.calledFunctions) :
    p.Calls f c := by
  have hcallee := Func.mem_directCallees (valid_of_validateFunction hvalid) hc
  refine ⟨func, hfunc, hcallee, ?_⟩
  exact Check.require_eq_ok.mp (Check.all_eq_ok.mp (Check.bind_eq_ok.mp hvalid).2 c hcallee)

/-- A member reads signatures of its own unit, if it is recursive, and of units at lower levels. -/
theorem unit_of_called (hu : u ∈ p.callGraph.units) (hfunc : func ∈ p.members u)
    (hc : c ∈ func.usage.calledFunctions) : u.recursive = true ∧ c ∈ u.functions ∨
      ∃ v ∈ p.callGraph.units, c ∈ v.functions ∧ p.CallsUnit u v := by
  obtain ⟨hmem, hfunc, hvalid⟩ := mem_members.mp hfunc
  have hcalls := calls_of_called hfunc hvalid hc
  have ⟨_, _, _, hdefines⟩ := hcalls
  obtain ⟨v, hv, hcv⟩ := CallGraph.unit_of_defines hdefines
  by_cases hvu : v = u
  · subst hvu
    obtain ⟨-, hback⟩ := (CallGraph.mem_unit_iff hv hmem).mp hcv
    exact .inl ⟨(CallGraph.recursive_iff hv).mpr ⟨_, hmem, .head' hcalls hback⟩, hcv⟩
  · exact .inr ⟨v, hv, hcv, hvu, _, hmem, c, hcv, hcalls⟩

end Functions

/-! ## Solving a unit -/

section Units

variable {p : Program} {config : Config} {known known' : FuncId → Option Signature}
  {u : AnalysisUnit} {solved : List SolvedFunc}

/-- Every unit is solved. -/
theorem solveUnit_isOk (p : Program) (config : Config) (known : FuncId → Option Signature)
    (u : AnalysisUnit) : ∃ solved, p.solveUnit config known u = .ok solved := by
  have hvalid : ∀ f ∈ p.members u, f.Valid := fun f hf => valid_of_mem_members hf
  unfold solveUnit
  split
  · exact solveTogether_isOk hvalid
  · refine mapM_isOk fun f hf => ?_
    obtain ⟨s, hs⟩ := Environment.solve_isOk ⟨p, config, known⟩ (hvalid f hf)
    rw [solveAlone, hs, ok_bind]
    exact ⟨_, rfl⟩

theorem solveAlone_eq_ok {f : Func} {m : SolvedFunc} (h : solveAlone p config known f = .ok m) :
    m.func = f ∧ Environment.solve ⟨p, config, known⟩ f f.usage = .ok m.solution := by
  rw [solveAlone, bind_eq_ok] at h
  obtain ⟨s, hs, h⟩ := h
  obtain rfl := pure_eq_ok.mp h
  exact ⟨rfl, hs⟩

theorem exists_cycleRun_of_solveUnit (hu : u ∈ p.callGraph.units) (hrec : u.recursive = true)
    (h : p.solveUnit config known u = .ok solved) : ∃ start last assumed converged,
      CycleRun p config known (p.members u) start last assumed converged solved := by
  rw [solveUnit, if_pos hrec] at h
  exact exists_cycleRun (members_nodup hu) h

theorem map_func_solveUnit (hu : u ∈ p.callGraph.units)
    (h : p.solveUnit config known u = .ok solved) : solved.map SolvedFunc.func = p.members u := by
  by_cases hrec : u.recursive = true
  · rw [solveUnit, if_pos hrec] at h
    exact map_func_solveTogether (members_nodup hu) h
  · rw [solveUnit, if_neg hrec] at h
    rw [map_of_mapM_eq_ok h fun f _ m hm => (solveAlone_eq_ok hm).1, List.map_id']

theorem func_mem_members (hu : u ∈ p.callGraph.units)
    (h : p.solveUnit config known u = .ok solved) {m : SolvedFunc} (hm : m ∈ solved) :
    m.func ∈ p.members u :=
  map_func_solveUnit hu h ▸ List.mem_map_of_mem hm

theorem exists_mem_solved (hu : u ∈ p.callGraph.units)
    (h : p.solveUnit config known u = .ok solved) {f : Func} (hf : f ∈ p.members u) :
    ∃ m ∈ solved, m.func = f :=
  List.mem_map.mp (map_func_solveUnit hu h ▸ hf)

theorem solved_nodup (hu : u ∈ p.callGraph.units) (h : p.solveUnit config known u = .ok solved) :
    (solved.map fun m => m.func.id).Nodup := by
  have hids := members_nodup hu
  rwa [← map_func_solveUnit hu h, List.map_map] at hids

/-- A unit is solved from the signatures of callees that are not solved with it. -/
theorem solveUnit_congr (hu : u ∈ p.callGraph.units)
    (h : ∀ f ∈ p.members u, ∀ c ∈ f.usage.calledFunctions, c ∉ (p.members u).map Func.id →
      known c = known' c) : p.solveUnit config known u = p.solveUnit config known' u := by
  unfold solveUnit
  split
  · exact solveTogether_congr h
  next hrec =>
    refine mapM_congr fun f hf => ?_
    have hsolve : Environment.solve ⟨p, config, known⟩ f f.usage =
        Environment.solve ⟨p, config, known'⟩ f f.usage := by
      refine Environment.solve_congr fun c hc => h f hf c hc fun hmem => ?_
      -- a member that is solved together with a callee of it makes the unit recursive
      have hcu := (mem_map_id_members.mp hmem).1
      rcases unit_of_called hu hf hc with ⟨htrue, -⟩ | ⟨v, hv, hcv, hcalls⟩
      · exact hrec htrue
      · exact hcalls.1 (CallGraph.unit_unique hv hcv hu hcu)
    rw [solveAlone, solveAlone, hsolve]

end Units

/-! ## Signatures of all functions -/

/-- The signature of a function that is defined but not accepted. -/
def rejectedSignature? (p : Program) (f : FuncId) : Option Signature :=
  (p.function? f).bind fun func =>
    if p.accepts f then none else some (.allMoved func.params.length)

/-- The unit of a function. -/
def unitOf? (p : Program) (f : FuncId) : Option AnalysisUnit :=
  p.callGraph.units.find? fun u => u.functions.contains f

/-- The level of the unit of a function. -/
def levelOf (p : Program) (f : FuncId) : Nat := ((p.unitOf? f).map AnalysisUnit.level).getD 0

/-- The signature of a function from those of the functions at lower levels. -/
def expectedSignature? (p : Program) (config : Config) (f : FuncId) : Option Signature :=
  (p.rejectedSignature? f).or <| (p.unitOf? f).bind fun u =>
    let known := fun c =>
      if _ : p.levelOf c < p.levelOf f then p.expectedSignature? config c
      else p.rejectedSignature? c
    match p.solveUnit config known u with
    | .ok solved => (solved.find? fun m => m.func.id = f).map fun m => m.solution.signature
    | .error _ => none
termination_by p.levelOf f

section Expected

variable {p : Program} {config : Config} {u : AnalysisUnit} {f : FuncId}

theorem rejectedSignature?_of_accepts (h : p.accepts f) : p.rejectedSignature? f = none := by
  obtain ⟨func, hfunc, -⟩ := accepts_iff.mp h
  rw [rejectedSignature?, hfunc, Option.bind_some, if_pos h]

theorem rejectedSignature?_of_not_accepts {func : Func} (hfunc : p.function? f = some func)
    (h : ¬ p.accepts f) : p.rejectedSignature? f = some (.allMoved func.params.length) := by
  rw [rejectedSignature?, hfunc, Option.bind_some, if_neg h]

theorem unitOf?_eq_some (hu : u ∈ p.callGraph.units) (hf : f ∈ u.functions) :
    p.unitOf? f = some u := by
  have hsome : (p.unitOf? f).isSome := List.find?_isSome.mpr ⟨u, hu, by simpa using hf⟩
  obtain ⟨v, hv⟩ := Option.isSome_iff_exists.mp hsome
  have hfv : f ∈ v.functions := by simpa using List.find?_some hv
  rw [hv, CallGraph.unit_unique (List.mem_of_find?_eq_some hv) hfv hu hf]

theorem levelOf_eq (hu : u ∈ p.callGraph.units) (hf : f ∈ u.functions) : p.levelOf f = u.level := by
  rw [levelOf, unitOf?_eq_some hu hf]
  rfl

/-- Restricted to lower levels, the signatures solve a unit as all of them do. -/
theorem solveUnit_expected (hu : u ∈ p.callGraph.units) :
    p.solveUnit config (fun c => if p.levelOf c < u.level then p.expectedSignature? config c
        else p.rejectedSignature? c) u =
      p.solveUnit config (p.expectedSignature? config) u := by
  refine solveUnit_congr hu fun func hfunc c hc hnot => ?_
  split
  next => rfl
  next hlevel =>
    rcases unit_of_called hu hfunc hc with ⟨-, hcu⟩ | ⟨v, hv, hcv, hcalls⟩
    · -- a member of the unit that is not solved with it was not accepted
      have hrejected : ¬ p.accepts c := fun haccepts =>
        hnot (mem_map_id_members.mpr ⟨hcu, haccepts⟩)
      have hdefines : p.defines c :=
        CallGraph.mem_units_functions.mp (List.mem_flatMap.mpr ⟨u, hu, hcu⟩)
      obtain ⟨other, hother⟩ := defines_iff.mp hdefines
      rw [expectedSignature?, rejectedSignature?_of_not_accepts hother hrejected, Option.some_or]
    · have hlt := CallGraph.level_lt_of_callsUnit hu hv hcalls
      rw [levelOf_eq hv hcv] at hlevel
      exact absurd hlt hlevel

/-- Every program has signatures that explain each other. -/
theorem exists_signed (p : Program) (config : Config) : ∃ known, p.Signed config known := by
  refine ⟨p.expectedSignature? config, fun f hf => ?_, fun f func hfunc hf => ?_,
    fun u hu solved hsolved m hm => ?_⟩
  · have hnone : p.function? f = none := by
      rw [Option.eq_none_iff_forall_ne_some]
      exact fun func hfunc => hf (defines_iff.mpr ⟨func, hfunc⟩)
    have hunit : p.unitOf? f = none := by
      rw [unitOf?, List.find?_eq_none]
      intro u hu hmem
      exact hf (CallGraph.mem_units_functions.mp
        (List.mem_flatMap.mpr ⟨u, hu, by simpa using hmem⟩))
    rw [expectedSignature?, rejectedSignature?, hnone, hunit]
    rfl
  · rw [expectedSignature?, rejectedSignature?_of_not_accepts hfunc hf, Option.some_or]
  · obtain ⟨hmem, hfunc, hvalid⟩ := mem_members.mp (func_mem_members hu hsolved hm)
    have hfind : (solved.find? fun x => x.func.id = m.func.id) = some m :=
      (Table.find?_key_iff (solved_nodup hu hsolved)).mpr ⟨hm, rfl⟩
    have hexpected := (solveUnit_expected hu).trans hsolved
    rw [expectedSignature?, rejectedSignature?_of_accepts (accepts_iff.mpr ⟨_, hfunc, hvalid⟩),
      Option.none_or, unitOf?_eq_some hu hmem, Option.bind_some]
    simp only [dite_eq_ite, levelOf_eq hu hmem, hexpected, hfind, Option.map_some]

end Expected

/-! ## Solving again -/

namespace Signed

variable {p : Program} {config : Config} {known : FuncId → Option Signature} {u : AnalysisUnit}
  {solved : List SolvedFunc} {m : SolvedFunc} {start last assumed : SignatureMap}

theorem assumingEnvironment_last (hk : p.Signed config known) (hu : u ∈ p.callGraph.units)
    (h : p.solveUnit config known u = .ok solved)
    (hrun : CycleRun p config known (p.members u) start last assumed true solved) :
    assumingEnvironment p config known last = ⟨p, config, known⟩ := by
  rw [assumingEnvironment]
  congr 1
  funext c
  by_cases hc : c ∈ (p.members u).map Func.id
  · obtain ⟨f, hf, rfl⟩ := List.mem_map.mp hc
    obtain ⟨m, hm, rfl⟩ := exists_mem_solved hu h hf
    rw [hrun.get?_last (members_nodup hu) hm, hk.solved u hu solved h m hm]
    exact Option.or_self
  · rw [hrun.covers.get?_eq_none hc, Option.none_or]

/-- Solved once more, now against the signatures of all functions, a function gets what it has, if
the signatures of its unit are final. -/
theorem solve_again (hk : p.Signed config known) (hu : u ∈ p.callGraph.units)
    (h : p.solveUnit config known u = .ok solved) (hm : m ∈ solved)
    (hfinal : u.recursive = false ∨ m.solution.signature.resolved = true) :
    ∃ s, Environment.solve ⟨p, config, known⟩ m.func m.func.usage = .ok s ∧
      m.solution = { s with signature := m.solution.signature } ∧
      s.signature.Within m.solution.signature ∧
      (u.recursive = false → s.signature = m.solution.signature) := by
  by_cases hrec : u.recursive = true
  · obtain ⟨start, last, assumed, converged, hrun⟩ := exists_cycleRun_of_solveUnit hu hrec h
    obtain ⟨sig, s, hsig, hsolve, hsolution⟩ := hrun.solution m hm
    obtain rfl : converged = true := by
      rcases hfinal with hsingle | hresolved
      · exact absurd hrec (by simp [hsingle])
      · rwa [hsolution] at hresolved
    have hmember : m.func ∈ p.members u := hrun.funcs ▸ List.mem_map_of_mem hm
    have hwithin := hrun.within (members_nodup hu) hmember hsig hsolve
    rw [hk.assumingEnvironment_last hu h hrun] at hsolve
    refine ⟨s, hsolve, ?_, ?_, fun hsingle => absurd hrec (by simp [hsingle])⟩
    · rw [hsolution]
    · rw [hsolution]
      exact hwithin
  · rw [solveUnit, if_neg hrec] at h
    obtain ⟨f, -, hf⟩ := mem_of_mapM_eq_ok h hm
    obtain ⟨rfl, hsolve⟩ := solveAlone_eq_ok hf
    exact ⟨m.solution, hsolve, rfl, .refl _, fun _ => rfl⟩

end Signed

end Program

end Tenure

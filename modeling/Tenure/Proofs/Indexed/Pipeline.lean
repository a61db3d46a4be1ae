import Tenure.Analysis
import Tenure.Proofs.Analysis.Order
import Tenure.Proofs.Indexed.Modes
import Tenure.Proofs.Indexed.Plan
import Tenure.Proofs.Placement.Rest

/-!
# The analysis of a function reads in range

The whole way of one function over tables: its modes, liveness, the two checks, the plan, the hints
and the listing. If the function passed the check of its program, then every read is in range. That
does not depend on how often the loops are run, so it also holds of a loop that never comes to rest
(`Program.reads_in_range_of_validateFunction`).
-/

namespace Tenure

/-- Analyse a function that does not depend on itself, and list it. -/
def analyzeAlone (p : Program) (config : Config) (known : FuncId → Option Signature) (f : Func) :
    Except Fault (FuncAnalysis × String) := do
  let solved ← solveAlone p config known f
  let analysis ← solved.finish config
  return (analysis, analysis.solution.annotatedListing f analysis.plan)

namespace Indexed

variable {env : Environment} {f : Func} {facts : Facts}

/-! ## Hints -/

/-- The hint about a parameter. Its declaration and its uses are looked up. -/
def paramHint (facts : Facts) (p : BindingId) : Option (Option Hint) := do
  let decl ← facts.func.bindings[p]?
  let uses ← facts.tables.usesOf p
  let own := { facts with solution := { facts.solution with uses } }
  return own.paramHint? p decl

/-- The hints about a function. -/
def hints (facts : Facts) (config : Config) (plan : Plan) : Option (List Hint) := do
  if config.suggestOptimizations then
    let params ← facts.func.params.mapM (paramHint facts)
    return params.filterMap id ++ facts.func.regions.flatMap (facts.regionHints config plan)
  else return []

/-! ## The listing -/

/-- The lines of a block. The uses in the block are looked up. -/
def annotatedBlock (facts : Facts) (a : Annotations) (block : Block) : Option String := do
  let uses ← (facts.usage.uses.filter fun u => u.point.block = block.id).mapM fun u =>
    facts.tables.use u.id
  return { facts.solution with uses }.annotatedBlock a block

/-- The listing of a function. The declarations are looked up. -/
def annotatedListing (facts : Facts) (plan : Plan) : Option String := do
  let bindings ← facts.func.bindingIds.mapM fun b => do
    let decl ← facts.func.bindings[b]?
    return listingLine 4
      (BindingId.text b ++ " " ++ decl.name ++ ": " ++ (facts.solution.mode b).text)
  let blocks ← facts.func.blocks.mapM (annotatedBlock facts plan.annotations)
  return listingLine 0 ("fn " ++ facts.func.name ++ facts.solution.signature.text ++ " \x7b")
    ++ String.join bindings
    ++ String.join blocks
    ++ listingLine 0 "\x7d"

section Output

variable (h : facts.Over env f)
include h

theorem paramHint_eq {p : BindingId} {decl : Binding} (hdecl : f.bindings[p]? = some decl) :
    paramHint facts p = some (facts.paramHint? p decl) := by
  rw [← h.func] at hdecl
  have hdeclared : p < facts.func.bindings.length := (List.getElem?_eq_some_iff.mp hdecl).1
  rw [paramHint, hdecl, some_bind, h.usesOf_eq hdeclared, some_bind]
  simp [Facts.paramHint?, Solution.liveUses, Solution.isReachable, List.filter_filter,
    Bool.and_comm]

theorem hints_eq {config : Config} {plan : Plan} {found : List Hint}
    (hfound : facts.hints config plan = .ok found) : hints facts config plan = some found := by
  unfold Facts.hints at hfound
  unfold hints
  split at hfound
  next hsuggest =>
    obtain ⟨params, hparams, hfound⟩ := bind_eq_ok.mp hfound
    rw [if_pos hsuggest, mapM_eq_some_of_ok hparams fun p _ hint hhint => ?_, some_bind,
      ← pure_eq_ok.mp hfound]
    · rfl
    obtain ⟨decl, hdecl, hhint⟩ := bind_eq_ok.mp hhint
    rw [Func.binding, lookup_eq_ok, h.func] at hdecl
    rw [paramHint_eq h hdecl, pure_eq_ok.mp hhint]
  next hsuggest =>
    rw [if_neg hsuggest, ← pure_eq_ok.mp hfound]
    rfl

theorem annotatedBlock_eq (a : Annotations) (block : Block) :
    annotatedBlock facts a block = some (facts.solution.annotatedBlock a block) := by
  let inside := facts.solution.uses.filter fun u => u.point.block = block.id
  have hinside : (facts.usage.uses.filter fun u => u.point.block = block.id) =
      inside.map SolvedUse.toUse := by
    have hrows : facts.solution.uses.map SolvedUse.toUse = facts.usage.uses := h.sound.uses
    rw [← hrows, List.filter_map]
    rfl
  -- the points that are listed are points of the block
  have hlines : ∀ i, ({ facts.solution with uses := inside } : Solution).useLines ⟨block.id, i⟩ =
      facts.solution.useLines ⟨block.id, i⟩ := by
    intro i
    have hsame : inside.filter (fun u => u.point = ⟨block.id, i⟩) =
        facts.solution.uses.filter fun u => u.point = ⟨block.id, i⟩ := by
      rw [List.filter_filter]
      refine List.filter_congr fun u _ => ?_
      by_cases hpoint : u.point = ⟨block.id, i⟩
      · simp [hpoint]
      · simp [hpoint]
    simp only [Solution.useLines, Solution.usesAt, hsame]
  have hmem : ∀ u ∈ inside, u ∈ facts.tables.uses := fun u hu => List.mem_of_mem_filter hu
  rw [annotatedBlock, hinside, h.sound.mapM_use hmem, some_bind]
  simp only [Solution.annotatedBlock, hlines]
  rfl

theorem annotatedListing_eq (plan : Plan) :
    annotatedListing facts plan = some (facts.solution.annotatedListing f plan) := by
  obtain rfl := h.func
  have hbindings : (facts.func.bindingIds.mapM fun b => do
      let decl ← facts.func.bindings[b]?
      return listingLine 4
        (BindingId.text b ++ " " ++ decl.name ++ ": " ++ (facts.solution.mode b).text)) =
      some (facts.func.bindings.zipIdx.map fun entry => listingLine 4
        (BindingId.text entry.2 ++ " " ++ entry.1.name ++ ": "
          ++ (facts.solution.mode entry.2).text)) := by
    refine mapM_range_eq_some fun b decl hdecl => ?_
    rw [hdecl]
    rfl
  rw [annotatedListing, hbindings, some_bind,
    mapM_eq_some_map fun block _ => annotatedBlock_eq h plan.annotations block]
  rfl

end Output

/-! ## All stages -/

/-- The loops in the analysis of a function. -/
inductive Loop where
  /-- The running modes of uses. -/
  | running
  | live
  /-- The moves that the linearity check looks at. -/
  | moves
  /-- The loans that the exclusivity check looks at. -/
  | loans
  /-- The holders of one allocation. -/
  | held (site : AllocSite)
deriving DecidableEq

/-- Analyse a function, with each loop cut off after a number of sweeps, and list it. -/
def analyze (env : Environment) (f : Func) (sweeps : Loop → Nat) :
    Option (FuncAnalysis × String) := do
  let solved ← solve env f f.usage (sweeps .running)
  let live ← liveness f f.usage (sweeps .live)
  let facts : Facts := ⟨f, f.usage, { solved with conflicts := [] }, live⟩
  let linear ← linearity facts (sweeps .moves)
  let exclusive ← exclusivity facts (sweeps .loans)
  let made ← plan facts env.config fun site => sweeps (.held site)
  let hints ← hints facts env.config made
  let listing ← annotatedListing facts made
  return ({
    function := f.id
    name := f.name
    usage := f.usage
    solution := facts.solution
    plan := made
    violations := Violation.sortByStart
      ([] ++ solved.conflicts ++ linear ++ exclusive ++ made.escapes)
    hints }, listing)

theorem analyze_mirrors (env : Environment) (hvalid : f.validate = .ok ()) :
    Mirrors (fun _ => True) (analyze env f)
      (analyzeAlone env.program env.config env.signature? f) := by
  have hf := Func.valid_of_validate hvalid
  unfold analyze
  simp only [analyzeAlone, solveAlone, SolvedFunc.finish, bind_assoc, pure_bind]
  refine (solve_mirrors env hf Loop.running).bind fun solved hsolved => ?_
  refine (liveness_mirrors hf Loop.live).bind fun live _ => ?_
  -- what the checks and the plan need is there before the two loops have come to rest
  have h : Facts.Over env f ⟨f, f.usage, { solved with conflicts := [] }, live⟩ :=
    ⟨rfl, rfl, hsolved.uses, hsolved.reachable, hsolved.decl, hsolved.required, hsolved.resolved⟩
  refine (linearity_mirrors h hf Loop.moves).bind fun linear _ => ?_
  refine (exclusivity_mirrors h hf Loop.loans).bind fun exclusive _ => ?_
  refine (plan_mirrors hvalid h env.config Loop.held).bind fun made _ => ?_
  obtain ⟨found, hfound⟩ := Facts.hints_isOk _ (h.func ▸ hf) env.config made
  rw [hfound, ok_bind, hints_eq h hfound, annotatedListing_eq h]
  exact .const rfl rfl trivial

end Indexed

namespace Program

open Facts

/-- Whatever the program, its configuration and the signatures of the callees: the analysis of an
accepted function reads in range, however often each of its loops is run. It gives what the analysis
gives if they are run often enough, and the analysis has no result only where one of them does not
come to rest. -/
theorem reads_in_range_of_validateFunction (p : Program) (config : Config)
    (known : FuncId → Option Signature) (f : Func) (h : p.validateFunction f = .ok ()) :
    (∀ sweeps, ∃ result, Indexed.analyze ⟨p, config, known⟩ f sweeps = some result) ∧
    (∀ result, analyzeAlone p config known f = .ok result →
      ∃ n, ∀ sweeps : Indexed.Loop → Nat, (∀ loop, n ≤ sweeps loop) →
        Indexed.analyze ⟨p, config, known⟩ f sweeps = some result) ∧
    ∀ fault, analyzeAlone p config known f = .error fault → fault = .unsettled := by
  have hvalid : f.validate = .ok () := (Check.bind_eq_ok.mp h).1
  have hmirrors := Indexed.analyze_mirrors ⟨p, config, known⟩ hvalid
  refine ⟨fun sweeps => ?_, hmirrors.limit, hmirrors.fault⟩
  obtain ⟨result, hresult, -⟩ := hmirrors.total sweeps
  exact ⟨result, hresult⟩

/-- The holders of the allocation in the crossed loops never come to rest, and still every read is
in range. -/
theorem crossedLoops_reads_in_range :
    refreshingEnv.program.validateFunction crossedLoops = .ok () ∧
    (∀ sweeps, ∃ result, Indexed.analyze refreshingEnv crossedLoops sweeps = some result) ∧
    (∀ result, analyzeAlone refreshingEnv.program refreshingEnv.config refreshingEnv.signature?
        crossedLoops = .ok result →
      ∃ n, ∀ sweeps : Indexed.Loop → Nat, (∀ loop, n ≤ sweeps loop) →
        Indexed.analyze refreshingEnv crossedLoops sweeps = some result) ∧
    ∀ fault, analyzeAlone refreshingEnv.program refreshingEnv.config refreshingEnv.signature?
      crossedLoops = .error fault → fault = .unsettled := by
  have hvalid : refreshingEnv.program.validateFunction crossedLoops = .ok () := by decide +kernel
  exact ⟨hvalid, reads_in_range_of_validateFunction _ _ _ _ hvalid⟩

end Program

/-- Without its declarations the function is not accepted, and a binding is looked up in vain. -/
example : Indexed.analyze Facts.refreshingEnv { Facts.crossedLoops with bindings := [] }
    (fun _ => 0) = none := by
  decide +kernel

end Tenure

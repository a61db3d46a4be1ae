import Tenure.Annotation
import Tenure.CallGraph
import Tenure.Exclusivity
import Tenure.Linearity
import Tenure.Placement
import Tenure.Report
import Tenure.Signature.Table

/-!
# Analysis of a program

The functions of a program are analysed unit by unit, callees before callers. A recursive unit is
solved repeatedly, with growing signatures, until they are stable or the limit is reached. Each
function's signature is published once, and callers only read published signatures.

A run may be told to stop before any unit; the units from then on are skipped.
-/

namespace Tenure

/-- All that a run finds out about one function. -/
structure FuncAnalysis where
  function : FuncId
  name : String
  usage : Usage
  solution : Solution
  plan : Plan
  /-- The violations by position. -/
  violations : List Violation
  hints : List Hint
deriving DecidableEq, Inhabited

/-- Signatures of some functions. -/
abbrev SignatureMap := List (FuncId × Signature)

/-- The signature of a function. -/
def SignatureMap.get? (signatures : SignatureMap) (f : FuncId) : Option Signature :=
  (signatures.find? fun entry => entry.1 = f).map Prod.snd

/-- The result of a run. -/
structure Analysis where
  file : String
  /-- The analysed functions in program order. -/
  functions : List FuncAnalysis
  /-- The published signatures. -/
  signatures : SignatureMap
  /-- The functions left out because the run was stopped, in program order. -/
  skipped : List FuncId
deriving DecidableEq, Inhabited

/-- Why a run has no result. -/
inductive Halt where
  | fault (cause : Fault)
  /-- A signature was published twice, or for an unknown function. -/
  | table (cause : TableError)
  /-- A signature was read that is not published yet. -/
  | waiting (function : FuncId)
deriving DecidableEq, Inhabited

/-- Pass a fault on. -/
def Halt.liftFault {α : Type} (result : Except Fault α) : Except Halt α :=
  result.mapError Halt.fault

/-- Pass a refused write on. -/
def Halt.liftTable {α : Type} (result : Except TableError α) : Except Halt α :=
  result.mapError Halt.table

/-! ## One function -/

/-- What is said about a body that failed validation. -/
def Func.malformedAnalysis (f : Func) (defect : Defect) : FuncAnalysis where
  function := f.id
  name := f.name
  usage := .empty
  solution := .unsolved (.allMoved f.params.length)
  plan := .empty
  violations := [.malformed f.name defect f.span]
  hints := []

/-- A function with its modes, and what was found while it was solved. -/
structure SolvedFunc where
  func : Func
  solution : Solution
  found : List Violation
deriving DecidableEq, Inhabited

/-- Check, plan and give hints for a solved function. Violations found before are listed with the
others, and the conflicts of the solution are handed over to them. -/
def SolvedFunc.finish (solved : SolvedFunc) (config : Config) : Except Fault FuncAnalysis := do
  let f := solved.func
  let usage := f.usage
  let solution := { solved.solution with conflicts := [] }
  let liveness ← f.liveness usage
  let facts : Facts := ⟨f, usage, solution, liveness⟩
  let linear ← Linearity.violations facts
  let exclusive ← Exclusivity.violations facts
  let plan ← facts.plan config
  let hints ← facts.hints config plan
  return {
    function := f.id
    name := f.name
    usage
    solution
    plan
    violations := Violation.sortByStart
      (solved.found ++ solved.solution.conflicts ++ linear ++ exclusive ++ plan.escapes)
    hints }

/-- Solve a function that does not depend on itself against known signatures. -/
def solveAlone (p : Program) (config : Config) (known : FuncId → Option Signature) (f : Func) :
    Except Fault SolvedFunc := do
  let solution ← Environment.solve ⟨p, config, known⟩ f f.usage
  return ⟨f, solution, []⟩

/-- The functions whose signatures are read when a function is solved. -/
def Usage.calledFunctions (u : Usage) : List FuncId :=
  u.uses.filterMap fun x => x.slot.bind fun slot => slot.callee.function?

/-! ## Recursive units -/

/-- The first assumption about a function: its keywords, and borrows for the rest. -/
def Func.initialSignature (f : Func) : Except Fault Signature := do
  let modes ← f.params.mapM fun p => do
    return (← f.binding p).fixedMode?.getD .immutableBorrow
  return .ofModes modes

/-- The first assumptions about the members of a unit. -/
def initialSignatures (members : List Func) : Except Fault SignatureMap :=
  members.mapM fun f => do
    return (f.id, ← f.initialSignature)

/-- Raise an assumed signature to what was found. -/
def Signature.raise (assumed found : Signature) : Signature :=
  .ofModes (List.zipWith Mode.lub assumed.params found.params)

/-- The environment in which members of a unit are solved: their assumed signatures first, then the
known ones. -/
def assumingEnvironment (p : Program) (config : Config) (known : FuncId → Option Signature)
    (assumed : SignatureMap) : Environment :=
  ⟨p, config, fun f => (assumed.get? f).or (known f)⟩

/-- The outcome of solving a recursive unit. -/
structure CycleOutcome where
  assumed : SignatureMap
  solutions : List Solution
  converged : Bool
deriving DecidableEq, Inhabited

/-- Solve all members under the assumptions, and raise the assumptions. -/
def solveRound (p : Program) (config : Config) (known : FuncId → Option Signature)
    (members : List Func) (assumed : SignatureMap) :
    Except Fault (List Solution × SignatureMap) := do
  let env := assumingEnvironment p config known assumed
  let solutions ← members.mapM fun f => env.solve f f.usage
  let raised := List.zipWith
    (fun (entry : FuncId × Signature) (s : Solution) => (entry.1, entry.2.raise s.signature))
    assumed solutions
  return (solutions, raised)

/-- Rounds until the assumptions are stable, one and at most `more` further ones. -/
def solveCycle (p : Program) (config : Config) (known : FuncId → Option Signature)
    (members : List Func) : Nat → SignatureMap → Except Fault CycleOutcome
  | 0, assumed => do
    let (solutions, raised) ← solveRound p config known members assumed
    return if raised = assumed then ⟨assumed, solutions, true⟩ else ⟨raised, solutions, false⟩
  | more + 1, assumed => do
    let (solutions, raised) ← solveRound p config known members assumed
    if raised = assumed then return ⟨assumed, solutions, true⟩
    else solveCycle p config known members more raised

/-- Solve the members of a recursive unit together against known signatures. They get the signatures
that were assumed last. -/
def solveTogether (p : Program) (config : Config) (known : FuncId → Option Signature)
    (members : List Func) : Except Fault (List SolvedFunc) := do
  let start ← initialSignatures members
  let limit := max config.maxSignatureIterations 1
  let outcome ← solveCycle p config known members (limit - 1) start
  let names := members.map Func.name
  return (members.zip (outcome.assumed.zip outcome.solutions)).map fun (f, (entry, solution)) =>
    { func := f
      solution := { solution with signature := { entry.2 with resolved := outcome.converged } }
      found :=
        if outcome.converged then []
        else [.unstableSignature f.name names limit f.span] }

/-! ## Units -/

/-- What a run has come to. -/
structure RunState where
  table : SignatureTable
  finished : List FuncAnalysis
  skipped : List FuncId
deriving DecidableEq, Inhabited

namespace RunState

/-- Whether a function is analysed already. -/
def isFinished (s : RunState) (f : FuncId) : Bool := s.finished.any fun a => a.function = f

/-- Enter the analysis of a function and publish its signature. -/
def publish (s : RunState) (a : FuncAnalysis) : Except Halt RunState := do
  let table ← Halt.liftTable (s.table.finalize a.function a.solution.signature)
  return { s with table, finished := s.finished ++ [a] }

/-- Report a function if it is malformed, and give it the safe signature. -/
def check (p : Program) (s : RunState) (f : Func) : Except Halt RunState :=
  match p.validateFunction f with
  | .ok _ => .ok s
  | .error (.defect d) => s.publish (f.malformedAnalysis d)
  | .error (.fault x) => .error (.fault x)

/-- The members of a unit that are still to be analysed. -/
def members (s : RunState) (p : Program) (unit : AnalysisUnit) : List Func :=
  (unit.functions.filter fun f => !s.isFinished f).filterMap p.function?

/-- All signatures that are read are published, or assumed. -/
def requirePublished (s : RunState) (assumed : List FuncId) (u : Usage) : Except Halt Unit :=
  match u.calledFunctions.find? fun f => !assumed.contains f && s.table.isPending f with
  | some f => .error (.waiting f)
  | none => .ok ()

/-- Leave the members of a unit out. -/
def skip (s : RunState) (members : List Func) : RunState :=
  { s with
    table := members.foldl (fun t f => t.abandon f.id) s.table
    skipped := s.skipped ++ members.map Func.id }

/-- Analyse a function that does not depend on itself. -/
def runSingle (p : Program) (config : Config) (s : RunState) (f : Func) : Except Halt RunState := do
  s.requirePublished [] f.usage
  let solved ← Halt.liftFault (solveAlone p config s.table.get? f)
  s.publish (← Halt.liftFault (solved.finish config))

/-- Analyse the members of a recursive unit together. -/
def runCycle (p : Program) (config : Config) (s : RunState) (members : List Func) :
    Except Halt RunState := do
  members.forM fun f => s.requirePublished (members.map Func.id) f.usage
  let solved ← Halt.liftFault (solveTogether p config s.table.get? members)
  let analyses ← Halt.liftFault (solved.mapM fun m => m.finish config)
  analyses.foldlM RunState.publish s

/-- Run one unit. -/
def runUnit (p : Program) (config : Config) (s : RunState) (unit : AnalysisUnit) (stop : Bool) :
    Except Halt RunState :=
  let members := s.members p unit
  if stop then .ok (s.skip members)
  else if unit.recursive then s.runCycle p config members
  else members.foldlM (runSingle p config) s

end RunState

/-! ## Programs -/

namespace Program

/-- Before any unit runs, malformed functions are reported. -/
def startRun (p : Program) : Except Halt RunState :=
  let table := SignatureTable.ofFunctions (p.functions.map fun f => (f.id, f.name))
  p.functions.foldlM (RunState.check p) ⟨table, [], []⟩

/-- Run units in order. `stop i` says whether the run is stopped when unit `i` is due. -/
def runUnits (p : Program) (config : Config) (stop : Nat → Bool) (units : List AnalysisUnit)
    (s : RunState) : Except Halt RunState :=
  units.zipIdx.foldlM (fun s (unit, i) => s.runUnit p config unit (stop i)) s

/-- The result of a run, in program order. -/
def collect (p : Program) (s : RunState) : Analysis where
  file := p.file
  functions := p.functions.filterMap fun f => s.finished.find? fun a => a.function = f.id
  signatures := s.table.snapshot
  skipped := (p.functions.map Func.id).filter s.skipped.contains

/-- Analyse a program unit by unit, in a given order. -/
def analyzeUnits (p : Program) (config : Config) (stop : Nat → Bool) (units : List AnalysisUnit) :
    Except Halt Analysis := do
  let started ← p.startRun
  let finished ← p.runUnits config stop units started
  return p.collect finished

/-- Analyse a program level by level. -/
def analyze (p : Program) (config : Config) (stop : Nat → Bool) : Except Halt Analysis :=
  p.analyzeUnits config stop p.callGraph.levels.flatten

end Program

namespace FuncAnalysis

/-- Whether something is wrong with the function. -/
def hasErrors (a : FuncAnalysis) : Bool := !a.violations.isEmpty

/-- The mode of the first binding with a name. -/
def modeOf? (a : FuncAnalysis) (f : Func) (name : String) : Option Mode :=
  (f.bindings.findIdx? fun decl => decl.name = name).map a.solution.mode

/-- The listing of the function with its modes and inserted instructions. -/
def listing (a : FuncAnalysis) (f : Func) : String := a.solution.annotatedListing f a.plan

end FuncAnalysis

namespace Analysis

/-- The published signature of a function. -/
def signature? (a : Analysis) (f : FuncId) : Option Signature := a.signatures.get? f

/-- The first analysed function with a name. -/
def function? (a : Analysis) (name : String) : Option FuncAnalysis :=
  a.functions.find? fun f => f.name = name

/-- Whether something is wrong with some function. -/
def hasErrors (a : Analysis) : Bool := a.functions.any FuncAnalysis.hasErrors

/-- The number of violations. -/
def errorCount (a : Analysis) : Nat :=
  a.functions.foldl (fun n f => n + f.violations.length) 0

/-- The diagnostics of a run: function by function, violations before hints. -/
def diagnostics (a : Analysis) : List Diagnostic :=
  a.functions.flatMap fun f =>
    f.violations.map (fun v => v.toDiagnostic a.file) ++ f.hints.map fun h => h.toDiagnostic a.file

end Analysis

end Tenure

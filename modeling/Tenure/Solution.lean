import Tenure.Config
import Tenure.Forward
import Tenure.Signature
import Tenure.Violation

/-!
# Modes of uses and bindings

Every use gets the mode its operation needs, unless a keyword pins it. A binding gets the least
upper bound over its reachable uses, unless a keyword on its declaration fixes it. A forward pass
adds to each use the running mode: what has happened to the binding on the paths up to and including
the use, since its last definition.

Whether the modes fit together is not decided here.
-/

namespace Tenure

/-- What a function is solved against. -/
structure Environment where
  program : Program
  config : Config
  /-- The known signatures of functions. -/
  signature? : FuncId → Option Signature

/-- A use with its declaration and its modes. -/
structure SolvedUse extends Use where
  decl : Binding
  /-- What the operation needs, before any keyword. -/
  required : Mode
  /-- The mode after a keyword on the use. -/
  resolved : Mode
  /-- The mode of the binding right after the use, over all paths to it. -/
  running : Mode
deriving DecidableEq, Inhabited

/-- The modes of one function. -/
structure Solution where
  /-- All uses in program order. -/
  uses : List SolvedUse
  /-- The mode of each binding. -/
  modes : List Mode
  signature : Signature
  /-- The reachable blocks in ascending order. -/
  reachable : List BlockId
  /-- Keywords that grant less than is needed. -/
  conflicts : List Violation
deriving DecidableEq, Inhabited

/-! ## Modes of single uses -/

namespace Environment

/-- What a callee's parameter needs from its argument. An argument is evaluated even if the callee
ignores it. Without a parameter the value is handed on as a whole. -/
def paramMode (env : Environment) : Option ParamSlot → Mode
  | none => .moved
  | some slot =>
    let wanted :=
      match slot.callee with
      | .function f => ((env.signature? f).bind fun s => s.param? slot.index).getD .moved
      | .foreign name =>
        let declared := (env.program.foreign? name).bind fun d => d.params[slot.index]?
        ((declared.bind id).map Mode.ofKeyword).getD env.config.defaultForeignMode
      | .constructor _ => .moved
    wanted.lub .immutableBorrow

/-- What a use across a suspension needs. -/
def suspensionMode (env : Environment) (decl : Binding) : Mode :=
  match env.config.suspensionPolicy with
  | .alwaysMove => .moved
  | .mutableBorrow => .mutableBorrow
  | .moveCallerOwned => if decl.isParam then .moved else .mutableBorrow

/-- What an access needs from a whole value. -/
def wholeMode (env : Environment) (a : Access) (decl : Binding) : Mode :=
  match a.kind with
  | .read => .immutableBorrow
  | .fieldWrite => .mutableBorrow
  | .receiver | .argument | .capture => env.paramMode a.slot
  | .returned => .moved
  | .reference isMutable => if isMutable then .mutableBorrow else .immutableBorrow
  | .suspended => env.suspensionMode decl

/-- What an access needs, before keywords. A field never takes its base along, and a value of a copy
type is copied and not moved. -/
def requiredMode (env : Environment) (a : Access) (decl : Binding) : Mode :=
  let whole := env.wholeMode a decl
  let base := if a.field.isSome then whole.glb .mutableBorrow else whole
  if decl.ty.isCopy && base = .moved then .immutableBorrow else base

/-- The mode of an access: that of its keyword, else the required one. -/
def resolvedMode (env : Environment) (a : Access) (decl : Binding) : Mode :=
  match a.keyword with
  | some keyword => Mode.ofKeyword keyword
  | none => env.requiredMode a decl

/-- The keyword of a use that grants less than the use needs. At a suspension the programmer's word
stands. -/
def useConflict? (env : Environment) (a : Access) (decl : Binding) : Option Violation :=
  match a.keyword with
  | some keyword =>
    let required := env.requiredMode a decl
    if !required.within (Mode.ofKeyword keyword) && a.kind ≠ .suspended then
      some (.keywordConflict decl.name a.keyword false required a.span a.span)
    else none
  | none => none

/-- The keyword of a declaration that grants less than a use has. -/
def declarationConflict? (env : Environment) (a : Access) (decl : Binding) : Option Violation :=
  match decl.fixedMode? with
  | some fixed =>
    let resolved := env.resolvedMode a decl
    if resolved.within fixed then none
    else some (.keywordConflict decl.name decl.keyword true resolved a.span decl.span)
  | none => none

/-- The first keyword that a use conflicts with. -/
def conflict? (env : Environment) (a : Access) (decl : Binding) : Option Violation :=
  (env.useConflict? a decl).or (env.declarationConflict? a decl)

/-- A use with its modes; the running mode is still that of the use alone. -/
def solveUse (env : Environment) (f : Func) (u : Use) : Except Fault SolvedUse := do
  let decl ← f.binding u.binding
  let resolved := env.resolvedMode u.toAccess decl
  return { u with
    decl
    required := env.requiredMode u.toAccess decl
    resolved
    running := resolved }

end Environment

/-! ## Running modes -/

/-- The modes of all bindings at a point. -/
abbrev ModeState := List Mode

/-- Take a use into account. -/
def ModeState.use (s : ModeState) (u : SolvedUse) : ModeState :=
  s.modify u.binding fun m => m.lub u.resolved

/-- The forward analysis of running modes. A definition starts its binding afresh. -/
def runningModes (width : Nat) (u : Usage) (uses : List SolvedUse) : Forward ModeState where
  start := List.replicate width .unused
  join := List.zipWith Mode.lub
  step := fun p s =>
    let used := (uses.filter fun x => x.point = p).foldl ModeState.use s
    match u.definitionAt p with
    | some b => used.set b .unused
    | none => used

/-- Enter the running modes into uses that follow each other at one point, from the modes before
them. -/
def annotateAt : ModeState → List SolvedUse → List (UseId × Mode)
  | _, [] => []
  | s, u :: rest =>
    let next := s.use u
    (u.id, next.getD u.binding .unused) :: annotateAt next rest

/-- The definitions that the blocks in order pass must be of declared bindings. -/
def Func.checkDefinitions (f : Func) (u : Usage) (order : List BlockId) : Except Fault Unit :=
  ((order.flatMap f.pointsOf).filterMap u.definitionAt).forM fun b => do
    let _ ← f.binding b

/-- The running modes of the uses that the blocks in order pass, from the modes at the ends of
blocks. -/
def runningEntries (f : Func) (u : Usage) (uses : List SolvedUse) (order : List BlockId)
    (exits : List ModeState) : List (UseId × Mode) :=
  order.flatMap fun b =>
    ((runningModes f.bindings.length u uses).trace f exits b).flatMap fun (p, s) =>
      annotateAt s (uses.filter fun x => x.point = p)

/-- Enter running modes into uses. -/
def enterRunning (uses : List SolvedUse) (entries : List (UseId × Mode)) : List SolvedUse :=
  uses.map fun x =>
    match entries.find? fun entry => entry.1 = x.id with
    | some (_, mode) => { x with running := mode }
    | none => x

/-- The uses with their running modes. A use in dead code keeps its own mode. -/
def annotateRunning (f : Func) (u : Usage) (uses : List SolvedUse) :
    Except Fault (List SolvedUse) := do
  let order ← f.reversePostorder
  f.checkDefinitions u order
  let width := f.bindings.length
  let exits ← (runningModes width u uses).exits f order (Nat.pow 4 width)
  return enterRunning uses (runningEntries f u uses order exits)

/-! ## The solution of a function -/

/-- The mode of a binding: that of the keyword on its declaration, else the least upper bound of its
uses. -/
def bindingMode (uses : List SolvedUse) (b : BindingId) (decl : Binding) : Mode :=
  match decl.fixedMode? with
  | some fixed => fixed
  | none => Mode.lubAll ((uses.filter fun x => x.binding = b).map SolvedUse.resolved)

/-- Solve a function. A use of a binding that is not declared is a fault, also in dead code. -/
def Environment.solve (env : Environment) (f : Func) (u : Usage) : Except Fault Solution := do
  let reachable ← f.reachable
  let uses ← u.uses.mapM (env.solveUse f)
  let live := uses.filter fun x => reachable.contains x.point.block
  let modes := f.bindings.zipIdx.map fun (decl, b) => bindingMode live b decl
  let annotated ← annotateRunning f u uses
  let params ← f.params.mapM fun p => lookup modes p (.noBinding p)
  return {
    uses := annotated
    modes
    signature := .ofModes params
    reachable
    conflicts := live.filterMap fun x => env.conflict? x.toAccess x.decl }

namespace Solution

/-- The placeholder for a function that was not solved. -/
def unsolved (signature : Signature) : Solution := ⟨[], [], signature, [], []⟩

/-- The mode of a binding. -/
def mode (s : Solution) (b : BindingId) : Mode := s.modes.getD b .unused

/-- Whether a point is in a reachable block. -/
def isReachable (s : Solution) (p : Point) : Bool := s.reachable.contains p.block

/-- The uses at a point in the order of evaluation. -/
def usesAt (s : Solution) (p : Point) : List SolvedUse := s.uses.filter fun x => x.point = p

/-- The uses in reachable blocks. -/
def liveUses (s : Solution) : List SolvedUse := s.uses.filter fun x => s.isReachable x.point

end Solution

end Tenure

import Tenure.Ir.Program

/-!
# Validation of functions

The analyses expect every id to be in range, every block to be closed and the regions to form a tree
below the body region. `Func.validate` reports the first defect it meets, in a fixed order: the
blocks as a whole, the regions, the bindings, the parameters, and then block by block.
-/

namespace Tenure

/-! ## Defects -/

/-- A structural problem of a function body, named with the function. -/
inductive Defect where
  | emptyFunction (function : String)
  | missingTerminator (function : String) (block : BlockId)
  | unknownBlock (function : String) (block : BlockId)
  | unknownBinding (function : String) (binding : BindingId)
  | unknownRegion (function : String) (region : RegionId)
  | unknownAlloc (function : String) (alloc : AllocId)
  | unknownFunction (function : String) (callee : FuncId)
  | missingBodyRegion (function : String)
  | orphanedRegion (function : String) (region : RegionId)
  | circularRegion (function : String) (region : RegionId)
  | duplicateAllocation (function : String) (alloc : AllocId)
  | invalidParameter (function : String) (binding : BindingId)
deriving DecidableEq, Inhabited

/-- The message of a defect. -/
def Defect.message : Defect → String
  | emptyFunction f => "function `" ++ f ++ "` has no basic blocks"
  | missingTerminator f b => "block " ++ BlockId.text b ++ " in `" ++ f ++ "` has no terminator"
  | unknownBlock f b => "`" ++ f ++ "` refers to unknown block " ++ BlockId.text b
  | unknownBinding f b => "`" ++ f ++ "` refers to unknown binding " ++ BindingId.text b
  | unknownRegion f r => "`" ++ f ++ "` refers to unknown region " ++ RegionId.text r
  | unknownAlloc f a => "`" ++ f ++ "` refers to unknown allocation site " ++ AllocId.text a
  | unknownFunction f c => "`" ++ f ++ "` calls undefined function " ++ FuncId.text c
  | missingBodyRegion f => "`" ++ f ++ "` does not have exactly one function-body region at r0"
  | orphanedRegion f r => "region " ++ RegionId.text r ++ " in `" ++ f ++ "` has no parent"
  | circularRegion f r => "region " ++ RegionId.text r ++ " in `" ++ f ++ "` is its own ancestor"
  | duplicateAllocation f a =>
    "allocation site " ++ AllocId.text a ++ " in `" ++ f
      ++ "` is evaluated by more than one expression"
  | invalidParameter f b =>
    "parameter list of `" ++ f ++ "` names non-parameter binding " ++ BindingId.text b

/-- Why a function is not accepted. -/
inductive Rejection where
  | defect (cause : Defect)
  /-- The check itself ran into an id that is not there. -/
  | fault (cause : Fault)
deriving DecidableEq, Inhabited

/-- A check that accepts or names the first reason against. -/
abbrev Check := Except Rejection Unit

/-- Accept if the condition holds. -/
def Check.require (condition : Bool) (defect : Defect) : Check :=
  if condition then .ok () else .error (.defect defect)

/-- Check every element in order. -/
def Check.all {α : Type} (check : α → Check) : List α → Check
  | [] => .ok ()
  | x :: rest => do
    check x
    Check.all check rest

namespace Func

open Check

/-! ## Ids -/

/-- The block is there. -/
def checkBlock (f : Func) (b : BlockId) : Check :=
  require (b < f.blocks.length) (.unknownBlock f.name b)

/-- The binding is declared. -/
def checkBinding (f : Func) (b : BindingId) : Check :=
  require (b < f.bindings.length) (.unknownBinding f.name b)

/-- The region is declared. -/
def checkRegion (f : Func) (r : RegionId) : Check :=
  require (r < f.regions.length) (.unknownRegion f.name r)

/-- The binding an operand mentions is declared. -/
def checkOperand (f : Func) (op : Operand) : Check :=
  match op.occurrence? with
  | some o => f.checkBinding o.binding
  | none => .ok ()

/-! ## Regions -/

/-- Follow the parent links from `r`. Coming back to `start`, or more links than there are regions,
is a cycle; a link to a region that is not there is a fault. -/
def checkRoot (f : Func) (start : RegionId) : Nat → RegionId → Check
  | 0, _ => .error (.defect (.circularRegion f.name start))
  | steps + 1, r =>
    if r = start then .error (.defect (.circularRegion f.name start))
    else
      match f.regions[r]? with
      | none => .error (.fault (.noRegion r))
      | some decl =>
        match decl.parent with
        | none => .ok ()
        | some parent => f.checkRoot start steps parent

/-- A region other than the first: its id is its position, it has a declared parent and an existing
exit, and its parent links end. -/
def checkNested (f : Func) (index : RegionId) (decl : Region) : Check := do
  require (decl.id = index) (.unknownRegion f.name decl.id)
  match decl.parent with
  | none => .error (.defect (.orphanedRegion f.name index))
  | some parent =>
    require (parent < f.regions.length) (.orphanedRegion f.name index)
    match decl.exit with
    | some exit => f.checkBlock exit
    | none => .ok ()
    f.checkRoot index (f.regions.length + 1) parent

/-- Region 0 is the only body region and has no parent. -/
def hasBodyRegion (f : Func) : Bool :=
  (match f.regions.head? with
    | some decl => decl.kind = .body && decl.parent.isNone
    | none => false)
  && f.regions.countP (fun decl => decl.kind = .body) = 1

/-- The regions form a tree below the body. -/
def checkRegions (f : Func) : Check := do
  require f.hasBodyRegion (.missingBodyRegion f.name)
  Check.all (fun (decl, index) => f.checkNested index decl) (f.regions.zipIdx.drop 1)

/-! ## Bindings -/

/-- A binding is declared in an existing region, and a parameter is in the parameter list. -/
def checkDeclaration (f : Func) (b : BindingId) (decl : Binding) : Check := do
  f.checkRegion decl.region
  require (!decl.isParam || f.params.contains b) (.invalidParameter f.name b)

/-- The parameter list names a parameter. -/
def checkParam (f : Func) (b : BindingId) : Check := do
  f.checkBinding b
  require (f.bindings[b]?.any Binding.isParam) (.invalidParameter f.name b)

/-! ## Blocks -/

/-- A right-hand side, where `seen` are the allocation sites evaluated before it. -/
def checkRvalue (f : Func) (seen : List AllocId) (value : Rvalue) : Check := do
  match value.site? with
  | some site =>
    require (site < f.allocations.length) (.unknownAlloc f.name site)
    require (!seen.contains site) (.duplicateAllocation f.name site)
  | none => .ok ()
  Check.all f.checkOperand value.operands

/-- A statement, where `seen` are the allocation sites evaluated before it. -/
def checkStatement (f : Func) (seen : List AllocId) : StatementKind → Check
  | .assign dest value => do
    f.checkBinding dest
    f.checkRvalue seen value
  | .fieldWrite target _ value => do
    f.checkBinding target.binding
    f.checkRvalue seen value
  | .eval value => f.checkRvalue seen value
  | .suspend _ captures => Check.all f.checkOperand captures
  | .send channel value => do
    f.checkOperand channel
    f.checkOperand value

/-- The allocation site a statement evaluates. -/
def statementSite? (s : Statement) : Option AllocId := s.kind.rvalue?.bind Rvalue.site?

/-- Statements in order, where `seen` are the allocation sites evaluated before them. -/
def checkStatements (f : Func) : List AllocId → List Statement → Check
  | _, [] => .ok ()
  | seen, s :: rest => do
    f.checkStatement seen s.kind
    f.checkStatements ((statementSite? s).toList ++ seen) rest

/-- A terminator reads declared bindings and jumps to existing blocks. -/
def checkTerminator (f : Func) (kind : TerminatorKind) : Check := do
  match kind with
  | .branch cond _ _ => f.checkOperand cond
  | .ret (some value) => f.checkOperand value
  | _ => .ok ()
  Check.all f.checkBlock kind.successors

/-- Blocks from position `index` on, where `seen` are the allocation sites evaluated before them. -/
def checkBlocks (f : Func) : List AllocId → BlockId → List Block → Check
  | _, _, [] => .ok ()
  | seen, index, block :: rest => do
    require (block.id = index) (.unknownBlock f.name block.id)
    f.checkRegion block.region
    f.checkStatements seen block.statements
    match block.terminator with
    | some t => f.checkTerminator t.kind
    | none => .error (.defect (.missingTerminator f.name block.id))
    f.checkBlocks ((block.statements.filterMap statementSite?) ++ seen) (index + 1) rest

/-! ## The whole function -/

/-- Accept a function whose ids are in range, whose blocks are closed and whose regions form a
tree. -/
def validate (f : Func) : Check := do
  require (!f.blocks.isEmpty) (.emptyFunction f.name)
  f.checkRegions
  Check.all (fun (decl, b) => f.checkDeclaration b decl) f.bindings.zipIdx
  Check.all f.checkParam f.params
  f.checkBlocks [] 0 f.blocks

/-- The right-hand sides of a function in order. -/
def rvalues (f : Func) : List Rvalue :=
  f.blocks.flatMap fun block => block.statements.filterMap fun s => s.kind.rvalue?

/-- The functions that are called or made into closures, in order. -/
def directCallees (f : Func) : List FuncId := f.rvalues.filterMap Rvalue.target?

end Func

namespace Program

/-- Accept a function that is valid by itself and calls defined functions only. -/
def validateFunction (p : Program) (f : Func) : Check := do
  f.validate
  Check.all (fun callee => Check.require (p.defines callee) (.unknownFunction f.name callee))
    f.directCallees

end Program

end Tenure

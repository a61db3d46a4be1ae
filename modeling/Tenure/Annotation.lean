import Tenure.Ascending
import Tenure.Ir.Printer
import Tenure.Placement.Plan
import Tenure.Solution

/-!
# Annotations for code generation

The instructions that a plan inserts into a function, ordered by the place of insertion, and a
listing of the function with the modes of all uses and the inserted instructions.
-/

namespace Tenure

/-- Where an instruction is inserted. -/
inductive InsertPoint where
  /-- After a statement, or after the operands of a terminator. -/
  | after (point : Point)
  /-- Before the return that ends a block. -/
  | beforeReturn (block : BlockId)
  /-- On the way from one block to another. -/
  | edge (source target : BlockId)
deriving DecidableEq, Inhabited

namespace InsertPoint

/-- Points come before returns and returns before edges; within each, the ids decide. -/
def key : InsertPoint → List Nat
  | after point => [0, point.block, point.index]
  | beforeReturn block => [1, block]
  | edge source target => [2, source, target]

/-- The place for a single free. -/
def ofFreePoint : FreePoint → InsertPoint
  | .after point => after point
  | .edge source target => edge source target

/-- The place for a bulk free. -/
def ofExit (exit : RegionExit) : InsertPoint :=
  match exit.target with
  | some target => edge exit.source target
  | none => beforeReturn exit.source

end InsertPoint

/-- An instruction that frees memory. -/
inductive Instruction where
  | free (alloc : AllocId)
  | regionDealloc (region : RegionId) (allocs : List AllocId)
deriving DecidableEq, Inhabited

/-- An instruction as listings write it. -/
def Instruction.text : Instruction → String
  | free alloc => "free " ++ AllocId.text alloc
  | regionDealloc region allocs =>
    "region_dealloc " ++ RegionId.text region ++ " ["
      ++ commaSeparated (allocs.map AllocId.text) ++ "]"

/-- The instructions to insert into a function, ordered by their places. -/
structure Annotations where
  insertions : List (InsertPoint × Instruction)
deriving DecidableEq, Inhabited

/-- The instructions of a plan. At one place single frees come first, then the bulk frees in the
order of the plan. -/
def Plan.annotations (p : Plan) : Annotations :=
  let frees := p.frees.map fun (alloc, point) =>
    (InsertPoint.ofFreePoint point, Instruction.free alloc)
  let deallocs := p.deallocs.map fun d =>
    (InsertPoint.ofExit d.exit, Instruction.regionDealloc d.region d.allocs)
  ⟨(frees ++ deallocs).mergeSort fun a b => keyBefore a.1.key b.1.key⟩

namespace Annotations

/-- The instructions at a place. -/
def instructionsAt (a : Annotations) (place : InsertPoint) : List Instruction :=
  (a.insertions.filter fun entry => entry.1 = place).map Prod.snd

/-- Drop repetitions that follow each other. -/
def dropRepeats : List (BlockId × BlockId) → List (BlockId × BlockId)
  | [] => []
  | [e] => [e]
  | e :: next :: rest =>
    if e = next then dropRepeats (next :: rest) else e :: dropRepeats (next :: rest)

/-- The edges that instructions are inserted on. -/
def edges (a : Annotations) : List (BlockId × BlockId) :=
  dropRepeats <| a.insertions.filterMap fun entry =>
    match entry.1 with
    | .edge source target => some (source, target)
    | _ => none

end Annotations

/-! ## The annotated listing -/

namespace Solution

/-- The lines for the uses at a point. -/
def useLines (s : Solution) (p : Point) : String :=
  String.join <| (s.usesAt p).map fun u =>
    listingLine 12 ("// " ++ UseId.text u.id ++ " " ++ u.decl.name ++ " (" ++ u.kind.text ++ "): "
      ++ u.resolved.text ++ ", running " ++ u.running.text)

/-- The lines for inserted instructions. -/
def instructionLines (instructions : List Instruction) : String :=
  String.join <| instructions.map fun i => listingLine 8 i.text

/-- The lines of a block. -/
def annotatedBlock (s : Solution) (a : Annotations) (block : Block) : String :=
  let marker := if s.reachable.contains block.id then "" else " unreachable"
  let header := BlockId.text block.id ++ " (" ++ RegionId.text block.region ++ ")" ++ marker ++ ":"
  let statements := block.statements.zipIdx.map fun (statement, index) =>
    let p : Point := ⟨block.id, index⟩
    listingLine 8 statement.kind.text ++ s.useLines p
      ++ instructionLines (a.instructionsAt (.after p))
  let last : Point := ⟨block.id, block.statements.length⟩
  let leaving := block.successors.flatMap fun target =>
    (a.instructionsAt (.edge block.id target)).map fun i =>
      listingLine 8
        ("on " ++ BlockId.text block.id ++ " -> " ++ BlockId.text target ++ ": " ++ i.text)
  "\n" ++ listingLine 4 header
    ++ String.join statements
    ++ instructionLines (a.instructionsAt (.beforeReturn block.id))
    ++ listingLine 8 block.closingText
    ++ s.useLines last
    ++ instructionLines (a.instructionsAt (.after last))
    ++ String.join leaving

/-- The listing of a function with its modes and inserted instructions. -/
def annotatedListing (s : Solution) (f : Func) (plan : Plan) : String :=
  let bindings := f.bindings.zipIdx.map fun (decl, b) =>
    listingLine 4 (BindingId.text b ++ " " ++ decl.name ++ ": " ++ (s.mode b).text)
  listingLine 0 ("fn " ++ f.name ++ s.signature.text ++ " \x7b")
    ++ String.join bindings
    ++ String.join (f.blocks.map (s.annotatedBlock plan.annotations))
    ++ listingLine 0 "\x7d"

end Solution

end Tenure

import Tenure.Ir.Func

/-!
# Building functions

A builder grows a function one declaration, block or statement at a time. It keeps the block that
statements go to and the regions that are open, so that every new block and binding belongs to the
innermost open region.

A new id is the length of its table, whatever that is: the ids of a function with more than `2 ^ 32`
blocks, bindings, regions or allocations still differ, which they would not if they were cut to 32
bits.
-/

namespace Tenure

/-- A function under construction. -/
structure Builder where
  func : Func
  current : BlockId
  /-- The open regions, the innermost first. The body region stays at the end. -/
  scopes : List RegionId
deriving DecidableEq, Inhabited

namespace Builder

/-- A function with its body region and an open entry block. -/
def start (id : FuncId) (name : String) (span : Span) : Builder where
  func :=
    { id, name, span
      params := []
      bindings := []
      blocks := [⟨Func.entry, Func.bodyRegion, [], none⟩]
      regions := [⟨Func.bodyRegion, .body, none, none, span⟩]
      allocations := []
      isAsync := false }
  current := Func.entry
  scopes := [Func.bodyRegion]

/-- The innermost open region. -/
def currentRegion (b : Builder) : RegionId := b.scopes.headD Func.bodyRegion

/-- Mark the function as asynchronous or not. -/
def setAsync (b : Builder) (isAsync : Bool) : Builder :=
  { b with func := { b.func with isAsync } }

/-! ## Bindings and allocation sites -/

/-- Declare a binding in the innermost open region. -/
def declare (b : Builder) (name : String) (ty : Ty) (kind : BindingKind) (keyword : Option Keyword)
    (span : Span) : BindingId × Builder :=
  let id := b.func.bindings.length
  let decl : Binding := ⟨name, ty, kind, b.currentRegion, keyword, span⟩
  let params := if kind = .param then b.func.params ++ [id] else b.func.params
  (id, { b with func := { b.func with bindings := b.func.bindings ++ [decl], params } })

/-- A new allocation site. -/
def allocSite (b : Builder) (span : Span) : AllocId × Builder :=
  (b.func.allocations.length,
   { b with func := { b.func with allocations := b.func.allocations ++ [span] } })

/-! ## Blocks and regions -/

/-- A new open block in the given region. -/
def newBlockIn (b : Builder) (region : RegionId) : BlockId × Builder :=
  let id := b.func.blocks.length
  (id, { b with func := { b.func with blocks := b.func.blocks ++ [⟨id, region, [], none⟩] } })

/-- A new open block in the innermost open region. -/
def newBlock (b : Builder) : BlockId × Builder := b.newBlockIn b.currentRegion

/-- Let statements go to another block. -/
def switchTo (b : Builder) (block : BlockId) : Builder := { b with current := block }

/-- Open a region inside the innermost open one. Gives the region and its first block. -/
def openRegion (b : Builder) (kind : RegionKind) (span : Span) : (RegionId × BlockId) × Builder :=
  let id := b.func.regions.length
  let decl : Region := ⟨id, kind, some b.currentRegion, none, span⟩
  let opened :=
    { b with
      func := { b.func with regions := b.func.regions ++ [decl] }
      scopes := id :: b.scopes }
  let (first, grown) := opened.newBlock
  ((id, first), grown)

/-- Close the innermost region. The new block, in the region around it, is where control falls
through to. The body region stays open. -/
def closeRegion (b : Builder) : BlockId × Builder :=
  match b.scopes with
  | region :: outer :: rest =>
    let (exit, grown) := { b with scopes := outer :: rest }.newBlock
    let regions := grown.func.regions.modify region fun decl => { decl with exit := some exit }
    (exit, { grown with func := { grown.func with regions } })
  | _ => b.newBlock

/-! ## Statements and terminators -/

/-- Change the current block; without effect if it is not there. -/
def modifyCurrent (b : Builder) (change : Block → Block) : Builder :=
  { b with func := { b.func with blocks := b.func.blocks.modify b.current change } }

/-- Append a statement to the current block. -/
def push (b : Builder) (kind : StatementKind) (span : Span) : Builder :=
  b.modifyCurrent fun block => { block with statements := block.statements ++ [⟨kind, span⟩] }

/-- Close the current block, or close it differently. -/
def terminate (b : Builder) (kind : TerminatorKind) (span : Span) : Builder :=
  b.modifyCurrent fun block => { block with terminator := some ⟨kind, span⟩ }

/-- The function built so far. -/
def finish (b : Builder) : Func := b.func

end Builder

end Tenure

import Tenure.Ir.Value

/-!
# Statements, terminators and blocks

A block is a list of statements closed by a terminator. Its program points are its statements in
order and, as the last one, its terminator; `Block.steps` lists what happens at each of them.
-/

namespace Tenure

/-! ## Statements -/

/-- Why a computation is suspended. -/
inductive SuspendKind where
  | await
  | yield
deriving DecidableEq, Inhabited

/-- What a statement does. -/
inductive StatementKind where
  /-- Initialises a binding, or initialises it again. -/
  | assign (dest : BindingId) (value : Rvalue)
  /-- Overwrites one field of a binding. -/
  | fieldWrite (target : Occurrence) (field : String) (value : Rvalue)
  /-- Computes a value and drops it. -/
  | eval (value : Rvalue)
  /-- Suspends; the captures are kept across the suspension. -/
  | suspend (kind : SuspendKind) (captures : List Operand)
  /-- Sends a message across a channel. -/
  | send (channel value : Operand)
deriving DecidableEq, Inhabited

/-- The right-hand side a statement evaluates. -/
def StatementKind.rvalue? : StatementKind → Option Rvalue
  | assign _ value => some value
  | fieldWrite _ _ value => some value
  | eval value => some value
  | suspend _ _ => none
  | send _ _ => none

/-- A statement and where it stands. -/
structure Statement where
  kind : StatementKind
  span : Span
deriving DecidableEq, Inhabited

/-! ## Terminators -/

/-- How control leaves a block. -/
inductive TerminatorKind where
  | goto (target : BlockId)
  | branch (cond : Operand) (onTrue onFalse : BlockId)
  | ret (value : Option Operand)
  | unreachable
deriving DecidableEq, Inhabited

/-- The blocks control may go to, each named once. -/
def TerminatorKind.successors : TerminatorKind → List BlockId
  | goto target => [target]
  | branch _ onTrue onFalse => if onTrue = onFalse then [onTrue] else [onTrue, onFalse]
  | ret _ => []
  | unreachable => []

/-- A terminator and where it stands. -/
structure Terminator where
  kind : TerminatorKind
  span : Span
deriving DecidableEq, Inhabited

/-! ## Blocks -/

/-- A basic block. It carries the id it was declared under, which validation compares with its
position in the function. -/
structure Block where
  id : BlockId
  /-- The innermost region around the block. -/
  region : RegionId
  statements : List Statement
  terminator : Option Terminator
deriving DecidableEq, Inhabited

/-- What happens at one program point. -/
inductive Step where
  | statement (s : Statement)
  | terminator (t : Option Terminator)
deriving DecidableEq, Inhabited

namespace Block

/-- The blocks control may go to; none while the block is open. -/
def successors (b : Block) : List BlockId :=
  match b.terminator with
  | some t => t.kind.successors
  | none => []

/-- Whether the block ends the function. -/
def isReturn (b : Block) : Bool :=
  match b.terminator with
  | some ⟨.ret _, _⟩ => true
  | _ => false

/-- The program points of the block in order: every statement, then the terminator. -/
def steps (b : Block) : List Step :=
  b.statements.map Step.statement ++ [Step.terminator b.terminator]

end Block

/-! ## Program points -/

/-- Statement `index` of a block; the index after the last statement is the terminator. -/
structure Point where
  block : BlockId
  index : Nat
deriving DecidableEq, Inhabited

namespace Point

/-- How listings name a program point. -/
def text (p : Point) : String := s!"bb{p.block}[{p.index}]"

end Point

end Tenure

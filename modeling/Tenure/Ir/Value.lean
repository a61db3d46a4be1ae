import Tenure.Decimal.Double
import Tenure.Mode

/-!
# Operands and right-hand sides

The values a function body computes with: ids, types, constants, operands that mention bindings,
and the right-hand sides built from them. All names are resolved; an id is an index into a table
of the enclosing function, or for functions a number unique in the program.
-/

namespace Tenure

/-! ## Spans -/

/-- A byte range, `start` inclusive and `stop` exclusive. The two ends need not be in order. -/
structure Span where
  start : Nat
  stop : Nat
deriving DecidableEq, Inhabited

namespace Span

/-- The empty range at the start of the file, used where no position is known. -/
def unknown : Span := ⟨0, 0⟩

/-- The smallest range that reaches over both. -/
def merge (a b : Span) : Span := ⟨min a.start b.start, max a.stop b.stop⟩

end Span

/-!
## Ids

Ids are natural numbers without a bound. Kept in 32 bits they would repeat in a table of more than
`2 ^ 32` entries.
-/

/-- A function of the program. -/
abbrev FuncId := Nat

/-- A `let`, `var` or parameter of a function. -/
abbrev BindingId := Nat

/-- A basic block of a function. -/
abbrev BlockId := Nat

/-- A lexical allocation region of a function. -/
abbrev RegionId := Nat

/-- An allocation expression of a function. -/
abbrev AllocId := Nat

/-- How listings name a function id. -/
def FuncId.text (f : FuncId) : String := s!"fn{f}"

/-- How listings name a binding id. -/
def BindingId.text (b : BindingId) : String := s!"_{b}"

/-- How listings name a block. -/
def BlockId.text (b : BlockId) : String := s!"bb{b}"

/-- How listings name a region. -/
def RegionId.text (r : RegionId) : String := s!"r{r}"

/-- How listings name an allocation site. -/
def AllocId.text (a : AllocId) : String := s!"alloc{a}"

/-! ## Types -/

/-- The resolved type of a binding. -/
inductive Ty where
  | unit
  | bool
  | int
  | float
  | char
  | str
  /-- A user-defined type. -/
  | named (name : String)
  | array (element : Ty)
  /-- A reference made by a borrow expression. -/
  | ref (target : Ty)
  | closure
deriving DecidableEq, Inhabited

namespace Ty

/-- Values of these types are duplicated on transfer. -/
def isCopy : Ty → Bool
  | unit | bool | int | float | char => true
  | _ => false

/-- The type as listings write it. -/
def text : Ty → String
  | unit => "()"
  | bool => "Bool"
  | int => "Int"
  | float => "Float"
  | char => "Char"
  | str => "String"
  | named name => name
  | array element => "[" ++ element.text ++ "]"
  | ref target => "ref " ++ target.text
  | closure => "closure"

end Ty

/-! ## Operands -/

/-- One written occurrence of a binding, with the keyword in front of it. -/
structure Occurrence where
  binding : BindingId
  keyword : Option Keyword
  span : Span
deriving DecidableEq, Inhabited

/-- A literal value. -/
inductive Constant where
  | unit
  | bool (value : Bool)
  | int (value : Int)
  | float (value : Double)
  | str (value : String)
deriving DecidableEq, Inhabited

/-- Something an instruction reads. -/
inductive Operand where
  /-- A whole binding. -/
  | binding (occurrence : Occurrence)
  /-- A field read out of a binding. -/
  | field (occurrence : Occurrence) (name : String)
  | constant (value : Constant)
deriving DecidableEq, Inhabited

namespace Operand

/-- The occurrence inside an operand. -/
def occurrence? : Operand → Option Occurrence
  | binding o => some o
  | field o _ => some o
  | constant _ => none

/-- The field an operand projects out of its binding. -/
def field? : Operand → Option String
  | field _ name => some name
  | _ => none

end Operand

/-! ## Right-hand sides -/

/-- The resolved target of a call. -/
inductive Callee where
  /-- A function of this program. -/
  | function (id : FuncId)
  /-- A foreign function with declared passing conventions. -/
  | foreign (name : String)
  /-- Construction of an aggregate, which takes its arguments by value. -/
  | constructor (name : String)
deriving DecidableEq, Inhabited

/-- The function of this program that a callee names. -/
def Callee.function? : Callee → Option FuncId
  | function id => some id
  | _ => none

/-- Binary operators. -/
inductive BinaryOp where
  | add
  | sub
  | mul
  | div
  | eq
  | ne
  | lt
  | le
  | gt
  | ge
  | and
  | or
deriving DecidableEq, Inhabited

/-- The operator as it is written. -/
def BinaryOp.symbol : BinaryOp → String
  | add => "+"
  | sub => "-"
  | mul => "*"
  | div => "/"
  | eq => "=="
  | ne => "!="
  | lt => "<"
  | le => "<="
  | gt => ">"
  | ge => ">="
  | and => "and"
  | or => "or"

/-- What an instruction computes. -/
inductive Rvalue where
  /-- Hands on the value of an operand. -/
  | use (operand : Operand)
  | call (callee : Callee) (args : List Operand)
  /-- A method call; the receiver is the callee's parameter 0. -/
  | method (callee : Callee) (receiver : Operand) (args : List Operand)
  /-- A heap allocation at a numbered site. -/
  | alloc (site : AllocId) (args : List Operand)
  /-- A borrow expression. -/
  | ref (operand : Operand) (isMutable : Bool)
  /-- A closure; its captures feed the leading parameters of its function. -/
  | closure (function : Option FuncId) (captures : List Operand)
  | binary (op : BinaryOp) (left right : Operand)
deriving DecidableEq, Inhabited

namespace Rvalue

/-- The operands in the order of their evaluation. -/
def operands : Rvalue → List Operand
  | use operand => [operand]
  | call _ args => args
  | method _ receiver args => receiver :: args
  | alloc _ args => args
  | ref operand _ => [operand]
  | closure _ captures => captures
  | binary _ left right => [left, right]

/-- The target of a call or method call. -/
def callee? : Rvalue → Option Callee
  | call callee _ => some callee
  | method callee _ _ => some callee
  | _ => none

/-- The function of this program that is called, or that a closure is made of. -/
def target? : Rvalue → Option FuncId
  | call callee _ => callee.function?
  | method callee _ _ => callee.function?
  | closure function _ => function
  | _ => none

/-- The allocation site that is evaluated. -/
def site? : Rvalue → Option AllocId
  | alloc site _ => some site
  | _ => none

end Rvalue

end Tenure

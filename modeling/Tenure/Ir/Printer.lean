import Tenure.Decimal.Shortest
import Tenure.Ir.Program
import Tenure.Text.Printable

/-!
# Listings

The readable form of functions and of their parts, one statement a line.
-/

namespace Tenure

/-- Texts in a row with commas between them. -/
def commaSeparated (texts : List String) : String := ", ".intercalate texts

/-- A line of a listing, indented by some columns. -/
def listingLine (indent : Nat) (text : String) : String :=
  String.ofList (List.replicate indent ' ') ++ text ++ "\n"

/-! ## Operands and right-hand sides -/

/-- A constant. -/
def Constant.text : Constant → String
  | unit => "()"
  | bool value => if value then "true" else "false"
  | int value => toString value
  | float value => value.text
  | str value => Text.quoted value

/-- An occurrence behind its keyword. -/
def Occurrence.text (o : Occurrence) : String :=
  match o.keyword with
  | some keyword => keyword.text ++ " " ++ BindingId.text o.binding
  | none => BindingId.text o.binding

/-- An operand. -/
def Operand.text : Operand → String
  | binding o => o.text
  | field o name => o.text ++ "." ++ name
  | constant value => value.text

/-- Operands in a row. -/
def operandsText (operands : List Operand) : String := commaSeparated (operands.map Operand.text)

/-- A call target. -/
def Callee.text : Callee → String
  | function id => FuncId.text id
  | foreign name => "extern " ++ name
  | constructor name => name

/-- A right-hand side. -/
def Rvalue.text : Rvalue → String
  | use operand => operand.text
  | call callee args => callee.text ++ "(" ++ operandsText args ++ ")"
  | method callee receiver args =>
    receiver.text ++ "." ++ callee.text ++ "(" ++ operandsText args ++ ")"
  | alloc site args => AllocId.text site ++ "(" ++ operandsText args ++ ")"
  | ref operand isMutable => (if isMutable then "&mut " else "&") ++ operand.text
  | closure function captures =>
    "closure " ++ (function.map FuncId.text).getD "" ++ "[" ++ operandsText captures ++ "]"
  | binary op left right => left.text ++ " " ++ op.symbol ++ " " ++ right.text

/-! ## Statements and terminators -/

/-- The word for a suspension. -/
def SuspendKind.text : SuspendKind → String
  | await => "await"
  | yield => "yield"

/-- A statement. -/
def StatementKind.text : StatementKind → String
  | assign dest value => BindingId.text dest ++ " = " ++ value.text
  | fieldWrite target field value => target.text ++ "." ++ field ++ " = " ++ value.text
  | eval value => value.text
  | suspend kind captures => kind.text ++ " [" ++ operandsText captures ++ "]"
  | send channel value => "send " ++ channel.text ++ " <- " ++ value.text

/-- A terminator. -/
def TerminatorKind.text : TerminatorKind → String
  | goto target => "goto " ++ BlockId.text target
  | branch cond onTrue onFalse =>
    "branch " ++ cond.text ++ " -> [" ++ BlockId.text onTrue ++ ", " ++ BlockId.text onFalse ++ "]"
  | ret (some value) => "return " ++ value.text
  | ret none => "return"
  | unreachable => "unreachable"

/-- The line that closes a block. -/
def Block.closingText (b : Block) : String :=
  match b.terminator with
  | some t => t.kind.text
  | none => "<unterminated>"

/-! ## Functions and programs -/

/-- The word for a kind of binding. -/
def BindingKind.text : BindingKind → String
  | param => "param"
  | letBound => "let"
  | varBound => "var"

/-- A parameter in the header. -/
def Binding.headerText (b : Binding) : String :=
  let typed := b.name ++ ": " ++ b.ty.text
  match b.keyword with
  | some keyword => keyword.text ++ " " ++ typed
  | none => typed

/-- The line of a binding. -/
def Binding.line (b : Binding) (id : BindingId) : String :=
  b.kind.text ++ " " ++ BindingId.text id ++ ": " ++ b.ty.text ++ " // " ++ b.name ++ " in "
    ++ RegionId.text b.region

/-- The line of a region. -/
def Region.line (r : Region) : String :=
  let named := r.kind.keyword ++ " " ++ RegionId.text r.id
  let nested := (r.parent.map fun p => " in " ++ RegionId.text p).getD ""
  let left := (r.exit.map fun b => " exits to " ++ BlockId.text b).getD ""
  named ++ nested ++ left

/-- The lines of a block after a blank line. -/
def Block.listing (b : Block) : String :=
  "\n" ++ listingLine 4 (BlockId.text b.id ++ " (" ++ RegionId.text b.region ++ "):")
    ++ String.join (b.statements.map fun s => listingLine 8 s.kind.text)
    ++ listingLine 8 b.closingText

/-- The listing of a function. A parameter that is not declared is a fault. -/
def Func.listing (f : Func) : Except Fault String := do
  let params ← f.params.mapM f.binding
  let word := if f.isAsync then "async fn " else "fn "
  let header := word ++ f.name ++ "(" ++ commaSeparated (params.map Binding.headerText) ++ ") \x7b"
  return listingLine 0 header
    ++ String.join (f.bindings.zipIdx.map fun (b, id) => listingLine 4 (b.line id))
    ++ String.join (f.regions.map fun r => listingLine 4 r.line)
    ++ String.join (f.blocks.map Block.listing)
    ++ listingLine 0 "\x7d"

/-- The listings of all functions, each followed by a blank line. -/
def Program.listing (p : Program) : Except Fault String := do
  let listings ← p.functions.mapM Func.listing
  return String.join (listings.map fun text => text ++ "\n")

end Tenure

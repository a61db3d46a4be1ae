import Tenure.Ir.Block

/-!
# Accesses

What the operands at one program point do with the bindings they mention. `Step.accesses` lists them
in the order of evaluation: the operands of a right-hand side first, then the target of a field
write.

An access also says what becomes of the value: whether a loan is taken, whether the value flows into
another binding, and whether it is stored into a field.
-/

namespace Tenure

/-- What an access does with its binding. -/
inductive UseKind where
  /-- Reads the value or one of its fields. -/
  | read
  /-- Overwrites a field. -/
  | fieldWrite
  /-- Passes the receiver of a method call. -/
  | receiver
  /-- Passes an argument, or hands the value on. -/
  | argument
  /-- Returns the value to the caller. -/
  | returned
  /-- Captures the value in a closure. -/
  | capture
  /-- Keeps the value across an await, a yield or a message. -/
  | suspended
  /-- Takes a reference. -/
  | reference (isMutable : Bool)
deriving DecidableEq, Inhabited

/-- The kind as listings name it. -/
def UseKind.text : UseKind → String
  | read => "read"
  | fieldWrite => "field write"
  | receiver => "method receiver"
  | argument => "argument"
  | returned => "return value"
  | capture => "closure capture"
  | suspended => "capture across suspension"
  | reference true => "mutable borrow expression"
  | reference false => "borrow expression"

/-- The callee's parameter that an argument feeds. -/
structure ParamSlot where
  callee : Callee
  index : Nat
deriving DecidableEq, Inhabited

/-- What a loan was taken by. -/
inductive LoanOrigin where
  | reference (isMutable : Bool)
  /-- A closure capture, which lends only if the closure borrows it. -/
  | capture
deriving DecidableEq, Inhabited

/-- How a value reaches another binding. -/
inductive FlowKind where
  /-- The value itself moves on. -/
  | own
  /-- A reference to the value is made. -/
  | borrow
  /-- The value moves on if the use that passes it moves, else a reference to it does. -/
  | byMode
deriving DecidableEq, Inhabited

/-- An occurrence of a binding together with all that its operand position says about it. -/
structure Access where
  binding : BindingId
  kind : UseKind
  span : Span
  keyword : Option Keyword
  slot : Option ParamSlot
  /-- The field, if only a field is accessed. -/
  field : Option String
  /-- Whether the operand is evaluated together with the others of its call or capture list. -/
  isGrouped : Bool
  /-- The loan taken by this access, and the binding that holds the reference. -/
  loan : Option (LoanOrigin × Option BindingId)
  /-- Where the value flows to, and how. -/
  flow : Option (BindingId × FlowKind)
  /-- The binding into a field of which the value is stored. -/
  storedInto : Option BindingId
deriving DecidableEq, Inhabited

namespace Access

/-- An access with no further effect. -/
def plain (o : Occurrence) (kind : UseKind) (field : Option String) : Access where
  binding := o.binding
  kind := kind
  span := o.span
  keyword := o.keyword
  slot := none
  field := field
  isGrouped := false
  loan := none
  flow := none
  storedInto := none

/-- The access of an operand; a constant accesses nothing. -/
def ofOperand (op : Operand) (kind : UseKind) : List Access :=
  match op.occurrence? with
  | some o => [plain o kind op.field?]
  | none => []

/-- The access of an operand that stands in an argument list. -/
def ofArgument (op : Operand) (kind : UseKind) (slot : Option ParamSlot) : List Access :=
  (ofOperand op kind).map fun a => { a with slot, isGrouped := true }

end Access

/-! ## Right-hand sides -/

namespace Rvalue

/-- The arguments of a call, numbered from `first`. -/
def argumentAccesses (callee : Callee) (first : Nat) (args : List Operand) : List Access :=
  (args.zipIdx first).flatMap fun (arg, index) =>
    Access.ofArgument arg .argument (some ⟨callee, index⟩)

/-- The accesses of a right-hand side whose value initialises `dest`. -/
def accesses (dest : Option BindingId) : Rvalue → List Access
  | use (.binding o) =>
    match dest with
    | some d => [{ Access.plain o .argument none with flow := some (d, .own) }]
    | none => [Access.plain o .read none]
  | use op => Access.ofOperand op .read
  | call callee args =>
    let passed := argumentAccesses callee 0 args
    match callee with
    | .constructor _ => passed.map fun a => { a with flow := dest.map fun d => (d, .byMode) }
    | _ => passed
  | method callee receiver args =>
    Access.ofArgument receiver .receiver (some ⟨callee, 0⟩) ++ argumentAccesses callee 1 args
  | alloc _ args => args.flatMap fun arg => Access.ofArgument arg .argument none
  | ref operand isMutable =>
    (Access.ofOperand operand (.reference isMutable)).map fun a =>
      { a with
        loan := some (.reference isMutable, dest)
        flow := dest.map fun d => (d, .borrow) }
  | closure function captures =>
    captures.zipIdx.flatMap fun (capture, index) =>
      (Access.ofArgument capture .capture (function.map fun f => ⟨.function f, index⟩)).map fun a =>
        { a with
          loan := some (.capture, dest)
          flow := dest.map fun d => (d, .byMode) }
  | binary _ left right => Access.ofOperand left .read ++ Access.ofOperand right .read

/-- Whether the operands are evaluated together. -/
def isGrouping : Rvalue → Bool
  | call _ _ | method _ _ _ | alloc _ _ | closure _ _ => true
  | use _ | ref _ _ | binary _ _ _ => false

end Rvalue

/-! ## Statements and terminators -/

namespace StatementKind

/-- The accesses of a statement. -/
def accesses : StatementKind → List Access
  | assign dest value => value.accesses (some dest)
  | fieldWrite target field value =>
    let stored :=
      match value with
      | .use (.binding o) =>
        [{ Access.plain o .argument none with
            flow := some (target.binding, .byMode)
            storedInto := some target.binding }]
      | _ => value.accesses none
    stored ++ [Access.plain target .fieldWrite (some field)]
  | eval value => value.accesses none
  | suspend _ captures => captures.flatMap fun op => Access.ofArgument op .suspended none
  | send channel value =>
    Access.ofOperand channel .read ++
      match value with
      | .binding _ => Access.ofArgument value .suspended none
      | _ => Access.ofOperand value .read

/-- Whether the statement evaluates operands together. -/
def isGrouping : StatementKind → Bool
  | assign _ value | fieldWrite _ _ value | eval value => value.isGrouping
  | suspend _ _ | send _ _ => true

end StatementKind

/-- The accesses of a terminator. -/
def TerminatorKind.accesses : TerminatorKind → List Access
  | branch cond _ _ => Access.ofOperand cond .read
  | ret (some (.binding o)) => [Access.plain o .returned none]
  | ret (some op) => Access.ofOperand op .read
  | ret none | goto _ | unreachable => []

namespace Step

/-- The accesses at a program point. -/
def accesses : Step → List Access
  | statement s => s.kind.accesses
  | terminator (some t) => t.kind.accesses
  | terminator none => []

/-- Whether operands are evaluated together at a program point. -/
def isGrouping : Step → Bool
  | statement s => s.kind.isGrouping
  | terminator _ => false

end Step

end Tenure

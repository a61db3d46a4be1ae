import Tenure.Placement.Holders

/-!
# Escapes

A use lets a value out of the function when it returns the value, keeps it across a suspension or
stores it into a parameter. For an owner that is a transfer of ownership. For a reference to a local
or to an allocation of the function it is an escape.
-/

namespace Tenure.Facts

/-- Whether a use stores its value into a field of a parameter. -/
def storesIntoCaller (facts : Facts) (u : SolvedUse) : Bool := u.storedInto.any facts.isParam

/-- How a use lets its value outlive the function. -/
def escapeRoute? (facts : Facts) (u : SolvedUse) : Option EscapeRoute :=
  match u.kind with
  | .returned => some .returned
  | .suspended => some .suspension
  | _ => if facts.storesIntoCaller u then some .callerStore else none

/-- Whether the use of an owner hands the value to somebody outside the function. A closure stays
inside and carries its captures along. -/
def isTransfer (facts : Facts) (u : SolvedUse) : Bool :=
  match u.kind with
  | .returned => true
  | .suspended => u.resolved = .moved
  | .capture => false
  | _ =>
    u.resolved = .moved && u.field.isNone &&
      ((u.slot.any fun slot =>
        match slot.callee with
        | .function _ | .foreign _ => true
        | .constructor _ => false)
      || facts.storesIntoCaller u)

/-- The uses of some references that let them out. -/
def escapesOf (facts : Facts) (refs : List BindingId) (subject : EscapeSubject) (origin : Span) :
    List (UseId × Violation) :=
  facts.solution.liveUses.filterMap fun u =>
    if refs.contains u.binding then
      (facts.escapeRoute? u).map fun route => (u.id, .regionEscape subject route u.span origin)
    else none

/-- Whether a use makes a reference to a local that a binding holds, and which binding that is. -/
def localLoan? (facts : Facts) (u : SolvedUse) : Option BindingId :=
  match u.loan with
  | some (.reference _, holder) => if facts.isLocal u.binding then holder else none
  | some (.capture, holder) =>
    if facts.isLocal u.binding && u.resolved.isBorrow then holder else none
  | none => none

/-- The escapes of references to locals. -/
def localEscapes (facts : Facts) : Except Fault (List (UseId × Violation)) := do
  let perLoan ← facts.solution.liveUses.mapM fun u =>
    match facts.localLoan? u with
    | some holder => do
      let held ← facts.propagate ⟨[], [holder]⟩
      return facts.escapesOf held.refs (.localBinding u.decl.name) u.span
    | none => .ok []
  return perLoan.flatten

end Tenure.Facts

import Tenure.Facts

/-!
# Exclusivity

A mutable borrow or a move of a binding may not overlap with any other access to it: neither within
one call or capture list, nor with a loan that is still held by a live binding.
-/

namespace Tenure.Exclusivity

/-- Whether two accesses exclude each other. -/
def overlaps (existing requested : Mode) : Bool :=
  existing ≠ .unused && requested ≠ .unused && (existing.isExclusive || requested.isExclusive)

/-- Whether two uses are of different fields. -/
def disjointFields (a b : SolvedUse) : Bool :=
  match a.field, b.field with
  | some x, some y => x ≠ y
  | _, _ => false

/-- The report on a use that overlaps with another access. -/
def conflict (u : SolvedUse) (existingSpan : Span) (existing : Mode) : Violation :=
  .conflictingBorrow u.decl.name u.id u.span u.resolved existingSpan existing

/-! ## Operands of one call -/

/-- Whether `first` and `later` are operands of one call that exclude each other. -/
def clash (first later : SolvedUse) : Bool :=
  first.id < later.id && first.group.isSome && first.group = later.group
    && first.binding = later.binding && !disjointFields first later
    && overlaps first.resolved later.resolved

/-- Every operand that an earlier operand of its call excludes. -/
def groupConflicts (s : Solution) : List (UseId × Violation) :=
  s.liveUses.filterMap fun later =>
    (s.liveUses.find? fun first => clash first later).map fun first =>
      (later.id, conflict later first.span first.resolved)

/-! ## Loans -/

/-- A loan that a binding holds. -/
structure Loan where
  /-- The use that took the loan. -/
  use : UseId
  span : Span
  borrowed : BindingId
  isMutable : Bool
  holder : BindingId
  /-- The holder and every binding its value is moved on to. -/
  aliases : List BindingId
  point : Point
deriving DecidableEq, Inhabited

/-- The bindings a value moves on to directly. -/
def ownTargets (uses : List SolvedUse) (b : BindingId) : List BindingId :=
  uses.filterMap fun u =>
    match u.flow with
    | some (target, .own) => if u.binding = b then some target else none
    | _ => none

/-- A binding and every binding its value may be moved on to. -/
def ownAliases (uses : List SolvedUse) (holder : BindingId) : List BindingId :=
  Graph.reach (ownTargets uses) (uses.length + 1) [holder]

/-- Whether the loan of a use is mutable; a capture that moves its value is no loan. -/
def lends? (u : SolvedUse) : LoanOrigin → Option Bool
  | .reference isMutable => some isMutable
  | .capture => if u.resolved.isBorrow then some (u.resolved = .mutableBorrow) else none

/-- The loan that a use takes into a holder. -/
def loanOf? (uses : List SolvedUse) (u : SolvedUse) : Option Loan :=
  match u.loan with
  | some (origin, some holder) =>
    (lends? u origin).map fun isMutable =>
      { use := u.id
        span := u.span
        borrowed := u.binding
        isMutable
        holder
        aliases := ownAliases uses holder
        point := u.point }
  | _ => none

/-- The loans of a function in the order they are taken. -/
def loans (s : Solution) : List Loan := s.uses.filterMap (loanOf? s.uses)

/-- The mode a loan keeps its binding in. -/
def Loan.mode (loan : Loan) : Mode := if loan.isMutable then .mutableBorrow else .immutableBorrow

/-- The forward analysis of the loans that reach a point. A definition of the holder ends a loan. -/
def reaching (u : Usage) (loans : List Loan) : Forward (List Bool) where
  start := List.replicate loans.length false
  join := List.zipWith (· || ·)
  step := fun p s =>
    (loans.zip s).map fun (loan, reaches) =>
      loan.point = p || (reaches && u.definitionAt p ≠ some loan.holder)

/-- Every use at a point that a loan reaching it excludes. A loan counts while the holder or an
alias of it is live. -/
def loanConflictsAt (facts : Facts) (loans : List Loan) (p : Point) (s : List Bool) :
    List (UseId × Violation) :=
  let live := facts.liveness.liveIn p
  let active := (loans.zip s).filter fun (loan, reaches) => reaches && live.containsAny loan.aliases
  active.flatMap fun (loan, _) =>
    ((facts.solution.usesAt p).filter fun u =>
      u.binding = loan.borrowed && u.id ≠ loan.use && overlaps loan.mode u.resolved).map fun u =>
        (u.id, conflict u loan.span loan.mode)

/-- Every use that a loan excludes. -/
def loanConflicts (facts : Facts) : Except Fault (List (UseId × Violation)) := do
  let taken := loans facts.solution
  let order ← facts.func.reversePostorder
  let analysis := reaching facts.usage taken
  let exits ← analysis.exits facts.func order (Nat.pow 2 taken.length)
  return facts.solution.reachable.flatMap fun b =>
    (analysis.trace facts.func exits b).flatMap fun (p, s) => loanConflictsAt facts taken p s

/-- Every use that overlaps with an access it excludes or that excludes it, each once. -/
def violations (facts : Facts) : Except Fault (List Violation) := do
  let held ← loanConflicts facts
  return keepFirst [] (groupConflicts facts.solution ++ held)

end Tenure.Exclusivity

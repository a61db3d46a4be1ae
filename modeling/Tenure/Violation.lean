import Tenure.Ir.Validation
import Tenure.Usage

/-!
# Violations

What the analysis finds wrong with a function. Violations are collected; none of them ends a run.
-/

namespace Tenure

/-- How a value leaves the scope that bounds its lifetime. -/
inductive EscapeRoute where
  | returned
  | suspension
  | callerStore
deriving DecidableEq, Inhabited

/-- The route as messages name it. -/
def EscapeRoute.text : EscapeRoute → String
  | returned => "returned"
  | suspension => "captured across a suspension point"
  | callerStore => "stored into a caller-owned structure"

/-- What the escaping reference refers to. -/
inductive EscapeSubject where
  | allocation (alloc : AllocId)
  | localBinding (name : String)
deriving DecidableEq, Inhabited

/-- The subject as messages name it. -/
def EscapeSubject.text : EscapeSubject → String
  | allocation alloc => "allocation " ++ AllocId.text alloc
  | localBinding name => "local `" ++ name ++ "`"

/-- A violation of the ownership rules. -/
inductive Violation where
  /-- A use that a move of the same binding may precede. -/
  | useAfterMove (binding : String) (use : UseId) (useSpan : Span) (move : UseId) (moveSpan : Span)
      (moveRequired : Mode)
  /-- Two overlapping uses of which one excludes the other. -/
  | conflictingBorrow (binding : String) (use : UseId) (span : Span) (requested : Mode)
      (existingSpan : Span) (existing : Mode)
  /-- A reference that outlives what it refers to. -/
  | regionEscape (subject : EscapeSubject) (route : EscapeRoute) (escapeSpan originSpan : Span)
  /-- A recursive unit whose signatures did not become stable. -/
  | unstableSignature (function : String) (cycle : List String) (iterations : Nat) (span : Span)
  /-- A keyword that grants less than a use needs. -/
  | keywordConflict (binding : String) (keyword : Option Keyword) (onDeclaration : Bool)
      (required : Mode) (useSpan keywordSpan : Span)
  /-- A body that failed validation and was left out. -/
  | malformed (function : String) (defect : Defect) (span : Span)
deriving DecidableEq, Inhabited

namespace Violation

/-- The headline of a violation. -/
def message : Violation → String
  | useAfterMove binding _ _ _ _ _ => "use of moved value `" ++ binding ++ "`"
  | conflictingBorrow binding _ _ requested _ existing =>
    "cannot use `" ++ binding ++ "` as " ++ requested.text ++ " because it is also used as "
      ++ existing.text
  | regionEscape subject route _ _ =>
    "reference to " ++ subject.text ++ " escapes: " ++ route.text
  | unstableSignature function _ iterations _ =>
    "ownership signature of `" ++ function ++ "` did not converge after " ++ toString iterations
      ++ " iterations"
  | keywordConflict binding keyword _ required _ _ =>
    "`" ++ Keyword.textOrNone keyword ++ "` on `" ++ binding
      ++ "` conflicts with a use that requires " ++ required.text
  | malformed function defect _ => "malformed function `" ++ function ++ "`: " ++ defect.message

/-- Where a violation is reported. -/
def primarySpan : Violation → Span
  | useAfterMove _ _ useSpan _ _ _ => useSpan
  | conflictingBorrow _ _ span _ _ _ => span
  | regionEscape _ _ escapeSpan _ => escapeSpan
  | unstableSignature _ _ _ span => span
  | keywordConflict _ _ _ _ useSpan _ => useSpan
  | malformed _ _ span => span

/-- A short name of the kind of violation. -/
def category : Violation → String
  | useAfterMove .. => "use-after-move"
  | conflictingBorrow .. => "conflicting-borrow"
  | regionEscape .. => "region-escape"
  | unstableSignature .. => "unresolvable-recursive-signature"
  | keywordConflict .. => "override-conflict"
  | malformed .. => "malformed-function"

/-- The stable code of the kind of violation. -/
def code : Violation → String
  | useAfterMove .. => "E2001"
  | conflictingBorrow .. => "E2002"
  | regionEscape .. => "E2003"
  | unstableSignature .. => "E2004"
  | keywordConflict .. => "E2005"
  | malformed .. => "E9001"

/-- Violations by the start of their primary span; among equal ones the order stays. -/
def sortByStart (violations : List Violation) : List Violation :=
  violations.mergeSort fun a b => a.primarySpan.start ≤ b.primarySpan.start

theorem sortByStart_perm (violations : List Violation) : (sortByStart violations).Perm violations :=
  List.mergeSort_perm violations _

@[simp]
theorem mem_sortByStart {v : Violation} {violations : List Violation} :
    v ∈ sortByStart violations ↔ v ∈ violations :=
  (sortByStart_perm violations).mem_iff

theorem sortByStart_sorted (violations : List Violation) :
    (sortByStart violations).Pairwise fun a b => a.primarySpan.start ≤ b.primarySpan.start := by
  refine (List.pairwise_mergeSort (fun a b c hab hbc => ?_) (fun a b => ?_) violations).imp
    of_decide_eq_true
  · exact decide_eq_true (Nat.le_trans (of_decide_eq_true hab) (of_decide_eq_true hbc))
  · rw [← Bool.decide_or]
    exact decide_eq_true (Nat.le_total _ _)

end Violation

end Tenure

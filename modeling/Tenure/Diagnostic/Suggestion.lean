import Tenure.Diagnostic.SourceSpan
import Tenure.Text.Offset

/-!
# Suggested fixes

A suggestion is a message with the edits that carry it out. Suggestions add keywords or restructure
code; none relaxes a rule.
-/

namespace Tenure

/-- How sure a suggestion is. -/
inductive Applicability where
  /-- A tool may apply it without asking. -/
  | machineApplicable
  /-- Probably what the programmer wants. -/
  | maybeIncorrect
  /-- Guidance without a concrete edit. -/
  | educational
deriving DecidableEq, Inhabited

/-- What stands in front of the message. -/
def Applicability.lead : Applicability → String
  | machineApplicable => ""
  | maybeIncorrect => "consider: "
  | educational => "note: "

/-- One replacement in a file. An empty range inserts. -/
structure Edit where
  file : String
  start : Nat
  stop : Nat
  newText : String
deriving DecidableEq, Inhabited

namespace Edit

/-- Put text in place of a span. -/
def replace (span : SourceSpan) (newText : String) : Edit :=
  ⟨span.file, span.start, span.stop, newText⟩

/-- Put text in front of a span. -/
def insertBefore (span : SourceSpan) (newText : String) : Edit :=
  ⟨span.file, span.start, span.start, newText⟩

/-- Whether the edit only adds text. -/
def isInsertion (e : Edit) : Bool := e.start = e.stop && e.newText ≠ ""

/-- The edited text. Offsets that are no positions in the text leave it as it is. -/
def apply (e : Edit) (source : String) : String :=
  String.ofList (Text.replaceRange source.toList e.start e.stop e.newText.toList)

end Edit

/-- A fix for a diagnostic. -/
structure Suggestion where
  message : String
  applicability : Applicability
  edits : List Edit
deriving DecidableEq, Inhabited

namespace Suggestion

/-- A fix that is probably wanted. -/
def maybe (message : String) (edits : List Edit) : Suggestion := ⟨message, .maybeIncorrect, edits⟩

/-- Guidance without edits. -/
def advice (message : String) : Suggestion := ⟨message, .educational, []⟩

/-- Whether a tool may carry the suggestion out. -/
def canAutoApply (s : Suggestion) : Bool :=
  s.applicability = .machineApplicable && !s.edits.isEmpty

/-- The message as it is shown. -/
def fullMessage (s : Suggestion) : String := s.applicability.lead ++ s.message

end Suggestion

end Tenure

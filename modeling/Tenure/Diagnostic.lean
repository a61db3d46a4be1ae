import Tenure.Diagnostic.Suggestion

/-!
# Diagnostics

A diagnostic is a message with a severity, labelled places in the source, an explanation and
suggested fixes. It knows nothing about how it is shown.
-/

namespace Tenure

/-- How serious a diagnostic is. -/
inductive Severity where
  /-- No code is generated. -/
  | error
  | warning
  | note
  | help
deriving DecidableEq, Inhabited

/-- The word for a severity. -/
def Severity.text : Severity → String
  | error => "error"
  | warning => "warning"
  | note => "note"
  | help => "help"

/-- A place in the source with a message. -/
structure Label where
  span : SourceSpan
  message : String
  /-- Whether it is the offending place, and not a related one. -/
  isPrimary : Bool
deriving DecidableEq, Inhabited

/-- A message attached to a diagnostic. -/
structure Note where
  severity : Severity
  message : String
deriving DecidableEq, Inhabited

/-- A diagnostic. -/
structure Diagnostic where
  severity : Severity
  code : Option String
  /-- A short name of the kind of problem. -/
  category : String
  message : String
  labels : List Label
  explanation : Option String
  suggestions : List Suggestion
  children : List Note
deriving DecidableEq, Inhabited

namespace Diagnostic

/-- A diagnostic with a code and a message only. -/
def bare (severity : Severity) (code category message : String) : Diagnostic :=
  ⟨severity, some code, category, message, [], none, [], []⟩

/-- Add the offending place. -/
def withPrimary (d : Diagnostic) (span : SourceSpan) (message : String) : Diagnostic :=
  { d with labels := d.labels ++ [⟨span, message, true⟩] }

/-- Add a related place. -/
def withSecondary (d : Diagnostic) (span : SourceSpan) (message : String) : Diagnostic :=
  { d with labels := d.labels ++ [⟨span, message, false⟩] }

/-- Give the reason. -/
def withExplanation (d : Diagnostic) (explanation : String) : Diagnostic :=
  { d with explanation := some explanation }

/-- Add a suggestion. -/
def withSuggestion (d : Diagnostic) (s : Suggestion) : Diagnostic :=
  { d with suggestions := d.suggestions ++ [s] }

/-- The first primary label. -/
def primaryLabel? (d : Diagnostic) : Option Label := d.labels.find? Label.isPrimary

/-- The secondary labels in order. -/
def secondaryLabels (d : Diagnostic) : List Label := d.labels.filter fun label => !label.isPrimary

/-- Whether no code is generated. -/
def isError (d : Diagnostic) : Bool := d.severity = .error

/-- The severity with the code. -/
def header (d : Diagnostic) : String :=
  match d.code with
  | some code => d.severity.text ++ "[" ++ code ++ "]"
  | none => d.severity.text

/-- The headline of a diagnostic. -/
def text (d : Diagnostic) : String := d.header ++ ": " ++ d.message

end Diagnostic

end Tenure

import Tenure.Diagnostic

/-!
# Registered codes

The stable codes of diagnostics: `E` or `W` and four digits.
-/

namespace Tenure

/-- A registered code. -/
structure CodeInfo where
  code : String
  severity : Severity
  description : String
deriving DecidableEq, Inhabited

/-- The registered codes in ascending order, each once. -/
structure Registry where
  codes : List CodeInfo
deriving DecidableEq, Inhabited

/-- A code that is not of the required form. -/
structure InvalidCode where
  code : String
deriving DecidableEq, Inhabited

/-- The message about a code of the wrong form. -/
def InvalidCode.message (e : InvalidCode) : String := "invalid error code: " ++ e.code

/-- The severity a code stands for, if the code is of the required form. -/
def codeSeverity? (code : String) : Option Severity :=
  match code.toList with
  | letter :: digits =>
    if digits.length = 4 && digits.all Char.isDigit then
      if letter = 'E' then some .error
      else if letter = 'W' then some .warning
      else none
    else none
  | [] => none

namespace Registry

/-- No codes. -/
def empty : Registry := ⟨[]⟩

/-- Put a code into an ascending list, over an entry for the same code. -/
def insert (info : CodeInfo) : List CodeInfo → List CodeInfo
  | [] => [info]
  | x :: rest =>
    if info.code < x.code then info :: x :: rest
    else if info.code = x.code then info :: rest
    else x :: insert info rest

/-- Register a code, or describe it anew. -/
def register (r : Registry) (code description : String) : Except InvalidCode Registry :=
  match codeSeverity? code with
  | some severity => .ok ⟨insert ⟨code, severity, description⟩ r.codes⟩
  | none => .error ⟨code⟩

/-- The entry of a code. -/
def get? (r : Registry) (code : String) : Option CodeInfo := r.codes.find? fun x => x.code = code

/-- The codes the analysis uses. -/
def ownershipCodes : List CodeInfo :=
  [⟨"E2001", .error, "use after move"⟩,
   ⟨"E2002", .error, "conflicting borrow"⟩,
   ⟨"E2003", .error, "region escape"⟩,
   ⟨"E2004", .error, "unresolvable recursive signature"⟩,
   ⟨"E2005", .error, "override conflict"⟩,
   ⟨"E9001", .error, "malformed function body"⟩,
   ⟨"W2101", .warning, "move override is stronger than needed"⟩,
   ⟨"W2102", .warning, "region holds no allocations"⟩,
   ⟨"W2103", .warning, "region nesting too deep"⟩]

/-- The registry of the codes the analysis uses. -/
def ownership : Registry := ⟨ownershipCodes⟩

end Registry

end Tenure

import Tenure.Diagnostic
import Tenure.Hint

/-!
# Reports on violations and hints

The diagnostics that violations and hints become. Suggested fixes only add keywords or restructure
code.
-/

namespace Tenure

namespace Violation

/-- The headline of a violation as a diagnostic. -/
def base (v : Violation) : Diagnostic := .bare .error v.code v.category v.message

/-- The fixes for a use after a move. A borrow fits only where the operation never needed
ownership. -/
def moveFixes (binding : String) (moved : SourceSpan) (moveRequired : Mode) : List Suggestion :=
  if moveRequired = .moved then
    [.advice ("re-initialize `" ++ binding ++ "` before this use"),
     .advice ("or pass a copy of `" ++ binding ++ "` to the consuming operation")]
  else
    [.maybe "insert `borrow` at the move so the value stays usable"
      [.insertBefore moved "borrow "],
     .advice ("alternatively, re-initialize `" ++ binding ++ "` before this use")]

/-- The fix for overlapping accesses. -/
def overlapFix (binding : String) (existing : Mode) (place : SourceSpan) : Suggestion :=
  if existing = .moved then
    .maybe "insert `borrow` before the consuming argument" [.insertBefore place "borrow "]
  else
    .advice ("finish using the " ++ existing.text ++ " of `" ++ binding ++ "` before this use")

/-- The label where a reference escapes. -/
def escapeLabel : EscapeRoute → String
  | .returned => "reference returned here"
  | .suspension => "reference crosses a suspension point here"
  | .callerStore => "reference stored into caller data here"

/-- The label where an escaping reference comes from. -/
def originLabel : EscapeSubject → String
  | .allocation _ => "allocated here"
  | .localBinding _ => "borrowed here"

/-- The diagnostic of a violation in a file. -/
def toDiagnostic (v : Violation) (file : String) : Diagnostic :=
  let place := SourceSpan.ofSpan file
  match v with
  | useAfterMove binding _ useSpan _ moveSpan moveRequired =>
    let reported := v.base
      |>.withPrimary (place useSpan) "value used here after move"
      |>.withSecondary (place moveSpan) "value moved here"
      |>.withExplanation ("`" ++ binding
        ++ "` is consumed by the move, so no path that follows it may use `" ++ binding
        ++ "` again")
    (moveFixes binding (place moveSpan) moveRequired).foldl Diagnostic.withSuggestion reported
  | conflictingBorrow binding _ span requested existingSpan existing =>
    v.base
      |>.withPrimary (place span) (requested.text ++ " occurs here")
      |>.withSecondary (place existingSpan) (existing.text ++ " is still active here")
      |>.withExplanation ("an exclusive access to `" ++ binding
        ++ "` may not overlap with any other access to it")
      |>.withSuggestion (overlapFix binding existing (place existingSpan))
  | regionEscape subject route escapeSpan originSpan =>
    v.base
      |>.withPrimary (place escapeSpan) (escapeLabel route)
      |>.withSecondary (place originSpan) (originLabel subject)
      |>.withExplanation
        "the referenced value is freed when its scope ends, before the reference is used"
      |>.withSuggestion
        (.maybe "transfer the value itself with `move` instead of a reference" [])
  | unstableSignature function cycle _ span =>
    let members := cycle.map fun f => "`" ++ f ++ "`"
    v.base
      |>.withPrimary (place span) "signature does not stabilize"
      |>.withExplanation ("parameter modes of the recursive cycle " ++ " -> ".intercalate members
        ++ " keep growing")
      |>.withSuggestion (.advice
        ("add explicit `borrow` or `move` keywords to the parameters of `" ++ function ++ "`"))
  | keywordConflict _ keyword onDeclaration required useSpan keywordSpan =>
    let holder := if onDeclaration then "the parameter" else "this use"
    let written := Keyword.textOrNone keyword
    let wanted := required.keyword?.getD "borrow"
    let reported := v.base.withPrimary (place useSpan) ("this use requires " ++ required.text)
    let located :=
      if keywordSpan = useSpan then reported
      else reported.withSecondary (place keywordSpan) ("`" ++ written ++ "` written here")
    located
      |>.withExplanation "explicit keywords are fixed points and are never upgraded implicitly"
      |>.withSuggestion
        (.maybe ("change `" ++ written ++ "` to `" ++ wanted ++ "` at " ++ holder) [])
  | malformed _ _ span =>
    v.base
      |>.withPrimary (place span) "function skipped"
      |>.withExplanation "the lowered body failed structural validation"

end Violation

/-- The warning that a hint becomes. -/
def Hint.toDiagnostic (h : Hint) (file : String) : Diagnostic :=
  let base := Diagnostic.bare .warning h.code h.category h.message
  let place := SourceSpan.ofSpan file h.span
  match h with
  | unneededMove _ needed _ =>
    base
      |>.withPrimary place "declared `move` here"
      |>.withSuggestion (.maybe
        ("drop `move`; callers can keep their value because " ++ needed.text ++ " is enough") [])
  | emptyRegion kind _ =>
    base
      |>.withPrimary place ("empty " ++ kind.keyword)
      |>.withSuggestion (.advice "merge it into the enclosing scope")
  | regionTooDeep _ _ _ =>
    base
      |>.withPrimary place "nested too deep"
      |>.withSuggestion (.advice "flatten the innermost regions")

end Tenure

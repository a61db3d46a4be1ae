import Tenure.Diagnostic
import Tenure.Text.Lines

/-!
# Showing diagnostics

A diagnostic is shown with its headline, the source lines of its labels underlined, its explanation
and its suggestions with a preview of each edit. What is shown is a list of pieces of text, some of
them coloured; it can be written with or without the colours.
-/

namespace Tenure

/-! ## Coloured text -/

/-- Terminal colours. -/
inductive Colour where
  | red
  | green
  | yellow
  | blue
  | cyan
  | white
deriving DecidableEq, Inhabited

/-- The digit of a colour in terminal codes. -/
def Colour.digit : Colour → Char
  | red => '1'
  | green => '2'
  | yellow => '3'
  | blue => '4'
  | cyan => '6'
  | white => '7'

/-- The colour of a severity. -/
def Severity.colour : Severity → Colour
  | error => .red
  | warning => .yellow
  | note => .cyan
  | help => .green

/-- A piece of shown text. -/
inductive Piece where
  | plain (text : String)
  | coloured (text : String) (colour : Colour) (bold : Bool)
deriving DecidableEq, Inhabited

/-- The code that ends all colours. -/
def resetCode : String := "\x1b[0m"

/-- A piece without colours. -/
def Piece.toPlain : Piece → String
  | plain text => text
  | coloured text _ _ => text

/-- A piece with terminal codes. -/
def Piece.toAnsi : Piece → String
  | plain text => text
  | coloured text colour bold =>
    resetCode ++ (if bold then "\x1b[1m" else "") ++ "\x1b[3" ++ colour.digit.toString ++ "m"
      ++ text ++ resetCode

/-! ## Source files -/

/-- The source texts by path. -/
structure Sources where
  files : List (String × String)
deriving DecidableEq, Inhabited

namespace Sources

/-- The text of a file. Of two texts for one path the later counts. -/
def text? (s : Sources) (path : String) : Option String :=
  (s.files.reverse.find? fun file => file.1 = path).map Prod.snd

/-- The positions of the two ends of a span. -/
def locate? (s : Sources) (span : SourceSpan) : Option (Text.LineColumn × Text.LineColumn) :=
  (s.text? span.file).map fun text =>
    (Text.location text.toList span.start, Text.location text.toList span.stop)

end Sources

/-! ## Diagnostics -/

/-- What is shown besides the diagnostics themselves. -/
structure RenderOptions where
  showExplanation : Bool
  showSummary : Bool
deriving DecidableEq, Inhabited

/-- A character repeated. -/
def repeated (n : Nat) (c : Char) : String := String.ofList (List.replicate n c)

/-- A plain line. -/
def plainLine (text : String) : Piece := .plain (text ++ "\n")

/-- A label: the line it begins on, and under it a marker as wide as the label if it ends on the
same line. Without the source only the message is shown. -/
def Label.pieces (label : Label) (severity : Severity) (sources : Sources) : List Piece :=
  match sources.text? label.span.file with
  | none => [plainLine ("   | " ++ label.message ++ " (" ++ label.span.text ++ ")")]
  | some source =>
    let text := source.toList
    let start := Text.location text label.span.start
    let stop := Text.location text label.span.stop
    let number := toString start.line
    let gutter := repeated number.length ' '
    let width := if stop.line = start.line then max (stop.column - start.column) 1 else 1
    let marker := if label.isPrimary then '^' else '-'
    let colour := if label.isPrimary then severity.colour else .blue
    [plainLine (gutter ++ " |"),
     plainLine (number ++ " | " ++ String.ofList (Text.lineText text (start.line - 1))),
     .plain (gutter ++ " | " ++ repeated (start.column - 1) ' '),
     .coloured (repeated width marker) colour true]
    ++ (if label.message = "" then [] else [.plain " ", .coloured label.message colour false])
    ++ [.plain "\n"]

/-- The line that an edit changes, as it is afterwards. -/
def Edit.preview (e : Edit) (source : String) : String :=
  let fixed := (e.apply source).toList
  String.ofList (Text.lineText fixed (Text.lineIndex fixed (min e.start (Text.byteLength fixed))))

/-- A suggestion with the previews of its edits. -/
def Suggestion.pieces (s : Suggestion) (sources : Sources) : List Piece :=
  [.coloured "   = help" Severity.help.colour true, plainLine (": " ++ s.fullMessage)]
    ++ s.edits.filterMap fun e =>
      (sources.text? e.file).map fun source => plainLine ("     | " ++ e.preview source)

/-- The line that names the place of a diagnostic. -/
def Diagnostic.placeLine (span : SourceSpan) (sources : Sources) : String :=
  match sources.locate? span with
  | some (start, _) =>
    "  --> " ++ span.file ++ ":" ++ toString start.line ++ ":" ++ toString start.column
  | none => "  --> " ++ span.text

/-- A diagnostic. The primary label comes before the secondary ones. -/
def Diagnostic.pieces (d : Diagnostic) (options : RenderOptions) (sources : Sources) :
    List Piece :=
  let primary := d.primaryLabel?.toList
  [.coloured d.header d.severity.colour true, .coloured (": " ++ d.message) .white true,
   .plain "\n"]
    ++ primary.map (fun label => plainLine (Diagnostic.placeLine label.span sources))
    ++ (primary ++ d.secondaryLabels).flatMap (fun label => label.pieces d.severity sources)
    ++ (if options.showExplanation then
          d.explanation.toList.map fun reason => plainLine ("   = " ++ reason)
        else [])
    ++ d.suggestions.flatMap (fun s => s.pieces sources)
    ++ d.children.map (fun n => plainLine ("   = " ++ n.severity.text ++ ": " ++ n.message))
    ++ [.plain "\n"]

/-- The ending of a word that is counted. -/
def pluralEnding (n : Nat) : String := if n = 1 then "" else "s"

/-- The last line of a report: the number of errors, or else of warnings. -/
def summaryPieces (diagnostics : List Diagnostic) : List Piece :=
  let errors := diagnostics.countP Diagnostic.isError
  let warnings := diagnostics.countP fun d => d.severity = .warning
  if 0 < errors then
    [plainLine ("error: ownership analysis failed with " ++ toString errors ++ " error"
      ++ pluralEnding errors)]
  else if 0 < warnings then
    [plainLine ("warning: " ++ toString warnings ++ " warning" ++ pluralEnding warnings
      ++ " emitted")]
  else []

/-- A report of several diagnostics. -/
def reportPieces (diagnostics : List Diagnostic) (options : RenderOptions) (sources : Sources) :
    List Piece :=
  diagnostics.flatMap (fun d => d.pieces options sources)
    ++ if options.showSummary then summaryPieces diagnostics else []

/-- A report with everything in it and without colours. -/
def reportText (diagnostics : List Diagnostic) (sources : Sources) : String :=
  String.join ((reportPieces diagnostics ⟨true, true⟩ sources).map Piece.toPlain)

end Tenure

import Tenure.Ir.Value

/-!
# Spans in named files

Files are named by paths. Two paths name the same file when they have the same components: repeated
and trailing separators and inner `.` components do not count, and `..` is not resolved.
-/

namespace Tenure

/-- The components of a path. A leading separator is a component of its own, and so is a leading
`.`. -/
def pathComponents (path : String) : List String :=
  let parts := path.splitOn "/"
  let named := parts.zipIdx.filter fun (part, index) =>
    part ≠ "" && (part ≠ "." || index = 0)
  let rooted := if 1 < parts.length && parts.head? = some "" then ["/"] else []
  rooted ++ named.map Prod.fst

/-- A byte range in a named file. -/
structure SourceSpan where
  file : String
  start : Nat
  stop : Nat
deriving DecidableEq, Inhabited

namespace SourceSpan

/-- A span of a program in its file. -/
def ofSpan (file : String) (span : Span) : SourceSpan := ⟨file, span.start, span.stop⟩

/-- Whether two paths name the same file. -/
def sameFile (a b : SourceSpan) : Bool := pathComponents a.file = pathComponents b.file

/-- Whether two spans are the same range of the same file. -/
def same (a b : SourceSpan) : Bool := a.sameFile b && a.start = b.start && a.stop = b.stop

/-- The number of bytes; none if the ends are out of order. -/
def length (s : SourceSpan) : Nat := s.stop - s.start

/-- Whether there is no byte in the span. -/
def isEmpty (s : SourceSpan) : Bool := s.stop ≤ s.start

/-- The empty span at the start. -/
def shrinkToStart (s : SourceSpan) : SourceSpan := ⟨s.file, s.start, s.start⟩

/-- Whether each span starts before the other one stops, in the same file. -/
def overlaps (a b : SourceSpan) : Bool := a.sameFile b && a.start < b.stop && b.start < a.stop

/-- The span as it is shown without its source text. -/
def text (s : SourceSpan) : String :=
  s.file ++ ":" ++ toString s.start ++ ".." ++ toString s.stop

end SourceSpan

end Tenure

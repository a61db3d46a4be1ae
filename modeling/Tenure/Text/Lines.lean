import Tenure.Ascending
import Tenure.Text.Columns
import Tenure.Text.Offset

/-!
# Lines of a text

Where a byte offset lies: in which line, and at which display column of it.
-/

namespace Tenure.Text

/-- A position as it is shown, counted from 1. -/
structure LineColumn where
  line : Nat
  column : Nat
deriving DecidableEq, Inhabited

/-- The offsets after the newlines of a text that begins at an offset. -/
def startsAfter : Nat → List Char → List Nat
  | _, [] => []
  | offset, c :: rest =>
    let next := offset + c.utf8Size
    if c = '\n' then next :: startsAfter next rest else startsAfter next rest

/-- The offsets at which lines begin. -/
def lineStarts (text : List Char) : List Nat := 0 :: startsAfter 0 text

/-- The number of the line that an offset lies in, counted from 0. An offset at which a line begins
is found among the line starts; any other one lies in the line before the place it would have
there. -/
def lineIndex (text : List Char) (offset : Nat) : Nat :=
  match searchAscending (lineStarts text) offset with
  | .found line => line
  | .missing next => next - 1

/-- A line by its number from 0, without its newline. -/
def lineText (text : List Char) (line : Nat) : List Char :=
  let starts := lineStarts text
  let start := starts.getD line (byteLength text)
  let stop := (starts[line + 1]?.map fun next => next - 1).getD (byteLength text)
  (slice? text start (max stop start)).getD []

/-- The position of an offset, where `width` counts the columns of a text. An offset beyond the end
lies at the end, and one inside a character is shown like the start of its line. -/
def locationBy (width : List Char → Nat) (text : List Char) (offset : Nat) : LineColumn :=
  let offset := min offset (byteLength text)
  let line := lineIndex text offset
  let start := (lineStarts text).getD line 0
  ⟨line + 1, width ((slice? text start offset).getD []) + 1⟩

/-- The position of an offset as it is shown. -/
def location : List Char → Nat → LineColumn := locationBy displayWidth

end Tenure.Text

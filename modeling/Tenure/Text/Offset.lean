/-!
# Byte offsets in text

Positions in source text count the bytes of its UTF-8 form. An offset inside the bytes of one
character is no position in the text.
-/

namespace Tenure.Text

/-- The number of bytes of a text. -/
def byteLength : List Char → Nat
  | [] => 0
  | c :: rest => c.utf8Size + byteLength rest

/-- The text before and after a byte offset; nothing if the offset is inside a character or beyond
the end. -/
def splitAt? : List Char → Nat → Option (List Char × List Char)
  | rest, 0 => some ([], rest)
  | [], _ + 1 => none
  | c :: rest, n + 1 =>
    if c.utf8Size ≤ n + 1 then
      (splitAt? rest (n + 1 - c.utf8Size)).map fun (left, right) => (c :: left, right)
    else none

/-- The text between two byte offsets. -/
def slice? (text : List Char) (start stop : Nat) : Option (List Char) :=
  if start ≤ stop then
    (splitAt? text stop).bind fun (left, _) => (splitAt? left start).map Prod.snd
  else none

/-- Put new text in place of the bytes between two offsets. An edit at an offset that is no position
changes nothing. -/
def replaceRange (text : List Char) (start stop : Nat) (new : List Char) : List Char :=
  match splitAt? text start, splitAt? text stop with
  | some (left, _), some (_, right) => if start ≤ stop then left ++ new ++ right else text
  | _, _ => text

end Tenure.Text

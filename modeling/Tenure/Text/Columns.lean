import Tenure.Text.Picture

/-!
# Columns of a text

A text takes the columns of its characters, except where characters are drawn as one: ligatures,
pictures, and characters with a selector of their style. Which of these a character belongs to is
decided by what follows it, so the text is read from its end.
-/

namespace Tenure.Text

/-- The end of something that the characters before it may belong to. -/
inductive Ending where
  | plain
  | ligature (l : Ligature)
  | picture (p : Picture)
deriving DecidableEq, Inhabited

namespace Ending

/-- What a character by itself is the end of. -/
def ofChar (c : Char) : Ending :=
  match Ligature.ofChar? c, Picture.ofChar? c with
  | some l, _ => ligature l
  | none, some p => picture p
  | none, none => plain

/-- Whether selectors are ignored before it. -/
def ignoresSelectors : Ending → Bool
  | ligature _ => true
  | _ => false

/-- Whether an emoji before it belongs to a picture. -/
def isJoined : Ending → Bool
  | picture p => p.isJoined
  | _ => false

/-- Read the character before it, if that belongs to it. -/
def extend? (c : Char) (columns : Nat) : Ending → Option (Nat × Ending)
  | plain => none
  | ligature l => (l.extend? c columns).map fun (n, rest) => (n, (rest.map ligature).getD plain)
  | picture p => (p.extend? c columns).map fun (n, q) => (n, picture q)

end Ending

/-- What follows a character: an ending, and which selectors stand before that. -/
structure Following where
  ending : Ending
  textStyle : Bool
  emojiStyle : Bool
deriving DecidableEq, Inhabited

/-- The selector of the text style. -/
def textSelector : Char := Char.ofNat 0xFE0E

/-- The selector of the emoji style. -/
def emojiSelector : Char := Char.ofNat 0xFE0F

namespace Following

/-- An ending without selectors. -/
def only (ending : Ending) : Following := ⟨ending, false, false⟩

/-- The selector of the emoji style before what follows. -/
def withEmojiStyle (f : Following) : Following :=
  if f.ending.ignoresSelectors || f.ending.isJoined then { f with emojiStyle := true }
  else ⟨.plain, false, true⟩

/-- The selector of the text style before what follows. -/
def withTextStyle (f : Following) : Following :=
  if f.ending.ignoresSelectors then { f with textStyle := true } else ⟨.plain, true, false⟩

/-- The selector of the emoji style, if any, selects nothing. -/
def dropEmojiStyle (f : Following) : Following :=
  if !f.emojiStyle then f
  else if f.ending.ignoresSelectors then { f with emojiStyle := false }
  else only .plain

/-- The selector of the text style, if any, selects nothing. -/
def dropTextStyle (f : Following) : Following :=
  if !f.textStyle then f
  else if f.ending.ignoresSelectors then { f with textStyle := false }
  else only .plain

end Following

/-- Read a character that is no selector and that no selector of the emoji style follows. -/
def readUnselected (c : Char) (columns : Nat) (f : Following) : Nat × Following :=
  if f.textStyle && narrowsAsText c then (columns + 1, .only .plain)
  else
    match f.dropTextStyle.ending.extend? c columns with
    | some (n, ending) => (n, .only ending)
    | none => (columns + charWidth c, .only (.ofChar c))

/-- Read a character, where `columns` are the columns of what follows it. -/
def readChar (c : Char) (columns : Nat) (f : Following) : Nat × Following :=
  if f.emojiStyle && isStyled c then
    (if f.ending.isJoined then columns else columns + 2, .only (.picture .emoji))
  else
    let f := f.dropEmojiStyle
    if c = emojiSelector then (columns, f.withEmojiStyle)
    else if c = textSelector then (columns, f.withTextStyle)
    else readUnselected c columns f

/-- The columns of a text and what its beginning offers to a character before it. -/
def readText : List Char → Nat × Following
  | [] => (0, .only .plain)
  | c :: rest =>
    let (columns, f) := readText rest
    readChar c columns f

/-- The columns of a text without newlines. -/
def displayWidth (text : List Char) : Nat := (readText text).1

end Tenure.Text

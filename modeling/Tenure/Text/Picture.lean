import Tenure.Text.Emoji
import Tenure.Text.Ligature

/-!
# Pictures

Several emoji in a row can be drawn as one picture of two columns: a person with a skin tone, a
flag, or any number of them with joiners in between. Text is read from its end: a picture is known
by its last part, and each part before it that fits is taken into it.
-/

namespace Tenure.Text

/-- The end of a picture. -/
inductive Picture where
  /-- An emoji, or a sequence that is drawn as one. -/
  | emoji
  /-- A skin tone. -/
  | tone
  /-- A number of regional indicators. -/
  | indicators (count : Nat)
  /-- A joiner and a picture. -/
  | joined
  /-- An enclosing keycap, a joiner and a picture. -/
  | keycap
  /-- A number of regional indicators, a joiner and a picture. -/
  | joinedIndicators (count : Nat)
  /-- A number of tag letters, the end of the tag, a joiner and a picture. -/
  | tagLetters (count : Nat)
  /-- A number of tag digits, perhaps tag letters, the end of the tag, a joiner and a picture. -/
  | tagDigits (count : Nat)
deriving DecidableEq, Inhabited

namespace Picture

/-- The picture that a character can end. -/
def ofChar? (c : Char) : Option Picture :=
  if isTone c then some tone
  else if isIndicator c then some (indicators 1)
  else if isEmoji c then some emoji
  else none

/-- Whether a joiner can connect something before it with a picture. -/
def isComplete : Picture → Bool
  | emoji | tone => true
  | indicators count | joinedIndicators count => 2 ≤ count
  | _ => false

/-- Whether an emoji before it belongs to the picture. -/
def isJoined : Picture → Bool
  | joined | keycap => true
  | _ => false

/-- Whether the tag that a picture ends with names a region: three digits, or letters enough for a
country and a part of it, in which digits may come first. -/
def endsRegionTag : Picture → Bool
  | tagLetters count => 3 ≤ count
  | tagDigits count => count = 3
  | _ => false

/-- A letter of a tag. -/
def isTagLetter (c : Char) : Bool := CharRanges.contains [(0xE0061, 0xE007A)] c

/-- A digit of a tag. -/
def isTagDigit (c : Char) : Bool := CharRanges.contains [(0xE0030, 0xE0039)] c

/-- Take a part before a joiner and a picture into the picture. -/
def absorbJoined? (c : Char) (columns : Nat) : Option (Nat × Picture) :=
  if c.toNat = 0x20E3 then some (columns, keycap)
  else if isIndicator c then some (columns + 1, joinedIndicators 1)
  else if isTone c then some (columns, tone)
  else if c.toNat = 0xE007F then some (columns, tagLetters 0)
  else if isEmoji c then some (columns, emoji)
  else none

/-- Read the character before the end of a picture, if it belongs to the picture: the columns of the
text from there on, where `columns` are those without the character, and the new end. Regional
indicators make flags in pairs from the left, and a flag before a joiner takes no columns: an even
number of indicators takes two columns less than it has indicators, an odd number as many. -/
def extend? (c : Char) (columns : Nat) (p : Picture) : Option (Nat × Picture) :=
  if p.isComplete && c = joiner then some (columns, joined)
  else if p.endsRegionTag && c.toNat = 0x1F3F4 then some (columns, emoji)
  else
    match p with
    | tone => if isToneBase c then some (columns, emoji) else none
    | indicators count => if isIndicator c then some (columns + 1, indicators (count + 1)) else none
    | joined => absorbJoined? c columns
    | joinedIndicators count =>
      if isIndicator c then
        some (if count % 2 = 1 then columns - 1 else columns + 3, joinedIndicators (count + 1))
      else none
    | tagLetters count =>
      if isTagLetter c && count < 6 then some (columns, tagLetters (count + 1))
      else if isTagDigit c && count ≤ 4 then some (columns, tagDigits 1)
      else none
    | tagDigits count =>
      if isTagDigit c && count < 3 then some (columns, tagDigits (count + 1)) else none
    | _ => none

end Picture

end Tenure.Text

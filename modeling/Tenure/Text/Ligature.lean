import Tenure.Text.Width

/-!
# Ligatures

In some scripts a sequence of characters is drawn as one form and takes fewer columns than its
parts. Text is read from its end: a ligature is known by its last part, and each part before it that
fits is taken into it.
-/

namespace Tenure.Text

/-- The characters of Arabic whose form is that of alef. -/
def alefRanges : CharRanges :=
  [(0x0622, 0x0623), (0x0625, 0x0625), (0x0627, 0x0627), (0x0671, 0x0673), (0x0675, 0x0675),
   (0x0773, 0x0774), (0x0870, 0x0882)]

/-- The characters of Arabic whose form is that of lam. -/
def lamRanges : CharRanges :=
  [(0x0644, 0x0644), (0x06B5, 0x06B8), (0x076A, 0x076A), (0x08A6, 0x08A6), (0x08C7, 0x08C7)]

/-- The characters without a column that keep the letters of Arabic around them apart. -/
def separatingRanges : CharRanges :=
  [(0x0605, 0x0605), (0x0890, 0x0891), (0x08E2, 0x08E2), (0x09BE, 0x09BE), (0x09D7, 0x09D7),
   (0x0B3E, 0x0B3E), (0x0B57, 0x0B57), (0x0BBE, 0x0BBE), (0x0BD7, 0x0BD7), (0x0CC0, 0x0CC0),
   (0x0CC2, 0x0CC2), (0x0CC7, 0x0CC8), (0x0CCA, 0x0CCB), (0x0CD5, 0x0CD6), (0x0D3E, 0x0D3E),
   (0x0D4E, 0x0D4E), (0x0D57, 0x0D57), (0x0DCF, 0x0DCF), (0x0DDF, 0x0DDF), (0x1160, 0x11FF),
   (0x180E, 0x180E), (0x1B35, 0x1B35), (0x1B3B, 0x1B3B), (0x1B3D, 0x1B3D), (0x1B43, 0x1B43),
   (0x200C, 0x200D), (0x2065, 0x2069), (0x302E, 0x302F), (0x3164, 0x3164), (0xA8FA, 0xA8FA),
   (0xD7B0, 0xD7C6), (0xD7CB, 0xD7FB), (0xFF9E, 0xFFA0), (0xFFF0, 0xFFF8), (0x111C2, 0x111C3),
   (0x1133E, 0x1133E), (0x11357, 0x11357), (0x114B0, 0x114B0), (0x114BD, 0x114BD),
   (0x115AF, 0x115AF), (0x11930, 0x11930), (0x1193F, 0x1193F), (0x11941, 0x11941),
   (0x11A3A, 0x11A3A), (0x11A84, 0x11A89), (0x11D46, 0x11D46), (0x11F02, 0x11F02),
   (0x1D165, 0x1D165), (0x1D16E, 0x1D172), (0xE0000, 0xE0000), (0xE0002, 0xE001F),
   (0xE0080, 0xE00FF), (0xE01F0, 0xE0FFF)]

/-- The letters of Khmer that are drawn below the letter before them without room of their own. -/
def subscriptRanges : CharRanges :=
  [(0x1780, 0x1782), (0x1784, 0x1787), (0x1789, 0x178C), (0x178E, 0x1793), (0x1795, 0x1798),
   (0x179B, 0x179D), (0x17A0, 0x17A0), (0x17A2, 0x17A2), (0x17A7, 0x17A7), (0x17AB, 0x17AC),
   (0x17AF, 0x17AF)]

/-- The consonants of Tifinagh. -/
def tifinaghConsonantRanges : CharRanges := [(0x2D31, 0x2D65), (0x2D6F, 0x2D6F)]

/-- Marks that are ignored in display and do not come between the parts of a ligature. -/
def ignoredMarkRanges : CharRanges :=
  [(0x034F, 0x034F), (0x17B4, 0x17B5), (0x180B, 0x180D), (0x180F, 0x180F), (0xFE00, 0xFE0F),
   (0xE0100, 0xE01EF)]

/-- The character that asks for its neighbours to be joined. -/
def joiner : Char := Char.ofNat 0x200D

/-- The sign that puts the letter of Khmer after it below the one before it. -/
def khmerSubscriptSign : Char := Char.ofNat 0x17D2

/-- The joiner of Tifinagh, which has a form of its own if it joins nothing. -/
def tifinaghJoiner : Char := Char.ofNat 0x2D7F

/-- The end of a ligature. Where a joiner has to stand before it, `joined` says whether one does. -/
inductive Ligature where
  /-- Alef of Arabic, and marks before it. -/
  | alef
  /-- Lamed of Hebrew. -/
  | lamed (joined : Bool)
  /-- The letter ya of Buginese. -/
  | ya (joined : Bool)
  /-- The vowel sign i of Buginese, a joiner and ya. -/
  | vowelYa
  /-- A consonant of Tifinagh. -/
  | consonant (joined : Bool)
  /-- The joiner of Tifinagh and a consonant. -/
  | joinerConsonant
  /-- The second part of a compound tone of Lisu. -/
  | tone
  /-- The letter i of Old Turkic. -/
  | orkhonI (joined : Bool)
  /-- A letter of Khmer that can be drawn below another one. -/
  | subscript
deriving DecidableEq, Inhabited

namespace Ligature

/-- The ligature that a character can end. -/
def ofChar? (c : Char) : Option Ligature :=
  if alefRanges.contains c then some alef
  else if subscriptRanges.contains c then some subscript
  else if tifinaghConsonantRanges.contains c then some (consonant false)
  else if c.toNat = 0x05DC then some (lamed false)
  else if c.toNat = 0x1A10 then some (ya false)
  else if c.toNat = 0x10C03 then some (orkhonI false)
  else if c.toNat = 0xA4FC ∨ c.toNat = 0xA4FD then some tone
  else none

/-- A joiner before the end of a ligature. -/
def join : Ligature → Ligature
  | lamed _ => lamed true
  | ya _ => ya true
  | consonant _ => consonant true
  | orkhonI _ => orkhonI true
  | other => other

/-- Whether joiners and ignored marks may stand before the end of a ligature. Arabic has a rule of
its own for marks. -/
def isTransparent : Ligature → Bool
  | alef => false
  | _ => true

/-- Take the character before the end of a ligature into it: the columns of the text from there on,
where `columns` are those without the character, and what is left to be completed. -/
def absorb? (c : Char) (columns : Nat) : Ligature → Option (Nat × Option Ligature)
  | alef =>
    if lamRanges.contains c then some (columns, none)
    else if charWidth c = 0 && !separatingRanges.contains c then some (columns, some alef)
    else none
  | lamed true => if c.toNat = 0x05D0 then some (columns, none) else none
  | ya true => if c.toNat = 0x1A17 then some (columns, some vowelYa) else none
  | vowelYa => if c.toNat = 0x1A15 then some (columns, none) else none
  | consonant joined =>
    if c = tifinaghJoiner then some (columns + 1, some joinerConsonant)
    else if joined && tifinaghConsonantRanges.contains c then some (columns, none)
    else none
  | joinerConsonant =>
    if tifinaghConsonantRanges.contains c then some (columns - 1, none) else none
  | tone => if CharRanges.contains [(0xA4F8, 0xA4FB)] c then some (columns, none) else none
  | orkhonI true => if c.toNat = 0x10C32 then some (columns, none) else none
  | subscript => if c = khmerSubscriptSign then some (columns - 1, none) else none
  | _ => none

/-- Read the character before the end of a ligature, if it does not break the ligature off. -/
def extend? (c : Char) (columns : Nat) (l : Ligature) : Option (Nat × Option Ligature) :=
  if l.isTransparent && c = joiner then some (columns, some l.join)
  else if l.isTransparent && ignoredMarkRanges.contains c then some (columns, some l)
  else l.absorb? c columns

end Ligature

end Tenure.Text

import Tenure.Decimal.Reader

/-!
# JSON documents

A reader for JSON text. It keeps what settings are made of: object members in order and with
repetitions, and numbers as far as they are natural. Text beyond the first value is an error.
-/

namespace Tenure

/-- A JSON value. -/
inductive Json where
  | null
  | bool (value : Bool)
  /-- A number; its value is kept if it is written without sign, fraction and exponent. -/
  | number (natural : Option Nat)
  /-- A string; it has no value if it holds half of a surrogate pair. -/
  | string (value : Option String)
  | array (elements : List Json)
  | object (members : List (Option String × Json))

namespace Json

open Text (spanDigits digitsValue)

/-! ## Blanks and numbers -/

/-- Blank characters between tokens. -/
def isBlank (c : Char) : Bool := c = ' ' || c = '\n' || c = '\t' || c = '\r'

/-- The text after leading blanks. -/
def skipBlanks (text : List Char) : List Char := text.dropWhile isBlank

/-- The text after a fraction, if one begins here. -/
def skipFraction? : List Char → Option (List Char)
  | '.' :: rest =>
    let (digits, rest) := spanDigits rest
    if digits.isEmpty then none else some rest
  | rest => some rest

/-- The text after an exponent, if one begins here. -/
def skipExponent? : List Char → Option (List Char)
  | [] => some []
  | e :: rest =>
    if e = 'e' || e = 'E' then
      let unsigned :=
        match rest with
        | '+' :: after => after
        | '-' :: after => after
        | _ => rest
      let (digits, rest) := spanDigits unsigned
      if digits.isEmpty then none else some rest
    else some (e :: rest)

/-- A number without its sign. A number does not begin with a zero and a further digit. -/
def readUnsigned? (text : List Char) : Option (Option Nat × List Char) :=
  let (digits, rest) := spanDigits text
  if digits.isEmpty || (digits.head? = some '0' && 1 < digits.length) then none
  else do
    let afterFraction ← skipFraction? rest
    let afterExponent ← skipExponent? afterFraction
    let isWhole := afterExponent.length = rest.length
    return (if isWhole then some (digitsValue digits) else none, afterExponent)

/-! ## Strings -/

/-- A piece of a string: a character, or a code unit given by its number. -/
inductive StringItem where
  | char (c : Char)
  | unit (n : Nat)

/-- The value of a hexadecimal digit. -/
def hexDigit? (c : Char) : Option Nat :=
  if c.isDigit then some (c.toNat - 48)
  else if 'a' ≤ c && c ≤ 'f' then some (c.toNat - 87)
  else if 'A' ≤ c && c ≤ 'F' then some (c.toNat - 55)
  else none

/-- The code unit of four hexadecimal digits. -/
def hexUnit? (a b c d : Char) : Option Nat := do
  let digits ← [a, b, c, d].mapM hexDigit?
  return digits.foldl (fun n digit => 16 * n + digit) 0

/-- The character of a short escape. -/
def shortEscape? (c : Char) : Option Char :=
  if c = '"' || c = '\\' || c = '/' then some c
  else if c = 'b' then some (Char.ofNat 8)
  else if c = 'f' then some (Char.ofNat 12)
  else if c = 'n' then some '\n'
  else if c = 'r' then some '\r'
  else if c = 't' then some '\t'
  else none

/-- A string after its opening quote. -/
def readItems? : List Char → Option (List StringItem × List Char)
  | [] => none
  | '"' :: rest => some ([], rest)
  | '\\' :: 'u' :: a :: b :: c :: d :: rest => do
    let n ← hexUnit? a b c d
    let (items, rest) ← readItems? rest
    return (.unit n :: items, rest)
  | '\\' :: e :: rest => do
    let c ← shortEscape? e
    let (items, rest) ← readItems? rest
    return (.char c :: items, rest)
  | c :: rest =>
    if c.toNat < 32 then none
    else do
      let (items, rest) ← readItems? rest
      return (.char c :: items, rest)

/-- Whether a code unit is the first half of a surrogate pair. -/
def isHighSurrogate (n : Nat) : Bool := 0xD800 ≤ n && n < 0xDC00

/-- Whether a code unit is the second half of a surrogate pair. -/
def isLowSurrogate (n : Nat) : Bool := 0xDC00 ≤ n && n < 0xE000

/-- The characters that the pieces make. -/
def joinItems? : List StringItem → Option (List Char)
  | [] => some []
  | .char c :: rest => (joinItems? rest).map (c :: ·)
  | .unit high :: .unit low :: rest =>
    if isHighSurrogate high then
      if isLowSurrogate low then
        (joinItems? rest).map (Char.ofNat (0x10000 + (high - 0xD800) * 0x400 + (low - 0xDC00)) :: ·)
      else none
    else if isLowSurrogate high then none
    else (joinItems? (.unit low :: rest)).map (Char.ofNat high :: ·)
  | .unit n :: rest =>
    if isHighSurrogate n || isLowSurrogate n then none
    else (joinItems? rest).map (Char.ofNat n :: ·)

/-- The text of a string, if it has one. -/
def itemsText? (items : List StringItem) : Option String := (joinItems? items).map String.ofList

/-! ## Values -/

mutual

/-- A value after optional blanks. The depth bounds the nesting of calls. -/
def readValue? : Nat → List Char → Option (Json × List Char)
  | 0, _ => none
  | depth + 1, text =>
    match skipBlanks text with
    | 'n' :: 'u' :: 'l' :: 'l' :: rest => some (.null, rest)
    | 't' :: 'r' :: 'u' :: 'e' :: rest => some (.bool true, rest)
    | 'f' :: 'a' :: 'l' :: 's' :: 'e' :: rest => some (.bool false, rest)
    | '"' :: rest => (readItems? rest).map fun (items, rest) => (.string (itemsText? items), rest)
    | '-' :: rest => (readUnsigned? rest).map fun (_, rest) => (.number none, rest)
    | '[' :: rest =>
      match skipBlanks rest with
      | ']' :: rest => some (.array [], rest)
      | rest => (readElements? depth rest).map fun (elements, rest) => (.array elements, rest)
    | c :: rest =>
      if c = Char.ofNat 0x7B then
        match skipBlanks rest with
        | [] => none
        | d :: after =>
          if d = Char.ofNat 0x7D then some (.object [], after)
          else (readMembers? depth (d :: after)).map fun (members, rest) => (.object members, rest)
      else (readUnsigned? (c :: rest)).map fun (natural, rest) => (.number natural, rest)
    | [] => none

/-- The elements of an array up to its closing bracket. -/
def readElements? : Nat → List Char → Option (List Json × List Char)
  | 0, _ => none
  | depth + 1, text => do
    let (value, rest) ← readValue? depth text
    match skipBlanks rest with
    | ']' :: rest => return ([value], rest)
    | ',' :: rest =>
      let (values, rest) ← readElements? depth rest
      return (value :: values, rest)
    | _ => none

/-- The members of an object up to its closing brace. -/
def readMembers? : Nat → List Char → Option (List (Option String × Json) × List Char)
  | 0, _ => none
  | depth + 1, text =>
    match skipBlanks text with
    | '"' :: rest => do
      let (items, rest) ← readItems? rest
      match skipBlanks rest with
      | ':' :: rest =>
        let (value, rest) ← readValue? depth rest
        let member := (itemsText? items, value)
        match skipBlanks rest with
        | ',' :: rest =>
          let (members, rest) ← readMembers? depth rest
          return (member :: members, rest)
        | c :: rest => if c = Char.ofNat 0x7D then return ([member], rest) else none
        | [] => none
      | _ => none
    | _ => none

end

/-- The value that a text denotes, with blanks around it. -/
def ofText? (text : String) : Option Json := do
  let chars := text.toList
  let (value, rest) ← readValue? (2 * chars.length + 2) chars
  if (skipBlanks rest).isEmpty then return value else none

end Json

end Tenure

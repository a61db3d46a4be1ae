import Tenure.Decimal.Double

/-!
# Reading floating-point literals

A literal is an optional sign followed by digits with at most one point among them and an optional
decimal exponent, or by one of the words `inf`, `infinity` and `nan` in any case. It denotes the
nearest value of the format.
-/

namespace Tenure.Text

/-- Leading digits and what follows them. -/
def spanDigits (text : List Char) : List Char × List Char :=
  (text.takeWhile Char.isDigit, text.dropWhile Char.isDigit)

/-- The number that a list of decimal digits denotes. -/
def digitsValue (digits : List Char) : Nat :=
  digits.foldl (fun n c => 10 * n + (c.toNat - 48)) 0

end Tenure.Text

namespace Tenure.Double

open Text (spanDigits digitsValue)

/-- The value of `digits · 10 ^ k`. Magnitudes far outside the format are not computed. -/
def ofDecimal (negative : Bool) (digits : Nat) (k : Int) : Double :=
  let size : Int := (Nat.toDigits 10 digits).length + k
  if digits = 0 then zero negative
  else if 400 < size then .infinite negative
  else if size < -400 then zero negative
  else if 0 ≤ k then ofRatio negative (digits * Nat.pow 10 k.toNat) 1
  else ofRatio negative digits (Nat.pow 10 (-k).toNat)

/-- A sign, if one stands there, and what follows it. -/
def readSign : List Char → Bool × List Char
  | '-' :: rest => (true, rest)
  | '+' :: rest => (false, rest)
  | rest => (false, rest)

/-- A decimal exponent that takes up all of the text; no text is exponent 0. -/
def readExponent? : List Char → Option Int
  | [] => some 0
  | e :: rest =>
    let (negative, digits) := readSign rest
    if (e = 'e' ∨ e = 'E') ∧ digits ≠ [] ∧ digits.all Char.isDigit then
      let n : Int := digitsValue digits
      some (if negative then -n else n)
    else none

/-- An unsigned number that takes up all of the text. -/
def readNumber? (negative : Bool) (text : List Char) : Option Double :=
  let (whole, rest) := spanDigits text
  let (fraction, rest) :=
    match rest with
    | '.' :: after => spanDigits after
    | _ => ([], rest)
  if whole = [] ∧ fraction = [] then none
  else
    (readExponent? rest).map fun e =>
      ofDecimal negative (digitsValue (whole ++ fraction)) (e - fraction.length)

/-- The value a literal denotes. -/
def ofText? (literal : String) : Option Double :=
  let (negative, rest) := readSign literal.toList
  let word := rest.map Char.toLower
  if word = ['i', 'n', 'f'] ∨ word = ['i', 'n', 'f', 'i', 'n', 'i', 't', 'y'] then
    some (.infinite negative)
  else if word = ['n', 'a', 'n'] then some .nan
  else readNumber? negative rest

end Tenure.Double

/-!
# Binary floating-point values

The values of the 64-bit binary format as the listings need them: a sign and
`significand · 2 ^ exponent`, infinities, and one NaN.
-/

namespace Tenure

/-- A value of the 64-bit binary format. A finite value has `significand < 2 ^ 53` and
`-1074 ≤ exponent ≤ 971`, and the exponent is the least one unless the significand has 53 bits. -/
inductive Double where
  | nan
  | infinite (negative : Bool)
  | finite (negative : Bool) (significand : Nat) (exponent : Int)
deriving DecidableEq, Inhabited

namespace Double

/-- The bits of a full significand. -/
def precision : Nat := 53

/-- The exponent of the smallest positive value. -/
def leastExponent : Int := -1074

/-- The exponent of the greatest finite values. -/
def greatestExponent : Int := 971

/-- Zero with the given sign. -/
def zero (negative : Bool) : Double := .finite negative 0 leastExponent

/-- `num / den` rounded to a whole number, a half going to the even neighbour. -/
def roundHalfEven (num den : Nat) : Nat :=
  let low := num / den
  let twice := 2 * (num % den)
  if twice < den then low
  else if den < twice then low + 1
  else if low % 2 = 0 then low else low + 1

/-- `2 ^ e` for a nonnegative exponent, 1 for a negative one. -/
def powTwo (e : Int) : Nat := Nat.pow 2 e.toNat

/-- The value nearest to `num / den`, a tie going to the even significand. Beyond the greatest
finite value it is infinite. -/
def ofRatio (negative : Bool) (num den : Nat) : Double :=
  if num = 0 then zero negative
  else
    let guess : Int := (num.log2 : Int) - (den.log2 : Int) - precision
    let top := guess + precision
    let fitted :=
      if den * powTwo top ≤ num * powTwo (-top) then guess + 1 else guess
    let exponent := max leastExponent fitted
    let significand := roundHalfEven (num * powTwo (-exponent)) (den * powTwo exponent)
    let (significand, exponent) :=
      if significand = Nat.pow 2 precision then (Nat.pow 2 (precision - 1), exponent + 1)
      else (significand, exponent)
    if greatestExponent < exponent then .infinite negative
    else .finite negative significand exponent

end Double

end Tenure

import Tenure.Decimal.Double

/-!
# Shortest decimal text of a floating-point value

A finite value is written with the fewest digits that read back as the same value. Of two such
decimals the nearer one is written, and of two equally near ones the greater. The digits stand in
positional notation at every magnitude, without a point when the value is whole.
-/

namespace Tenure.Double

/-! ## The digits -/

/-- `10 ^ k` for a nonnegative exponent, 1 for a negative one. -/
def powTen (k : Int) : Nat := Nat.pow 10 k.toNat

/-- The multiple of `10 ^ k` to write for `significand · 2 ^ exponent`, if one of the two multiples
around the value reads back as it. The ends of the interval that reads back belong to it when the
significand is even. In units of a quarter of the last place the value is `4 * significand`; the
neighbour below is only half as far away when the significand is the least one of 53 bits. -/
def multipleAt? (significand : Nat) (exponent k : Int) : Option Nat :=
  let unit := powTwo (exponent - 2) * powTen (-k)
  let step := powTen k * powTwo (2 - exponent)
  let value := 4 * significand * unit
  let below :=
    if significand = Nat.pow 2 (precision - 1) ∧ leastExponent < exponent then unit else 2 * unit
  let low := value - below
  let high := value + 2 * unit
  let closed := significand % 2 = 0
  let down := value / step
  let up := down + 1
  let downOk : Bool := 0 < down ∧ (low < down * step ∨ (closed ∧ low = down * step))
  let upOk : Bool := up * step < high ∨ (closed ∧ up * step = high)
  match downOk, upOk with
  | true, true => if value - down * step < up * step - value then some down else some up
  | true, false => some down
  | false, true => some up
  | false, false => none

/-- Powers of ten in descending order, from above the greatest value to below the least. -/
def scales : List Int := (List.range 650).map fun (i : Nat) => 309 - (i : Int)

/-- The fewest digits that read back, and the power of ten they are multiplied with. -/
def shortest? (significand : Nat) (exponent : Int) : Option (Nat × Int) :=
  scales.findSome? fun k => (multipleAt? significand exponent k).map fun d => (d, k)

/-! ## The text -/

/-- `digits · 10 ^ k` in positional notation. -/
def positional (digits : Nat) (k : Int) : String :=
  let shown := Nat.toDigits 10 digits
  let places := (-k).toNat
  if 0 ≤ k then String.ofList (shown ++ List.replicate k.toNat '0')
  else if places < shown.length then
    let whole := shown.length - places
    String.ofList (shown.take whole ++ '.' :: shown.drop whole)
  else String.ofList ('0' :: '.' :: List.replicate (places - shown.length) '0' ++ shown)

/-- A floating-point value as listings write it. -/
def text : Double → String
  | .nan => "NaN"
  | .infinite negative => if negative then "-inf" else "inf"
  | .finite negative significand exponent =>
    let magnitude :=
      if significand = 0 then "0"
      else
        match shortest? significand exponent with
        | some (digits, k) => positional digits k
        | none => "0"
    if negative then "-" ++ magnitude else magnitude

end Tenure.Double

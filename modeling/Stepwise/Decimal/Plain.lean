import Stepwise.Decimal.Shortest

/-!
# Plain decimal text

The written form of an amount: the shortest digits that read back, always written out in full and
never with an exponent.  A whole number has no decimal point, a number below one starts with a
zero, and a negative zero keeps its sign.
-/

namespace Stepwise.Decimal

/-- Writes a decimal in full. -/
def Scaled.text (d : Scaled) : String :=
  let digits := Nat.toDigits 10 d.digits
  if 0 ≤ d.exponent then
    String.ofList (digits ++ List.replicate d.exponent.toNat '0')
  else
    let places := (-d.exponent).toNat
    let padded := List.replicate (places + 1 - digits.length) '0' ++ digits
    let lead := padded.length - places
    String.ofList (padded.take lead ++ '.' :: padded.drop lead)

/-- The written form of what a double stands for. -/
def Reading.text : Reading → String
  | .nan => "NaN"
  | .infinite negative => if negative then "-inf" else "inf"
  | .finite negative significand exponent =>
    (if negative then "-" else "") ++
      if significand = 0 then "0" else (shortest significand exponent).text

/-- The written form of a double. -/
def plainText (x : Float) : String :=
  (Reading.ofFloat x).text

example : plainText 0.25 = "0.25" := by decide +kernel
example : plainText 1e21 = "1000000000000000000000" := by decide +kernel
example : plainText (-0.0) = "-0" := by decide +kernel

end Stepwise.Decimal

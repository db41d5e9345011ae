/-!
# Doubles read as exact binary fractions

A finite double is a sign and an integer times a power of two.  This module reads both off the
64-bit pattern, so that everything the library says about the exact value of a double is integer
arithmetic.

Main definitions: `Reading.ofFloat` takes a double apart, and `wholeInt32?` recognises the doubles
that are signed 32-bit integers, which are the exponents that units and powers allow.
-/

namespace Stepwise.Decimal

/-- Two to the power of `n`. -/
def twoPow (n : Nat) : Nat :=
  Nat.pow 2 n

/-- Ten to the power of `n`. -/
def tenPow (n : Nat) : Nat :=
  Nat.pow 10 n

/-- What a double stands for. -/
inductive Reading where
  /-- Not a number. -/
  | nan
  /-- An infinity of the given sign. -/
  | infinite (negative : Bool)
  /-- The number `significand * 2 ^ exponent`, negated if `negative`. -/
  | finite (negative : Bool) (significand : Nat) (exponent : Int)
deriving DecidableEq

namespace Reading

/-- Reads a 64-bit pattern: one sign bit, eleven bits of exponent, 52 bits of fraction.  The
smallest exponent marks numbers without a hidden leading bit, the largest infinities and
not-a-number. -/
def ofBits (bits : Nat) : Reading :=
  let negative : Bool := bits / twoPow 63 % 2 = 1
  let field : Nat := bits / twoPow 52 % twoPow 11
  let fraction : Nat := bits % twoPow 52
  if field = 2047 then
    if fraction = 0 then .infinite negative else .nan
  else if field = 0 then
    .finite negative fraction (-1074)
  else
    .finite negative (twoPow 52 + fraction) (field - 1075)

/-- The reading of a double. -/
def ofFloat (x : Float) : Reading :=
  ofBits x.toBits.toNat

/-- The integer that a reading stands for, if it stands for one. -/
def whole? : Reading → Option Int
  | finite negative significand exponent =>
    let magnitude : Option Nat :=
      if 0 ≤ exponent then some (significand * twoPow exponent.toNat)
      else
        let divisor := twoPow (-exponent).toNat
        if significand % divisor = 0 then some (significand / divisor) else none
    magnitude.map fun n => if negative then -(n : Int) else n
  | _ => none

end Reading

/-- The signed 32-bit integer that a double stands for.  Fractions, numbers outside the range,
infinities and not-a-number stand for none; a negative zero stands for zero. -/
def wholeInt32? (x : Float) : Option Int :=
  match (Reading.ofFloat x).whole? with
  | some n => if -2147483648 ≤ n ∧ n ≤ 2147483647 then some n else none
  | none => none

example : wholeInt32? (-3.0) = some (-3) := by decide +kernel
example : wholeInt32? 0.5 = none := by decide +kernel
example : wholeInt32? 2147483648.0 = none := by decide +kernel

end Stepwise.Decimal

import Stepwise.Decimal.Binary

/-!
# The shortest decimal that reads back

Every double is the nearest double to a whole interval of reals.  Among the decimals of that
interval this module picks one with the fewest digits and, of those, the one nearest to the double;
of two that are equally near it takes the larger.

Decimals with few digits are the points of coarse grids: the multiples of `10 ^ e` for a large `e`.
The search therefore walks from a grid coarser than the number itself to finer ones, and stops at
the first grid that has a point in the interval.  If a grid has a point in it at all, then one of
the two points next to the number is in it, so two tests a grid suffice.  All arithmetic is on
natural numbers.
-/

namespace Stepwise.Decimal

/-- The decimal `digits * 10 ^ exponent`. -/
structure Scaled where
  digits : Nat
  exponent : Int
deriving DecidableEq

/-- The reals that read back as one double: a value with the ends of its interval, as fractions
over one denominator. -/
structure Interval where
  lower : Nat
  value : Nat
  upper : Nat
  denominator : Nat
  /-- Whether the ends themselves read back as the value. -/
  closed : Bool

/-- The rounding interval of `significand * 2 ^ exponent`.  It reaches half way to the neighbouring
doubles.  Below a power of two the doubles lie twice as dense, so there the lower end is closer.
The ends belong to it when the significand is even. -/
def Interval.around (significand : Nat) (exponent : Int) : Interval :=
  let below := if significand = twoPow 52 ∧ exponent > -1074 then 1 else 2
  let scale := twoPow (exponent - 2).toNat
  { lower := (4 * significand - below) * scale
    value := 4 * significand * scale
    upper := (4 * significand + 2) * scale
    denominator := twoPow (2 - exponent).toNat
    closed := significand % 2 = 0 }

/-- Whether `point * 10 ^ exponent` lies in the interval. -/
def Interval.holds (i : Interval) (point : Nat) (exponent : Int) : Bool :=
  let position := point * tenPow exponent.toNat * i.denominator
  let unit := tenPow (-exponent).toNat
  if i.closed then i.lower * unit ≤ position && position ≤ i.upper * unit
  else i.lower * unit < position && position < i.upper * unit

/-- The point of the grid of step `10 ^ exponent` that stands for the interval: of the points next
to the value those in the interval, of two the nearer, of two equally near the larger. -/
def Interval.pointOn (i : Interval) (exponent : Int) : Option Nat :=
  let numerator := i.value * tenPow (-exponent).toNat
  let step := tenPow exponent.toNat * i.denominator
  let below := numerator / step
  let remainder := numerator % step
  match i.holds below exponent, i.holds (below + 1) exponent with
  | true, true => some (if 2 * remainder < step then below else below + 1)
  | true, false => some below
  | false, true => some (below + 1)
  | false, false => none

/-- Walks from the grid of step `10 ^ exponent` to finer ones, for at most `fuel` grids. -/
def Interval.search (i : Interval) : Nat → Int → Scaled
  | 0, exponent => ⟨0, exponent⟩
  | fuel + 1, exponent =>
    match i.pointOn exponent with
    | some point => ⟨point, exponent⟩
    | none => i.search fuel (exponent - 1)

/-- The shortest decimal of `significand * 2 ^ exponent`.  The first grid is coarser than the
number; seventeen digits always suffice, so forty grids do. -/
def shortest (significand : Nat) (exponent : Int) : Scaled :=
  let bits : Int := significand.log2 + 2 + exponent
  (Interval.around significand exponent).search 40 (bits * 30103 / 100000 + 1)

/-- A tenth has one digit. -/
example : shortest 7205759403792794 (-56) = ⟨1, -1⟩ := by decide +kernel

/-- The smallest positive double: three and seven read back too, five is nearer. -/
example : shortest 1 (-1074) = ⟨5, -324⟩ := by decide +kernel

end Stepwise.Decimal

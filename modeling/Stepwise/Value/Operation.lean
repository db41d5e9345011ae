import Stepwise.Decimal.Binary
import Stepwise.Value.Basic

/-!
# Operators on values

What the operators compute.  Operands of the wrong kind, units that do not go together and exponents
that leave their range are failures.

Sums and comparisons need equal units; products and quotients combine them.  A power needs a whole
exponent without a unit, and is computed by squaring, so that its rounding is fixed.  The second
operand of a conjunction or disjunction is looked at only if the first does not decide.
-/

namespace Stepwise

/-- The failure of a value of the wrong kind. -/
def wrongKind (expected : String) (value : Value) : ExceptionKind :=
  .typeMismatch expected value.kind

/-- The number that a value is. -/
def Value.toNumber : Value → Except ExceptionKind NumberValue
  | .number n => .ok n
  | other => .error (wrongKind "number" other)

/-- The boolean that a value is. -/
def Value.toBoolean : Value → Except ExceptionKind Bool
  | .boolean b => .ok b
  | other => .error (wrongKind "boolean" other)

/-- Fails unless two numbers have the same unit. -/
def requireSameUnit (left right : NumberValue) : Except ExceptionKind Unit :=
  if left.unit = right.unit then .ok ()
  else .error (.incompatibleUnits left.unit.written right.unit.written)

/-- The unit computed, or the failure that an exponent of `operand` overflowed. -/
def requireUnit (operand : MeasureUnit) : Option MeasureUnit → Except ExceptionKind MeasureUnit
  | some unit => .ok unit
  | none => .error (.unitOverflow operand.written)

/-! ## Powers -/

/-- Multiplies `result` by the power of `factor` that the binary digits of `exponent` ask for,
lowest digit first, for at most `digits` digits. -/
def squareMultiply : Nat → Float → Float → Nat → Float
  | 0, result, _, _ => result
  | digits + 1, result, factor, exponent =>
    if exponent = 0 then result
    else
      let result := if exponent % 2 = 1 then result * factor else result
      squareMultiply digits result (factor * factor) (exponent / 2)

/-- An amount raised to a whole exponent; a negative exponent takes the reciprocal at the end. -/
def amountPower (amount : Float) (exponent : Int) : Float :=
  let power := squareMultiply 32 1.0 amount exponent.natAbs
  if exponent < 0 then 1.0 / power else power

/-- The whole exponent that a number stands for. -/
def wholeExponent (exponent : NumberValue) : Except ExceptionKind Int :=
  match exponent.unit.isUnitless, Decimal.wholeInt32? exponent.amount with
  | true, some whole => .ok whole
  | _, _ => .error (.typeMismatch "unitless integer exponent" "number")

/-- A number raised to another. -/
def NumberValue.power (base exponent : NumberValue) : Except ExceptionKind NumberValue := do
  let whole ← wholeExponent exponent
  let unit ← requireUnit base.unit (base.unit.power whole)
  pure ⟨amountPower base.amount whole, unit⟩

/-! ## Operators -/

/-- Operators whose operands are both numbers. -/
def applyToNumbers (op : BinaryOperator) (left right : NumberValue) :
    Except ExceptionKind Value := do
  match op with
  | .add =>
    requireSameUnit left right
    pure (.measure (left.amount + right.amount) left.unit)
  | .subtract =>
    requireSameUnit left right
    pure (.measure (left.amount - right.amount) left.unit)
  | .less =>
    requireSameUnit left right
    pure (.boolean (left.amount < right.amount))
  | .greater =>
    requireSameUnit left right
    pure (.boolean (left.amount > right.amount))
  | .multiply =>
    let unit ← requireUnit left.unit (left.unit.product right.unit)
    pure (.measure (left.amount * right.amount) unit)
  | .divide =>
    let unit ← requireUnit left.unit (left.unit.quotient right.unit)
    pure (.measure (left.amount / right.amount) unit)
  | _ => do
    let n ← left.power right
    pure (.number n)

/-- The result of an operator between two values. -/
def BinaryOperator.apply (op : BinaryOperator) (left right : Value) :
    Except ExceptionKind Value := do
  match op with
  | .equal => pure (.boolean (left == right))
  | .notEqual => pure (.boolean (left != right))
  | .and =>
    if ← left.toBoolean then
      let b ← right.toBoolean
      pure (.boolean b)
    else pure (.boolean false)
  | .or =>
    if ← left.toBoolean then pure (.boolean true)
    else
      let b ← right.toBoolean
      pure (.boolean b)
  | _ => do
    let l ← left.toNumber
    let r ← right.toNumber
    applyToNumbers op l r

/-- The result of an operator before a value. -/
def UnaryOperator.apply (op : UnaryOperator) (operand : Value) : Except ExceptionKind Value := do
  match op with
  | .negate =>
    let n ← operand.toNumber
    pure (.measure (-n.amount) n.unit)
  | .not =>
    let b ← operand.toBoolean
    pure (.boolean !b)

end Stepwise

import Stepwise.Decimal.Binary
import Stepwise.Syntax.Tree

/-!
# Units of number types

The unit of a number type is written, or left open, or follows from an operation on other number
types.  `NumberUnit.concrete` works out the last kind.  It always has an answer: an open unit, and
an operation that cannot be worked out, count as the unit of plain numbers.
-/

namespace Stepwise

/-- Applies a rule to the unit of the left operand, the unit of the right operand if that is a
number, and a constant. -/
def UnitRule.apply (rule : UnitRule) (left : MeasureUnit) (right : Option MeasureUnit)
    (constant : Option Float) : Option MeasureUnit :=
  match rule with
  | .same => some left
  | .product => right.bind left.product
  | .quotient => right.bind left.quotient
  | .power => (constant.bind Decimal.wholeInt32?).bind left.power

mutual

/-- The unit that a number type stands for. -/
def NumberUnit.concrete : NumberUnit → MeasureUnit
  | .fixed unit => unit
  | .wildcard => .empty
  | .derived rule left right constant =>
    match left.concreteUnit? with
    | some unit => (rule.apply unit (concreteUnitOf? right) constant).getD .empty
    | none => .empty
termination_by structural u => u

/-- The unit of a type, if it is a number type. -/
def Ty.concreteUnit? : Ty → Option MeasureUnit
  | .number unit => some unit.concrete
  | _ => none
termination_by structural t => t

/-- The unit of an optional type. -/
def concreteUnitOf? : Option Ty → Option MeasureUnit
  | some ty => ty.concreteUnit?
  | none => none
termination_by structural t => t

end

/-- Whether numbers of the unit `given` may stand where `expected` is expected: one of them is open,
or both stand for the same unit. -/
def NumberUnit.accepts : NumberUnit → NumberUnit → Bool
  | .wildcard, _ => true
  | _, .wildcard => true
  | expected, given => expected.concrete == given.concrete

/-- Whether the unit follows from an operation. -/
def NumberUnit.isDerived : NumberUnit → Bool
  | .derived .. => true
  | _ => false

end Stepwise

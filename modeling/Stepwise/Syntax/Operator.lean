/-!
# Operators

The operators of the language and their symbols.  Some operators can be written with a second,
plainer symbol; `symbol` gives the preferred one, and `ofSymbol?_symbol` says that it is read back.
-/

namespace Stepwise

/-- An operator between two operands. -/
inductive BinaryOperator where
  | add | subtract | multiply | divide | power | equal | notEqual | less | greater | and | or
deriving DecidableEq

namespace BinaryOperator

/-- The preferred symbol. -/
def symbol : BinaryOperator → String
  | add => "+"
  | subtract => "-"
  | multiply => "·"
  | divide => "÷"
  | power => "^"
  | equal => "="
  | notEqual => "≠"
  | less => "<"
  | greater => ">"
  | and => "∧"
  | or => "∨"

/-- The operator that a symbol is read as. -/
def ofSymbol? (symbol : String) : Option BinaryOperator :=
  match symbol with
  | "+" => some add
  | "-" => some subtract
  | "·" | "*" => some multiply
  | "÷" | "/" => some divide
  | "^" => some power
  | "=" => some equal
  | "≠" => some notEqual
  | "<" => some less
  | ">" => some greater
  | "∧" | "&" => some and
  | "∨" | "|" => some or
  | _ => none

/-- The preferred symbol of an operator is read as that operator. -/
@[simp] theorem ofSymbol?_symbol (op : BinaryOperator) : ofSymbol? op.symbol = some op := by
  cases op <;> rfl

/-- The name of an operator. -/
def label : BinaryOperator → String
  | add => "Add"
  | subtract => "Subtract"
  | multiply => "Multiply"
  | divide => "Divide"
  | power => "Power"
  | equal => "Equal"
  | notEqual => "NotEqual"
  | less => "Less"
  | greater => "Greater"
  | and => "And"
  | or => "Or"

/-- Arithmetic operators yield numbers; all others yield booleans. -/
def isArithmetic : BinaryOperator → Bool
  | add | subtract | multiply | divide | power => true
  | _ => false

end BinaryOperator

/-- An operator before one operand. -/
inductive UnaryOperator where
  | negate | not
deriving DecidableEq

namespace UnaryOperator

/-- The symbol of an operator. -/
def symbol : UnaryOperator → String
  | negate => "-"
  | not => "¬"

/-- The operator that a symbol is read as. -/
def ofSymbol? (symbol : String) : Option UnaryOperator :=
  match symbol with
  | "-" => some negate
  | "¬" => some not
  | _ => none

end UnaryOperator

end Stepwise

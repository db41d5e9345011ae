import Stepwise.Program

/-!
# Sample programs

The theorems are tried on small programs, which are put together from the pieces below.  In a sample
the expressions and declarations are numbered, since what has been found out about them is kept
under their identities.  Nothing is kept under the identity of a name or of a token, so all of these
have the same.
-/

namespace Stepwise

/-! ## Tokens and names -/

def tokenOf (text : String) (kind : TokenKind) : Token :=
  ⟨⟨0⟩, text, kind⟩

def nameOf (text : String) : Name :=
  ⟨⟨0⟩, tokenOf text .name, none⟩

/-! ## Expressions -/

def booleanOf (id : Nat) (value : Bool) : Expr :=
  .boolean ⟨id⟩ (tokenOf (if value then "⊤" else "⊥") .boolean) value

def numberOf (id : Nat) (amount : Float) (unit : MeasureUnit) : Expr :=
  .number ⟨id⟩ (tokenOf "" .number) amount unit

def referenceOf (id : Nat) (text : String) : Expr :=
  .reference ⟨id⟩ (tokenOf text .name)

/-- The expression `⎡…⎦`. -/
def listOf (id : Nat) (items : List Expr) : Expr :=
  .list ⟨id⟩ (tokenOf "⎡" .listOpen) items (tokenOf "⎦" .listClose)

def unaryOf (id : Nat) (op : UnaryOperator) (operand : Expr) : Expr :=
  .unary ⟨id⟩ (tokenOf op.symbol .operator) op operand

def binaryOf (id : Nat) (left : Expr) (op : BinaryOperator) (right : Expr) : Expr :=
  .binary ⟨id⟩ left (tokenOf op.symbol .operator) op right

def accessOf (id : Nat) (subject : Expr) (member : String) : Expr :=
  .access ⟨id⟩ subject (tokenOf "." .structural) (tokenOf member .name)

/-- The expression `condition ? yes no`. -/
def choiceOf (id : Nat) (condition yes no : Expr) : Expr :=
  .conditional ⟨id⟩ condition (tokenOf "?" .conditional) yes no

/-! ## Declarations -/

/-- A declaration under one name, which may be an input too. -/
def binderOf (id : Nat) (text : String) (ty : Option Ty) (value : Option Expr) : Binder :=
  ⟨⟨id⟩, [nameOf text], ty, value, false⟩

/-- An input that collects the rest of the arguments. -/
def restOf (id : Nat) (text : String) (ty : Ty) : Binder :=
  ⟨⟨id⟩, [nameOf text], some ty, none, true⟩

/-- The binding `text: value`. -/
def bindingOf (id : Nat) (text : String) (value : Expr) : Binder :=
  binderOf id text none (some value)

/-- A function without type parameters. -/
def functionOf (id : Nat) (text : String) (inputs : List Binder) (output : Option Ty)
    (body : Option Expr) : FunctionDef :=
  ⟨⟨id⟩, [nameOf text], [], inputs, output, body⟩

/-! ## Calls -/

/-- A call without explicit types. -/
def callWith (id : Nat) (callee : Expr) (inputs : List Expr) : Call :=
  ⟨⟨id⟩, [], callee, tokenOf "(" .evalOpen, inputs, tokenOf ")" .evalClose⟩

/-- A call of what has the name, without arguments. -/
def callOf (id callee : Nat) (text : String) : Expr :=
  .call (callWith id (referenceOf callee text) [])

/-! ## Evaluators -/

/-- An evaluator that has evaluated nothing, over what the program declares. -/
def startOf (program : Program) : Evaluator :=
  .new { lexicon := program.lexicon } .empty {}

end Stepwise

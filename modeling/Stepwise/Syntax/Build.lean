import Stepwise.Syntax.Describe

/-!
# Building trees

Trees can be built without a parser.  Building draws identities from a supply, so that no two nodes
share one, and gives every node the tokens that it would have been written with.  Each function
takes the identity of the node that it builds, which lets the caller number a node before its parts;
the tokens take fresh ones.
-/

namespace Stepwise

/-- A computation that draws fresh identities; the state is the first one not in use. -/
abbrev Build := StateM Nat

namespace Build

/-- An identity that no other node has. -/
def fresh : Build NodeId :=
  modifyGet fun next => (⟨next⟩, next + 1)

/-- A token of its own identity. -/
def token (text : String) (kind : TokenKind) : Build Token := do
  pure ⟨← fresh, text, kind⟩

/-- A language tag. -/
def language (code : String) : Build Language := do
  pure ⟨← fresh, code⟩

/-- An optional language tag. -/
def language? (code : Option String) : Build (Option Language) := do
  match code with
  | none => pure none
  | some code => pure (some (← language code))

/-- An alias, tagged with a language if one is given. -/
def name (id : NodeId) (text : String) (code : Option String) : Build Name := do
  let tok ← token text .name
  pure ⟨id, tok, ← language? code⟩

/-- A boolean, written as the sign for top or bottom. -/
def boolean (id : NodeId) (value : Bool) : Build Expr := do
  pure (.boolean id (← token (if value then "⊤" else "⊥") .boolean) value)

/-- A number, written as its amount and its unit. -/
def number (id : NodeId) (amount : Float) (unit : MeasureUnit) : Build Expr := do
  pure (.number id (← token (amountText amount unit) .number) amount unit)

/-- A text, given with its quotation marks. -/
def text (id : NodeId) (written : String) (code : Option String) : Build Expr := do
  let tok ← token written .text
  pure (.text id tok (← language? code))

/-- A list. -/
def list (id : NodeId) (items : List Expr) : Build Expr := do
  pure (.list id (← token "[" .listOpen) items (← token "]" .listClose))

/-- A conditional. -/
def conditional (id : NodeId) (condition yes no : Expr) : Build Expr := do
  pure (.conditional id condition (← token "?" .conditional) yes no)

/-- A call. -/
def call (id : NodeId) (types : List TypeInput) (callee : Expr) (inputs : List Expr) :
    Build Call := do
  pure ⟨id, types, callee, ← token "(" .evalOpen, inputs, ← token ")" .evalClose⟩

/-- A deletion of rows. -/
def delete (id : NodeId) (table query : Expr) : Build Expr := do
  pure (.delete id table (← token "⌫" .delete) query)

/-- An insertion of a row. -/
def insert (id : NodeId) (table : Expr) (cells : List Binder) : Build Expr := do
  pure (.insert id table (← token "+" .insert) cells)

/-- A reference to a name. -/
def reference (id : NodeId) (text : String) : Build Expr := do
  pure (.reference id (← token text .name))

/-- A member of an instance. -/
def access (id : NodeId) (subject : Expr) (member : String) : Build Expr := do
  pure (.access id subject (← token "." .access) (← token member .name))

/-- An operation on two operands. -/
def binary (id : NodeId) (left : Expr) (op : BinaryOperator) (right : Expr) : Build Expr := do
  pure (.binary id left (← token op.symbol .operator) op right)

/-- An operation on one operand. -/
def unary (id : NodeId) (op : UnaryOperator) (operand : Expr) : Build Expr := do
  pure (.unary id (← token op.symbol .operator) op operand)

/-- Text that could not be parsed, as one token. -/
def unparsable (id : NodeId) (text : String) : Build Expr := do
  pure (.unparsable id [← token text .unknown])

end Build

end Stepwise

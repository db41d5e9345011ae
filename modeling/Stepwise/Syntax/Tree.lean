import Stepwise.MeasureUnit
import Stepwise.Syntax.Operator
import Stepwise.Syntax.Token

/-!
# Program trees

A program is an immutable tree.  Expressions, the declarations in them and the types written on
these declarations refer to one another: a declaration has a type and a value, a table type lists
columns, which are declarations, and a structure type carries the definition of its structure.
They therefore form one family of inductive types.

* `Expr`: the seventeen forms of expression.
* `Binder`: a declared parameter, column, structure field, named argument or bind statement.
* `Call`, `FunctionDef`, `StructDef`: the forms of expression that other parts of the library take
  as arguments of their own.
* `Ty`, `NumberUnit`, `TypeInput`: types, the unit of a number type, and a type given at a call.

Types have no identity of their own; all other nodes do.
-/

namespace Stepwise

/-- A type parameter of a definition. -/
structure TypeVariable where
  id : NodeId
  name : Name
deriving DecidableEq

/-- The name by which types refer to a type parameter. -/
def TypeVariable.text (var : TypeVariable) : String :=
  var.name.text

/-- Why a type could not be determined. -/
inductive UnknownReason where
  /-- The type depends on itself. -/
  | cycle
  /-- The expression could not be parsed. -/
  | unparsable
  /-- What is called is neither a function nor a structure definition. -/
  | notCallable
  /-- Nothing declares the name. -/
  | unknownName (name : String)
  /-- A list without elements. -/
  | noElements
  /-- No type was written and none could be inferred. -/
  | unspecified
deriving DecidableEq

/-- How a derived unit follows from the units of the operands. -/
inductive UnitRule where
  /-- The unit of the left operand. -/
  | same
  | product
  | quotient
  /-- The unit of the left operand, raised to a constant. -/
  | power
deriving DecidableEq

mutual

/-- An expression. -/
inductive Expr where
  | boolean (id : NodeId) (token : Token) (value : Bool)
  /-- A number with its unit. -/
  | number (id : NodeId) (token : Token) (amount : Float) (unit : MeasureUnit)
  /-- A text; the token keeps the quotation marks. -/
  | text (id : NodeId) (token : Token) (language : Option Language)
  | list (id : NodeId) (opening : Token) (items : List Expr) (closing : Token)
  | conditional (id : NodeId) (condition : Expr) (question : Token) (yes no : Expr)
  | call (call : Call)
  /-- The rows of a table for which a query is false. -/
  | delete (id : NodeId) (table : Expr) (mark : Token) (query : Expr)
  /-- A table with one more row, given by one named value per column. -/
  | insert (id : NodeId) (table : Expr) (mark : Token) (cells : List Binder)
  | reference (id : NodeId) (name : Token)
  /-- A member of a structure instance. -/
  | access (id : NodeId) (subject : Expr) (dot name : Token)
  | binary (id : NodeId) (left : Expr) (mark : Token) (op : BinaryOperator) (right : Expr)
  | unary (id : NodeId) (mark : Token) (op : UnaryOperator) (operand : Expr)
  | function (definition : FunctionDef)
  | struct (definition : StructDef)
  | block (id : NodeId) (statements : List Expr)
  /-- A bind statement, or a named argument of a call. -/
  | bind (binder : Binder)
  /-- Tokens that stand where an expression could not be parsed. -/
  | unparsable (id : NodeId) (tokens : List Token)

/-- A call of a function or structure definition, with arguments and types for its type
parameters. -/
structure Call where
  id : NodeId
  typeInputs : List TypeInput
  callee : Expr
  opening : Token
  inputs : List Expr
  closing : Token

/-- A declaration: aliases, a written type and a value.  The value is the default of a parameter
and the given value of a statement or an argument. -/
structure Binder where
  id : NodeId
  names : List Name
  ty : Option Ty
  value : Option Expr
  /-- Whether the declaration collects all arguments that are left. -/
  rest : Bool

/-- A type given at a call for a type parameter of the callee. -/
structure TypeInput where
  id : NodeId
  ty : Ty

/-- A function definition.  One without a body is abstract. -/
structure FunctionDef where
  id : NodeId
  names : List Name
  typeVars : List TypeVariable
  inputs : List Binder
  output : Option Ty
  body : Option Expr

/-- A structure definition.  Calling it binds its inputs and runs its block; everything bound along
the way becomes a member of the instance. -/
structure StructDef where
  id : NodeId
  names : List Name
  typeVars : List TypeVariable
  inputs : List Binder
  block : Option Expr

/-- A type. -/
inductive Ty where
  | function (typeVars : List TypeVariable) (inputs : List Binder) (output : Ty)
  | list (item : Ty)
  | table (columns : List Binder)
  | number (unit : NumberUnit)
  | text (language : Option String)
  | boolean
  /-- The instances of a structure, with types for its type parameters by position. -/
  | struct (definition : StructDef) (args : List Ty)
  /-- A structure definition itself, which is called to build an instance. -/
  | structDef (definition : StructDef) (args : List Ty)
  /-- A type parameter of a definition. -/
  | var (name : String)
  /-- A written name that has not been resolved. -/
  | name (name : String)
  | union (members : List Ty)
  | any
  | unknown (reason : UnknownReason) (node : Option NodeId)

/-- The unit of a number type. -/
inductive NumberUnit where
  | fixed (unit : MeasureUnit)
  /-- Any unit. -/
  | wildcard
  /-- A unit that follows from the types of operands. -/
  | derived (rule : UnitRule) (left : Ty) (right : Option Ty) (constant : Option Float)

end

/-- What a name stands for. -/
inductive Definition where
  | bind (binder : Binder)
  | function (definition : FunctionDef)
  | struct (definition : StructDef)
  | typeVariable (var : TypeVariable)
  /-- An input stream supplied by the host. -/
  | stream (name : String) (ty : Ty)
  /-- A constant supplied by the host. -/
  | host (name : String) (ty : Ty)

/-! ## Common types -/

namespace Ty

/-- Plain numbers. -/
def plainNumber : Ty :=
  .number (.fixed .empty)

/-- Numbers of any unit. -/
def anyNumber : Ty :=
  .number .wildcard

/-- Whether the type could not be determined. -/
def isUnknown : Ty → Bool
  | .unknown .. => true
  | _ => false

end Ty

/-! ## Expressions -/

namespace Expr

/-- The identity of an expression. -/
def id : Expr → NodeId
  | .boolean id .. | .number id .. | .text id .. | .list id .. | .conditional id ..
  | .delete id .. | .insert id .. | .reference id .. | .access id .. | .binary id ..
  | .unary id .. | .block id .. | .unparsable id .. => id
  | .call c => c.id
  | .function definition => definition.id
  | .struct definition => definition.id
  | .bind binder => binder.id

/-- Whether the expression stands for text that could not be parsed. -/
def isUnparsable : Expr → Bool
  | .unparsable .. => true
  | _ => false

end Expr

/-! ## Declarations -/

namespace Binder

/-- The aliases of a declaration. -/
def aliases (binder : Binder) : List String :=
  binder.names.map Name.text

/-- The first alias. -/
def primaryName (binder : Binder) : String :=
  Stepwise.primaryName binder.names

/-- A declaration is required when it has no value and does not collect what is left. -/
def isRequired (binder : Binder) : Bool :=
  binder.value.isNone && !binder.rest

/-- Whether the declaration has a value of its own. -/
def hasDefault (binder : Binder) : Bool :=
  binder.value.isSome

/-- Whether `name` is one of the aliases. -/
def hasName (binder : Binder) (name : String) : Bool :=
  binder.aliases.any (· == name)

/-- Whether two declarations have an alias in common. -/
def sharesName (binder other : Binder) : Bool :=
  other.aliases.any binder.hasName

theorem sharesName_iff {a b : Binder} :
    a.sharesName b = true ↔ ∃ name ∈ b.aliases, name ∈ a.aliases := by
  simp [sharesName, hasName]

end Binder

/-! ## Definitions -/

namespace FunctionDef

/-- The aliases of a function. -/
def aliases (f : FunctionDef) : List String :=
  f.names.map Name.text

/-- The first alias. -/
def primaryName (f : FunctionDef) : String :=
  Stepwise.primaryName f.names

/-- Whether `name` is one of the aliases. -/
def hasName (f : FunctionDef) (name : String) : Bool :=
  f.aliases.any (· == name)

/-- Whether the function has no body. -/
def isAbstract (f : FunctionDef) : Bool :=
  f.body.isNone

end FunctionDef

namespace StructDef

/-- The aliases of a structure. -/
def aliases (s : StructDef) : List String :=
  s.names.map Name.text

/-- The first alias. -/
def primaryName (s : StructDef) : String :=
  Stepwise.primaryName s.names

/-- Whether `name` is one of the aliases. -/
def hasName (s : StructDef) (name : String) : Bool :=
  s.aliases.any (· == name)

/-- The statements of the block; an expression that is not a block counts as one statement. -/
def statements (s : StructDef) : List Expr :=
  match s.block with
  | some (.block _ statements) => statements
  | some other => [other]
  | none => []

/-- The input with the given alias. -/
def inputNamed? (s : StructDef) (name : String) : Option Binder :=
  s.inputs.find? (·.hasName name)

/-- The function definitions among the statements. -/
def functions (s : StructDef) : List FunctionDef :=
  s.statements.filterMap fun
    | .function definition => some definition
    | _ => none

/-- The first function with the given alias. -/
def functionNamed? (s : StructDef) (name : String) : Option FunctionDef :=
  s.functions.find? (·.hasName name)

/-- The first bind statement with the given alias. -/
def bindNamed? (s : StructDef) (name : String) : Option Binder :=
  s.statements.findSome? fun
    | .bind binder => if binder.hasName name then some binder else none
    | _ => none

/-- The functions without a body.  A structure that has any cannot be instantiated. -/
def abstractFunctions (s : StructDef) : List FunctionDef :=
  s.functions.filter (·.isAbstract)

end StructDef

end Stepwise

import Stepwise.Syntax.Equality
import Stepwise.Typing.Names
import Stepwise.Typing.Query
import Stepwise.Typing.Substitution

/-!
# Types of declarations

The type of a declaration is the one written on it, or the type of its value.  This module says so
for every kind of declaration, and for the members of a structure.  Where the type of an expression
is needed it is asked for through a parameter `ask`, so that the definitions here do not depend on
how expressions are inferred.
-/

namespace Stepwise

/-- A way to obtain the type of an expression. -/
abbrev Ask := Expr → Query Ty

/-- The name of the type variable that stands for the elements of a list. -/
def itemVariable : String :=
  "Item"

/-- Resolves the names of a type where the query runs. -/
def resolved (ty : Ty) : Query Ty := do
  return ty.resolveNames (← read)

/-- The type of a declaration: the written type, else that of the value.  A declaration that
collects all arguments left has a list type. -/
def Binder.typeWith (ask : Ask) (b : Binder) : Query Ty := do
  let declared ←
    match b.ty, b.value with
    | some ty, _ => resolved ty
    | none, some value => ask value
    | none, none => pure (.unknown .unspecified (some b.id))
  pure (if b.rest then .list declared else declared)

/-- The type of a function: its output is the written one, else that of its body. -/
def FunctionDef.typeWith (ask : Ask) (f : FunctionDef) : Query Ty := do
  let output ←
    match f.output, f.body with
    | some output, _ => resolved output
    | none, some body => ask body
    | none, none => pure (.unknown .unspecified (some f.id))
  pure (.function f.typeVars f.inputs output)

/-- The type of a name that stands for the definition. -/
def Definition.typeWith (ask : Ask) : Definition → Query Ty
  | .bind b => b.typeWith ask
  | .function f => f.typeWith ask
  | .struct s => pure (.structDef s [])
  | .typeVariable v => pure (.var v.text)
  | .stream _ ty => pure ty
  | .host _ ty => pure ty

/-! ## Structures -/

/-- The argument given for a type parameter of a structure, by position. -/
def StructDef.argumentFor? (s : StructDef) (args : List Ty) (name : String) : Option Ty :=
  match s.typeVars.findIdx? (·.text == name) with
  | some index => args[index]?
  | none => none

/-- The type that a receiver supplies for a type variable: lists know their elements and structures
their arguments. -/
def Ty.supplied? (receiver : Ty) (name : String) : Option Ty :=
  match receiver with
  | .list item => if name == itemVariable then some item else none
  | .struct definition args => definition.argumentFor? args name
  | _ => none

/-- The type of a member of a structure, with the arguments put in.  Inputs come before functions,
and functions before bind statements. -/
def StructDef.memberTypeWith (ask : Ask) (s : StructDef) (args : List Ty) (name : String) :
    Query (Option Ty) := do
  let declared ←
    match s.inputNamed? name with
    | some input => some <$> input.typeWith ask
    | none =>
      match s.functionNamed? name with
      | some f => some <$> f.typeWith ask
      | none =>
        match s.bindNamed? name with
        | some b => some <$> b.typeWith ask
        | none => pure none
  pure (declared.map (·.substitute (s.argumentFor? args)))

end Stepwise

import Stepwise.Typing.Declared
import Stepwise.Typing.Units

/-!
# Which types accept which

`Ty.acceptsWith` decides whether a value of one type may stand where another type is expected.  A
type variable that nothing has resolved accepts and is accepted by everything, and so is the type of
all values.  A union is accepted when each member is, and accepts what any member accepts.  Written
names are resolved on the way.  Lists of unknown elements go with all lists, tables are compared by
column names, functions by the shape of their inputs, and structures by their definitions alone.

The columns of a table may have values instead of written types, whose types have to be asked for;
they may hold tables again, so the comparison has a budget.

`Ty.unionWith` joins types: it keeps the first of those that accept each other.
-/

namespace Stepwise

/-- Whether the type goes with every type. -/
def Ty.isOpen : Ty → Bool
  | .any => true
  | .var _ => true
  | _ => false

/-- Whether the type is a written name. -/
def Ty.isName : Ty → Bool
  | .name _ => true
  | _ => false

/-- Whether the types of two inputs go together, by `accepts`; an input without a written type goes
with every input. -/
def inputTypesAgree (accepts : Ty → Ty → Query Bool) (expected given : Binder) : Query Bool := do
  match expected.ty, given.ty with
  | some expected, some given => accepts (← resolved expected) (← resolved given)
  | _, _ => pure true

/-- Whether two inputs have types that go together and the same facets. -/
def inputsAgree (accepts : Ty → Ty → Query Bool) (expected given : Binder) : Query Bool := do
  let agree ← inputTypesAgree accepts expected given
  pure (agree && expected.rest == given.rest && expected.hasDefault == given.hasDefault)

/-- Whether a table of the columns `given` has, for one expected column, a column of the same name
and of an accepted type. -/
def columnAccepted (ask : Ask) (accepts : Ty → Ty → Query Bool) (given : List Binder)
    (column : Binder) : Query Bool := do
  match given.find? column.sharesName with
  | some other => do
    let expected ← column.typeWith ask
    let found ← other.typeWith ask
    accepts expected found
  | none => pure false

/-- Compares two types that are neither open nor unions nor names. -/
def acceptsForm (ask : Ask) (accepts : Ty → Ty → Query Bool) (expected given : Ty) :
    Query Bool := do
  match expected, given with
  | .boolean, .boolean => pure true
  | .text _, .text _ => pure true
  | .number expected, .number given => pure (expected.accepts given)
  | .list expected, .list given =>
    if expected.isUnknown || given.isUnknown then pure true else accepts expected given
  | .table expected, .table given =>
    if expected.length = given.length then expected.allM (columnAccepted ask accepts given)
    else pure false
  | .function _ expected expectedOutput, .function _ given givenOutput =>
    if ← accepts expectedOutput givenOutput then
      if expected.length = given.length then
        (expected.zip given).allM fun pair => inputsAgree accepts pair.1 pair.2
      else pure false
    else pure false
  | .struct expected _, .struct given _ => pure (expected.id == given.id)
  | .structDef expected _, .structDef given _ => pure (expected.id == given.id)
  | _, _ => pure false

/-- Compares two types of which one at least is a written name. -/
def acceptsNamed (accepts : Ty → Ty → Query Bool) (expected given : Ty) : Query Bool := do
  match ← resolved expected, ← resolved given with
  | .name expected, .name given => pure (expected == given)
  | expected, given =>
    if expected.isName || given.isName then pure false else accepts expected given

/-- Whether a value of type `given` may stand where `expected` is expected. -/
def Ty.acceptsWith (ask : Ask) : Nat → Ty → Ty → Query Bool
  | 0, _, _ => .outOfBudget
  | budget + 1, expected, given =>
    if expected.isOpen || given.isOpen then pure true
    else
      match given with
      | .union members => members.allM (expected.acceptsWith ask budget)
      | _ =>
        match expected with
        | .union members => members.anyM (·.acceptsWith ask budget given)
        | _ =>
          if expected.isName || given.isName then
            acceptsNamed (Ty.acceptsWith ask budget) expected given
          else
            acceptsForm ask (Ty.acceptsWith ask budget) expected given

/-- Whether two types accept each other. -/
def Ty.compatibleWith (ask : Ask) (budget : Nat) (a b : Ty) : Query Bool := do
  if ← a.acceptsWith ask budget b then b.acceptsWith ask budget a else pure false

/-! ## Unions -/

/-- Adds a type to the members of a union unless it is compatible with one of them. -/
def joinMember (compatible : Ty → Ty → Query Bool) (members : List Ty) (ty : Ty) :
    Query (List Ty) := do
  if ← members.anyM (compatible · ty) then pure members else pure (members ++ [ty])

/-- Adds a type, or the members of a union one after the other. -/
def joinType (compatible : Ty → Ty → Query Bool) (members : List Ty) (ty : Ty) :
    Query (List Ty) :=
  match ty with
  | .union types => types.foldlM (joinMember compatible) members
  | other => joinMember compatible members other

/-- The type that stands for the members: none, the only one, or their union. -/
def unionOfMembers : List Ty → Option Ty
  | [] => none
  | [only] => some only
  | members => some (.union members)

/-- The union of types, in the order in which they are given. -/
def Ty.unionWith (ask : Ask) (budget : Nat) (types : List Ty) : Query (Option Ty) := do
  let members ← types.foldlM (joinType (Ty.compatibleWith ask budget)) []
  pure (unionOfMembers members)

end Stepwise

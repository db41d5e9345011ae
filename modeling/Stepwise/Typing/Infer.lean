import Stepwise.Call.Site
import Stepwise.Typing.Acceptance

/-!
# Inferring types

`Expr.inferWith` gives the type of an expression in terms of the types of others, one rule per form.
`Expr.typeOf` closes the recursion: it answers from the memo where it can and spends one unit of its
budget on every query it nests.

Arithmetic yields a number whose unit is derived from the operand types; it is worked out only when
types are compared.
-/

namespace Stepwise

/-- The type of a list literal: a list of the union of its element types.  Elements that could not
be parsed are skipped. -/
def listTypeWith (ask : Ask) (budget : Nat) (id : NodeId) (items : List Expr) : Query Ty := do
  let parsed := items.filter fun e => !e.isUnparsable
  let members ← parsed.foldlM (fun members e => do
    let ty ← ask e
    joinType (Ty.compatibleWith ask budget) members ty) []
  pure (.list ((unionOfMembers members).getD (.unknown .noElements (some id))))

/-- The constant exponent of a power, when it is written as a number. -/
def constantOf? : Expr → Option Float
  | .number _ _ amount _ => some amount
  | _ => none

/-- The type of an arithmetic operation on operands of the given types. -/
def arithmeticType (op : BinaryOperator) (left rightTy : Ty) (right : Expr) : Ty :=
  match left with
  | .number _ =>
    match op with
    | .add | .subtract => .number (.derived .same left none none)
    | .multiply =>
      match rightTy with
      | .number _ => .number (.derived .product left (some rightTy) none)
      | _ => .anyNumber
    | .divide =>
      match rightTy with
      | .number _ => .number (.derived .quotient left (some rightTy) none)
      | _ => .anyNumber
    | _ => .number (.derived .power left none (constantOf? right))
  | _ => .anyNumber

/-- The type of a negated operand. -/
def negationType : Ty → Ty
  | .number unit => .number (.derived .same (.number unit) none none)
  | _ => .anyNumber

/-- The type of a member access. -/
def accessTypeWith (ask : Ask) (id : NodeId) (subject : Expr) (member : String) : Query Ty := do
  let unknown := Ty.unknown (.unknownName member) (some id)
  match ← resolved (← ask subject) with
  | .struct definition args =>
    pure ((← definition.memberTypeWith ask args member).getD unknown)
  | _ => pure unknown

/-- The type of a reference: that of what the name stands for. -/
def referenceTypeWith (ask : Ask) (id : NodeId) (name : String) : Query Ty := do
  match (← read).find? name with
  | some definition => definition.typeWith ask
  | none => pure (.unknown (.unknownName name) (some id))

/-- The type of an expression in terms of the types of others. -/
def Expr.inferWith (ask : Ask) (budget : Nat) : Expr → Query Ty
  | .boolean .. => pure .boolean
  | .number _ _ _ unit => pure (.number (.fixed unit))
  | .text _ _ tag => pure (.text (tag.map Language.code))
  | .list id _ items _ => listTypeWith ask budget id items
  | .conditional _ _ _ yes _ =>
    if yes.isUnparsable then pure (.unknown .unparsable (some yes.id)) else ask yes
  | .call c => c.outputWith ask
  | .delete _ table _ _ => ask table
  | .insert _ table _ _ => ask table
  | .reference id name => referenceTypeWith ask id name.text
  | .access id subject _ member => accessTypeWith ask id subject member.text
  | .binary _ left _ op right =>
    if op.isArithmetic then do
      let leftTy ← ask left
      let rightTy ← ask right
      pure (arithmeticType op leftTy rightTy right)
    else pure .boolean
  | .unary _ _ .not _ => pure .boolean
  | .unary _ _ .negate operand => do
    let ty ← ask operand
    pure (negationType ty)
  | .function f => f.typeWith ask
  | .struct s => pure (.structDef s [])
  | .block id statements =>
    match statements.getLast? with
    | some last => ask last
    | none => pure (.unknown .unspecified (some id))
  | .bind b => b.typeWith ask
  | .unparsable id _ => pure (.unknown .unparsable (some id))

/-- The type of an expression. -/
def Expr.typeOf : Nat → Ask
  | 0, _ => .outOfBudget
  | budget + 1, e => .guarded e.id (e.inferWith (Expr.typeOf budget) budget)

/-! ## The questions that callers ask -/

/-- The type of a name that stands for the definition. -/
def Definition.typeOf (budget : Nat) (definition : Definition) : Query Ty :=
  definition.typeWith (Expr.typeOf budget)

/-- The type of a declaration. -/
def Binder.typeOf (budget : Nat) (b : Binder) : Query Ty :=
  b.typeWith (Expr.typeOf budget)

/-- The type of a function. -/
def FunctionDef.typeOf (budget : Nat) (f : FunctionDef) : Query Ty :=
  f.typeWith (Expr.typeOf budget)

/-- The type of a member of a structure. -/
def StructDef.memberTypeOf (budget : Nat) (s : StructDef) (args : List Ty) (name : String) :
    Query (Option Ty) :=
  s.memberTypeWith (Expr.typeOf budget) args name

/-- Whether a value of type `given` may stand where `expected` is expected. -/
def Ty.accepts (budget : Nat) (expected given : Ty) : Query Bool :=
  expected.acceptsWith (Expr.typeOf budget) budget given

/-- Whether two types accept each other. -/
def Ty.compatible (budget : Nat) (a b : Ty) : Query Bool :=
  a.compatibleWith (Expr.typeOf budget) budget b

/-- The union of types. -/
def Ty.unionOf (budget : Nat) (types : List Ty) : Query (Option Ty) :=
  Ty.unionWith (Expr.typeOf budget) budget types

/-- The type of a call. -/
def Call.outputType (budget : Nat) (call : Call) : Query Ty :=
  call.outputWith (Expr.typeOf budget)

end Stepwise

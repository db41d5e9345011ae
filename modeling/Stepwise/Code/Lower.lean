import Stepwise.Code.Instruction
import Stepwise.Typing.Infer

/-!
# Lowering

`Expr.lower` turns an expression into code.  Code leaves one value on the stack: operands come
first, from left to right, then the instruction that uses them up.

Two forms need more than their parts.  A conditional becomes jumps around the branch not taken, and
has no markers of its own.  A call is laid out by the plan of its arguments against the inputs of
its callee, which the type of the callee tells: one value per input in the order of the inputs,
defaults written out in their place, then the callee.  What cannot be evaluated becomes a halt.

Since defaults are written out, lowering a call may lower a call of the same function again; the
budget bounds how deeply this goes.
-/

namespace Stepwise

/-- Code between the markers of an expression. -/
def enclose (e : Expr) (body : Code) : Code :=
  .start e :: body ++ [.finish e]

/-- The code of expressions, one after the other. -/
def lowerAll (lower : Expr → Query Code) : List Expr → Query Code
  | [] => pure []
  | e :: rest => do
    let first ← lower e
    let others ← lowerAll lower rest
    pure (first ++ others)

/-- The code of a slot of a call. -/
def lowerSlot (lower : Expr → Query Code) (call : NodeId) : Slot → Query Code
  | .given value => lower value
  | .default value => lower value
  | .missing input => pure [.halt call (.missingInput input.primaryName)]
  | .rest values => lowerAll lower values

/-- The code of the slots of a call. -/
def lowerSlots (lower : Expr → Query Code) (call : NodeId) : List Slot → Query Code
  | [] => pure []
  | slot :: slots => do
    let first ← lowerSlot lower call slot
    let others ← lowerSlots lower call slots
    pure (first ++ others)

/-- The code of a call. -/
def lowerCall (ask : Ask) (lower : Expr → Query Code) (call : Call) : Query Code := do
  match Callee.ofTy? (← ask call.callee) with
  | none => pure [.halt call.id (.notCallable call.callee.describe)]
  | some callee =>
    if call.callee.isUnparsable || call.inputs.any Expr.isUnparsable then
      pure [.halt call.id .unparsable]
    else do
      let arguments ← lowerSlots lower call.id (plan callee.inputs call.inputs)
      let calleeCode ← lower call.callee
      pure (enclose (.call call) (arguments ++ calleeCode))

/-- The code of a declaration's value; a halt at the declaration if there is none. -/
def lowerValue (lower : Expr → Query Code) (b : Binder) : Query Code := do
  match b.value with
  | some value => lower value
  | none => pure [.halt b.id (.missingValue b.primaryName)]

/-- The code of the values of declarations. -/
def lowerValues (lower : Expr → Query Code) : List Binder → Query Code
  | [] => pure []
  | b :: rest => do
    let first ← lowerValue lower b
    let others ← lowerValues lower rest
    pure (first ++ others)

/-- The code of a conditional: the condition, a jump over the first branch, the first branch with a
jump over the second, and the second branch. -/
def conditionalCode (id : NodeId) (condition yes no : Code) : Code :=
  condition ++ .jumpIfFalse yes.length id :: yes ++ .jump no.length id :: no

/-- The code of an expression, in terms of the code of its parts. -/
def Expr.lowerWith (ask : Ask) (lower : Expr → Query Code) (e : Expr) : Query Code := do
  match e with
  | .list _ _ items _ => return enclose e (← lowerAll lower items)
  | .conditional id condition _ yes no => do
    let yesCode ← lower yes
    let noCode ← lower no
    let conditionCode ← lower condition
    pure (conditionalCode id conditionCode yesCode noCode)
  | .call c => lowerCall ask lower c
  | .delete _ table _ _ => return enclose e (← lower table)
  | .insert _ table _ cells => do
    let tableCode ← lower table
    let cellCode ← lowerValues lower cells
    pure (enclose e (tableCode ++ cellCode))
  | .access _ subject _ _ => return enclose e (← lower subject)
  | .binary _ left _ _ right => return enclose e (← lowerAll lower [left, right])
  | .unary _ _ _ operand => return enclose e (← lower operand)
  | .block _ statements => return enclose e (← lowerAll lower statements)
  | .bind b => return enclose e (← lowerValue lower b)
  | .unparsable id _ => pure [.halt id .unparsable]
  | _ => pure [.finish e]

/-- The code of an expression. -/
def Expr.lower : Nat → Expr → Query Code
  | 0, _ => .outOfBudget
  | budget + 1, e => e.lowerWith (Expr.typeOf budget) (Expr.lower budget)

end Stepwise

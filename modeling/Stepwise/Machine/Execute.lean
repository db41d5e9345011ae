import Stepwise.Call.Binding
import Stepwise.Machine.Evaluator
import Stepwise.Syntax.Quotation
import Stepwise.Value.Operation

/-!
# Executing expressions

What an expression does when its operands are on the stack: it takes them, and answers its value.  A
call answers nothing, since the frame that it starts will produce its value.

Table operations are analysed but cannot be evaluated.
-/

namespace Stepwise

open Stepwise.Action

/-- Makes a definition into a value over the current scope, and binds its names to it. -/
def executeDefinition (aliases : List String) (close : Scope → Value) : Action Value := do
  let scope ← captureScope
  let value := close scope
  bindAll aliases value
  pure value

/-- The value of a member of an instance: what is bound in it, else a function of its structure. -/
def memberValue? (definition : StructDef) (scope : Scope) (name : String) : Option Value :=
  match scope.bindings.find? name with
  | some value => some value
  | none => (definition.functionNamed? name).map fun f => .function f scope

/-- Accesses a member of the instance on the stack. -/
def executeAccess (id : NodeId) (name : String) : Action Value := do
  match ← popOperand with
  | .struct definition scope =>
    match memberValue? definition scope name with
    | some value => pure value
    | none => failAt id (.unknownName name)
  | other => failAt id (wrongKind "structure" other)

/-- Takes the values that a call of something with these inputs has laid out, and binds them. -/
def takeArguments (call : Call) (inputs : List Binder) : Action Bindings := do
  let values ← popOperands (valueCount (plan inputs call.inputs))
  match bindInputs inputs values.reverse with
  | .ok bindings => pure bindings
  | .error exception => throw (exception.atNode call.id)

/-- Calls the callee on the stack. -/
def executeCall (budget : Nat) (call : Call) : Action Unit := do
  match ← popOperand with
  | .function f scope => do
    let bindings ← takeArguments call f.inputs
    blaming call.id (callFunction budget f scope bindings)
  | .structDef s scope => do
    let bindings ← takeArguments call s.inputs
    blaming call.id (instantiate budget s scope bindings)
  | _ => failAt call.id (.notCallable call.callee.describe)

/-- The value of a block: that of the last of its statements. -/
def executeBlock (id : NodeId) (count : Nat) : Action Value := do
  match ← popOperands count with
  | last :: _ => pure last
  | [] => failAt id .noValue

/-- Executes an expression whose operands are on the stack. -/
def Expr.execute (budget : Nat) : Expr → Action (Option Value)
  | .boolean _ _ value => pure (some (.boolean value))
  | .number _ _ amount unit => pure (some (.measure amount unit))
  | .text _ token tag => pure (some (.text ⟨unquoted token.text, tag.map Language.code⟩))
  | .list _ _ items _ => do
    let values ← popOperands items.length
    pure (some (.list values.reverse))
  | .conditional .. => pure none
  | .call c => do
    executeCall budget c
    pure none
  | .delete id .. => do
    let _ ← popOperand
    failAt id .notImplemented
  | .insert id .. => failAt id .notImplemented
  | .reference id name => do
    match (← get).lookup name.text with
    | some value => pure (some value)
    | none => failAt id (.unknownName name.text)
  | .access id _ _ name => some <$> executeAccess id name.text
  | .binary id _ _ op _ => do
    let right ← popOperand
    let left ← popOperand
    some <$> ofResult id (op.apply left right)
  | .unary id _ op _ => do
    let operand ← popOperand
    some <$> ofResult id (op.apply operand)
  | .function f => some <$> executeDefinition f.aliases (.function f)
  | .struct s => some <$> executeDefinition s.aliases (.structDef s)
  | .block id statements => some <$> executeBlock id statements.length
  | .bind b => do
    let value ← popOperand
    bindAll b.aliases value
    pure (some value)
  | .unparsable .. => pure none

end Stepwise

import Stepwise.Syntax.Tree

/-!
# Matching arguments to inputs

A call gives arguments, some of them named; a definition declares inputs.  Matching goes through the
inputs in order and takes arguments from a pool.  A required input takes the next argument.  An
optional one takes the argument named after it, else the next argument if that has no name, else
nothing, so that its default is used.  An input that collects the rest takes all that is left.

`takeFor` is one step of this.  `plan` turns it into one slot per input, which says what value the
input gets, and `valueCount` counts the values that the slots ask for.
-/

namespace Stepwise

/-! ## Callees -/

/-- What can be called. -/
inductive Callee where
  | function (typeVars : List TypeVariable) (inputs : List Binder) (output : Ty)
  | struct (definition : StructDef) (args : List Ty)

namespace Callee

/-- The callee that a type describes, if values of the type can be called. -/
def ofTy? : Ty → Option Callee
  | .function vars inputs output => some (.function vars inputs output)
  | .structDef definition args => some (.struct definition args)
  | _ => none

/-- The kind of a callee, in a word. -/
def kindName : Callee → String
  | .function .. => "function"
  | .struct .. => "structure"

/-- The declared inputs. -/
def inputs : Callee → List Binder
  | .function _ inputs _ => inputs
  | .struct definition _ => definition.inputs

/-- The declared type parameters. -/
def typeVars : Callee → List TypeVariable
  | .function vars _ _ => vars
  | .struct definition _ => definition.typeVars

end Callee

/-! ## Arguments -/

/-- The declaration behind a named argument. -/
def namedArgument? : Expr → Option Binder
  | .bind b => some b
  | _ => none

/-- The expression that an argument gives.  A named argument without a value stands for itself. -/
def argumentValue : Expr → Expr
  | .bind b => b.value.getD (.bind b)
  | other => other

/-- Whether an argument is named after an input. -/
def isNamedFor (input : Binder) (argument : Expr) : Bool :=
  match namedArgument? argument with
  | some b => input.sharesName b
  | none => false

/-! ## One step of matching -/

/-- What an input takes from the pool. -/
inductive Taken where
  | argument (e : Expr)
  | rest (es : List Expr)
  | nothing

/-- The first argument named after the input, with the arguments that are left. -/
def takeNamed (input : Binder) : List Expr → Option (Expr × List Expr)
  | [] => none
  | e :: pool =>
    if isNamedFor input e then some (e, pool)
    else (takeNamed input pool).map fun found => (found.1, e :: found.2)

/-- The first argument of the pool, with the arguments that are left. -/
def takeFirst : List Expr → Taken × List Expr
  | [] => (.nothing, [])
  | e :: pool => (.argument e, pool)

/-- The first argument of the pool if it has no name. -/
def takePositional : List Expr → Taken × List Expr
  | [] => (.nothing, [])
  | e :: pool => if (namedArgument? e).isNone then (.argument e, pool) else (.nothing, e :: pool)

/-- What an input takes from the pool, and what it leaves. -/
def takeFor (input : Binder) (pool : List Expr) : Taken × List Expr :=
  if input.isRequired then takeFirst pool
  else if input.rest then (.rest pool, [])
  else
    match takeNamed input pool with
    | some (e, left) => (.argument e, left)
    | none => takePositional pool

/-! ## Plans -/

/-- What gives an input its value. -/
inductive Slot where
  /-- The value of an argument. -/
  | given (value : Expr)
  /-- The default of the input. -/
  | default (value : Expr)
  /-- Nothing. -/
  | missing (input : Binder)
  /-- The values of all arguments left, as a list. -/
  | rest (values : List Expr)

/-- The slot of an input that took something, or nothing, from the pool. -/
def Slot.ofTaken (input : Binder) : Taken → Slot
  | .argument e => .given (argumentValue e)
  | .rest es => .rest (es.map argumentValue)
  | .nothing =>
    match input.value with
    | some value => .default value
    | none => .missing input

/-- One slot per input, in the order of the inputs. -/
def plan : List Binder → List Expr → List Slot
  | [], _ => []
  | input :: inputs, pool =>
    let (taken, left) := takeFor input pool
    .ofTaken input taken :: plan inputs left

/-- How many values a slot asks for. -/
def Slot.count : Slot → Nat
  | .rest values => values.length
  | _ => 1

/-- How many values a plan leaves on the stack before the callee. -/
def valueCount : List Slot → Nat
  | [] => 0
  | slot :: slots => slot.count + valueCount slots

/-- A plan has one slot per input. -/
@[simp] theorem length_plan (inputs : List Binder) (pool : List Expr) :
    (plan inputs pool).length = inputs.length := by
  induction inputs generalizing pool with
  | nil => rfl
  | cons input inputs ih => simp [plan, ih]

end Stepwise

import Stepwise.Call.Inputs
import Stepwise.Typing.Infer

/-!
# Checking calls

The conflicts of a call.  Something that cannot be called, or a structure with abstract functions,
is reported alone.  Otherwise the arguments are matched to the inputs as `takeFor` does, and each is
compared with the type that its input has at this call.  Matching ends at the first required input
that gets nothing; arguments left over at the end are reported together.

Callees and arguments that could not be parsed, and input lists in the wrong order, are reported
elsewhere, and a call with any of them is not checked.
-/

namespace Stepwise

/-- The conflict of an argument whose type its input does not accept. -/
def checkArgument (budget : Nat) (input : Binder) (argument : Expr) (expected : Ty) :
    Query (List Conflict) := do
  match argumentValue argument with
  | .bind _ => pure []
  | value => do
    let given ← value.typeOf budget
    if ← expected.accepts budget given then pure []
    else
      pure [{ kind := .incompatibleInput input.primaryName expected given, primary := [value.id],
              secondary := some [input.id] }]

/-- The conflict of an argument that a required input takes although it is named after others. -/
def checkRequired (budget : Nat) (input : Binder) (argument : Expr) (expected : Ty) :
    Query (List Conflict) := do
  match namedArgument? argument with
  | some b =>
    if input.sharesName b then checkArgument budget input argument expected
    else
      pure [{ kind := .unexpectedInput input.primaryName b.primaryName, primary := [argument.id],
              secondary := some [input.id] }]
  | none => checkArgument budget input argument expected

/-- The type of one argument of an input that collects them. -/
def itemOf : Ty → Ty
  | .list item => item
  | other => other

/-- The conflicts of the arguments that an input collects. -/
def checkRest (budget : Nat) (input : Binder) (expected : Ty) : List Expr → Query (List Conflict)
  | [] => pure []
  | argument :: rest => do
    let own ← checkArgument budget input argument expected
    let others ← checkRest budget input expected rest
    pure (own ++ others)

/-- The conflict of arguments that no input takes. -/
def leftoverConflict (call : Call) (pool : List Expr) : List Conflict :=
  if pool.isEmpty then []
  else
    [{ kind := .unexpectedInputs pool.length, primary := pool.map Expr.id,
       secondary := some [call.callee.id] }]

/-- The conflicts of matching the arguments of `pool` to inputs. -/
def checkInputs (budget : Nat) (call : Call) (callee : Callee) :
    List Binder → List Expr → Query (List Conflict)
  | [], pool => pure (leftoverConflict call pool)
  | input :: inputs, pool => do
    let declared ← input.typeOf budget
    let expected ← call.instantiate (Expr.typeOf budget) callee declared
    let (taken, left) := takeFor input pool
    match taken with
    | .nothing =>
      if input.isRequired then
        pure [{ kind := .missingInput input.primaryName, primary := [call.id],
                secondary := some [input.id] }]
      else checkInputs budget call callee inputs left
    | .argument e => do
      let own ←
        if input.isRequired then checkRequired budget input e expected
        else checkArgument budget input e expected
      let others ← checkInputs budget call callee inputs left
      pure (own ++ others)
    | .rest es => do
      let own ← checkRest budget input (itemOf expected) es
      let others ← checkInputs budget call callee inputs left
      pure (own ++ others)

/-- The conflict of calling a structure that has abstract functions. -/
def abstractConflict (call : Call) : Callee → List Conflict
  | .struct definition _ =>
    let functions := definition.abstractFunctions
    if functions.isEmpty then []
    else
      [{ kind := .notInstantiable definition.primaryName (functions.map (·.primaryName)),
         primary := [call.callee.id], secondary := some (functions.map (·.id)) }]
  | .function .. => []

/-- Whether the arguments of a call to a callee are checked at all. -/
def isCheckable (call : Call) (callee : Callee) : Bool :=
  (inputListConflicts callee.inputs).isEmpty &&
    call.inputs.all fun argument => !(argumentValue argument).isUnparsable

/-- The conflicts of a call. -/
def Call.conflicts (budget : Nat) (call : Call) : Query (List Conflict) := do
  if call.callee.isUnparsable then return []
  let calleeTy ← call.callee.typeOf budget
  match Callee.ofTy? calleeTy with
  | none => pure [{ kind := .notCallable calleeTy, primary := [call.callee.id] }]
  | some callee =>
    match abstractConflict call callee with
    | [] =>
      if isCheckable call callee then checkInputs budget call callee callee.inputs call.inputs
      else pure []
    | found => pure found

end Stepwise

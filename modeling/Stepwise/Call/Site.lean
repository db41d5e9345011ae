import Stepwise.Call.Plan
import Stepwise.Typing.Declared

/-!
# Type variables at a call

A call implies types for the type parameters of its callee.  In this order: the type written at the
call for the parameter, the type that the receiver of a member access supplies, and the type of an
argument whose input is declared with the parameter.  An input declared with a function that yields
the parameter counts too, if no input is declared with the parameter itself.

`outputWith` is the type of a call: that of the function's output, or of the structure's instances,
with these types put in.
-/

namespace Stepwise

/-- Whether a written type is the type variable `name`. -/
def Ty.mentions (name : String) : Ty → Bool
  | .var n => n == name
  | .name n => n == name
  | _ => false

/-- Whether an input is declared with the type variable `name`. -/
def declaredWith (name : String) (input : Binder) : Bool :=
  match input.ty with
  | some ty => ty.mentions name
  | none => false

/-- Whether an input is declared with a function that yields the type variable `name`. -/
def declaredYielding (name : String) (input : Binder) : Bool :=
  match input.ty with
  | some (.function _ _ output) => output.mentions name
  | _ => false

/-- The position of the input that tells about a type variable, and whether it does so by what it
yields. -/
def tellingInput? (inputs : List Binder) (name : String) : Option (Nat × Bool) :=
  match inputs.findIdx? (declaredWith name) with
  | some index => some (index, false)
  | none => (inputs.findIdx? (declaredYielding name)).map fun index => (index, true)

/-- The argument for an input: one named after it, wherever it stands, else the one at its position
if that has no name. -/
def argumentAt? (given : List Expr) (input : Binder) (index : Nat) : Option Expr :=
  match given.find? (isNamedFor input) with
  | some argument => some argument
  | none => given[index]?.filter fun argument => (namedArgument? argument).isNone

/-- The argument that tells about a type variable, and whether it does so by what it yields. -/
def tellingArgument? (inputs : List Binder) (given : List Expr) (name : String) :
    Option (Expr × Bool) := do
  let (index, yielding) ← tellingInput? inputs name
  let input ← inputs[index]?
  let argument ← argumentAt? given input index
  match argumentValue argument with
  | .bind _ => none
  | value => pure (value, yielding)

/-- What the type of an argument says about a type variable; an unknown type says nothing. -/
def toldType (yielding : Bool) (ty : Ty) : Option Ty :=
  let told :=
    match yielding, ty with
    | true, .function _ _ output => some output
    | true, _ => none
    | false, other => some other
  told.filter fun ty => !ty.isUnknown

/-- The type given at the call for a type parameter of the callee. -/
def explicitType? (call : Call) (callee : Callee) (name : String) : Option Ty := do
  let index ← callee.typeVars.findIdx? (·.text == name)
  let input ← call.typeInputs[index]?
  pure input.ty

/-- The type that the receiver of a member access supplies for a type variable. -/
def receiverType? (ask : Ask) (callee : Expr) (name : String) : Query (Option Ty) := do
  match callee with
  | .access _ subject _ _ => pure ((← ask subject).supplied? name)
  | _ => pure none

/-- The type that an argument of the call tells for a type variable. -/
def argumentType? (ask : Ask) (call : Call) (callee : Callee) (name : String) :
    Query (Option Ty) := do
  match tellingArgument? callee.inputs call.inputs name with
  | some (value, yielding) => pure (toldType yielding (← ask value))
  | none => pure none

/-- The type that a call implies for a type variable of its callee. -/
def Call.typeFor? (ask : Ask) (call : Call) (callee : Callee) (name : String) :
    Query (Option Ty) := do
  match explicitType? call callee name with
  | some ty => some <$> resolved ty
  | none =>
    match ← receiverType? ask call.callee name with
    | some ty => pure (some ty)
    | none => argumentType? ask call callee name

/-- Puts the types that a call implies into a type; variables that nothing resolves stay. -/
def Call.instantiate (ask : Ask) (call : Call) (callee : Callee) (ty : Ty) : Query Ty :=
  ty.substituteM (call.typeFor? ask callee)

/-- The arguments of the structure type that a call builds: one per type parameter. -/
def Call.structArgs (ask : Ask) (call : Call) (callee : Callee) :
    List TypeVariable → Query (List Ty)
  | [] => pure []
  | v :: rest => do
    let arg ← call.typeFor? ask callee v.text
    let args ← call.structArgs ask callee rest
    pure (arg.getD (.var v.text) :: args)

/-- The type of a call. -/
def Call.outputWith (ask : Ask) (call : Call) : Query Ty := do
  match Callee.ofTy? (← ask call.callee) with
  | some callee@(.function _ _ output) => call.instantiate ask callee output
  | some callee@(.struct definition _) => do
    let args ← call.structArgs ask callee definition.typeVars
    pure (.struct definition args)
  | none => pure (.unknown .notCallable (some call.id))

end Stepwise

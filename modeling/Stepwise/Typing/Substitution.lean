import Stepwise.Syntax.Tree

/-!
# Substituting type variables

`Ty.substituteM` goes through a type from left to right and asks, at every type variable, for the
type to put in its place.  Answering may have effects, as it does where an answer is the type of an
argument that has to be inferred first.  Answers are not searched for variables, and a variable
without an answer stays.  The operands of a derived unit are not part of the walk.

`Ty.substitute` is the case without effects.
-/

namespace Stepwise

section Monadic

variable {m : Type → Type} [Monad m]

mutual

/-- Puts the answers to its type variables into a type. -/
def Ty.substituteM (answer : String → m (Option Ty)) : Ty → m Ty
  | .var name => do
    match ← answer name with
    | some ty => pure ty
    | none => pure (.var name)
  | .list item => do
    let item ← item.substituteM answer
    pure (.list item)
  | .function vars inputs output => do
    let inputs ← substituteInBindersM answer inputs
    let output ← output.substituteM answer
    pure (.function vars inputs output)
  | .table columns => do
    let columns ← substituteInBindersM answer columns
    pure (.table columns)
  | .struct definition args => do
    let args ← substituteInTysM answer args
    pure (.struct definition args)
  | .structDef definition args => do
    let args ← substituteInTysM answer args
    pure (.structDef definition args)
  | .union members => do
    let members ← substituteInTysM answer members
    pure (.union members)
  | other => pure other
termination_by structural t => t

/-- Puts the answers into types. -/
def substituteInTysM (answer : String → m (Option Ty)) : List Ty → m (List Ty)
  | [] => pure []
  | t :: rest => do
    let t ← t.substituteM answer
    let rest ← substituteInTysM answer rest
    pure (t :: rest)
termination_by structural ts => ts

/-- Puts the answers into the written type of a declaration. -/
def Binder.substituteM (answer : String → m (Option Ty)) : Binder → m Binder
  | ⟨id, names, ty, value, rest⟩ => do
    let ty ← substituteInTyM? answer ty
    pure ⟨id, names, ty, value, rest⟩
termination_by structural b => b

/-- Puts the answers into the written types of declarations. -/
def substituteInBindersM (answer : String → m (Option Ty)) : List Binder → m (List Binder)
  | [] => pure []
  | b :: rest => do
    let b ← b.substituteM answer
    let rest ← substituteInBindersM answer rest
    pure (b :: rest)
termination_by structural bs => bs

/-- Puts the answers into an optional type. -/
def substituteInTyM? (answer : String → m (Option Ty)) : Option Ty → m (Option Ty)
  | none => pure none
  | some t => do
    let t ← t.substituteM answer
    pure (some t)
termination_by structural t => t

end

end Monadic

/-- Puts the answers to its type variables into a type, without effects. -/
def Ty.substitute (answer : String → Option Ty) (ty : Ty) : Ty :=
  Id.run (ty.substituteM fun name => pure (answer name))

@[simp] theorem Ty.substitute_var (answer : String → Option Ty) (name : String) :
    (Ty.var name).substitute answer = (answer name).getD (.var name) := by
  simp only [Ty.substitute, Ty.substituteM, pure_bind]
  cases answer name <;> rfl

end Stepwise

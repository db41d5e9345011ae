import Stepwise.Lexicon

/-!
# Resolving type names

Types are written with names.  `Ty.resolveNames` replaces the names of structures by the structure
types they stand for, and the names of type parameters by type variables.  A name that stands for
something else, or for nothing, is kept.

The function goes through lists, functions, tables, structure arguments and unions.  In a
declaration it changes the written type and nothing else.
-/

namespace Stepwise

/-- The type that a written name stands for. -/
def Context.namedType (ctx : Context) (name : String) : Ty :=
  match ctx.find? name with
  | some (.struct definition) => .struct definition []
  | some (.typeVariable v) => .var v.text
  | _ => .name name

mutual

/-- Resolves the names in a type. -/
def Ty.resolveNames (ctx : Context) : Ty → Ty
  | .name name => ctx.namedType name
  | .list item => .list (item.resolveNames ctx)
  | .function vars inputs output =>
    .function vars (resolveInBinders ctx inputs) (output.resolveNames ctx)
  | .table columns => .table (resolveInBinders ctx columns)
  | .struct definition args => .struct definition (resolveInTys ctx args)
  | .structDef definition args => .structDef definition (resolveInTys ctx args)
  | .union members => .union (resolveInTys ctx members)
  | other => other
termination_by structural t => t

/-- Resolves the names in types. -/
def resolveInTys (ctx : Context) : List Ty → List Ty
  | [] => []
  | t :: rest => t.resolveNames ctx :: resolveInTys ctx rest
termination_by structural ts => ts

/-- Resolves the names in the written type of a declaration. -/
def Binder.resolveNames (ctx : Context) : Binder → Binder
  | ⟨id, names, ty, value, rest⟩ => ⟨id, names, resolveInTy? ctx ty, value, rest⟩
termination_by structural b => b

/-- Resolves the names in the written types of declarations. -/
def resolveInBinders (ctx : Context) : List Binder → List Binder
  | [] => []
  | b :: rest => b.resolveNames ctx :: resolveInBinders ctx rest
termination_by structural bs => bs

/-- Resolves the names in an optional type. -/
def resolveInTy? (ctx : Context) : Option Ty → Option Ty
  | none => none
  | some t => some (t.resolveNames ctx)
termination_by structural t => t

end

end Stepwise

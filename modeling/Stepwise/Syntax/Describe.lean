import Stepwise.Decimal.Plain
import Stepwise.Syntax.Tree

/-!
# Describing expressions and types

Messages name expressions and types by short texts.  A type is written much as it is in a program:
`#m/s` for a number with a unit, `[#]` for a list, `ƒ(a•# b:) ?` for a function whose second input
has a default.  An unknown type is written `∅`, and a unit that follows from an operation `#…`.
-/

namespace Stepwise

/-- The kind of an expression. -/
def Expr.kindName : Expr → String
  | .boolean .. => "Boolean"
  | .number .. => "Number"
  | .text .. => "Text"
  | .list .. => "List"
  | .conditional .. => "Conditional"
  | .call .. => "Evaluate"
  | .delete .. => "Delete"
  | .insert .. => "Insert"
  | .reference .. => "Reference"
  | .access .. => "Access"
  | .binary .. => "Binary"
  | .unary .. => "Unary"
  | .function .. => "Function"
  | .struct .. => "Structure"
  | .block .. => "Block"
  | .bind .. => "Bind"
  | .unparsable .. => "Unparsable"

/-- A short text for an expression: what is written for names and literals, `subject.name` for a
member, a sign and a name for a definition, and the kind of everything else. -/
def Expr.describe : Expr → String
  | .reference _ name => name.text
  | .access _ subject _ name => subject.describe ++ "." ++ name.text
  | .function definition => "ƒ " ++ definition.primaryName
  | .struct definition => "•" ++ definition.primaryName
  | .text _ token _ => token.text
  | .number _ token .. => token.text
  | .boolean _ token _ => token.text
  | other => other.kindName
termination_by structural e => e

/-- The name of a reason. -/
def UnknownReason.name : UnknownReason → String
  | cycle => "Cycle"
  | unparsable => "Unparsable"
  | notCallable => "NotCallable"
  | unknownName _ => "UnknownName"
  | noElements => "NoElements"
  | unspecified => "Unspecified"

/-- Why a type is unknown, as the end of a sentence. -/
def UnknownReason.text : UnknownReason → String
  | cycle => "its type depends on itself"
  | unparsable => "it could not be parsed"
  | notCallable => "its callee is not a function"
  | unknownName name => name ++ " is not defined"
  | noElements => "it has no elements"
  | unspecified => "no type was given"

/-- Type parameters between their brackets; nothing when there are none. -/
def bracketed (params : List String) : String :=
  if params.isEmpty then "" else "⸨" ++ " ".intercalate params ++ "⸩"

mutual

/-- The written form of a type. -/
def Ty.written : Ty → String
  | .function vars inputs output =>
    "ƒ" ++ bracketed (vars.map TypeVariable.text) ++ "(" ++ " ".intercalate (textsOfBinders inputs)
      ++ ") " ++ output.written
  | .list item => "[" ++ item.written ++ "]"
  | .table columns => "⎡" ++ " ".intercalate (textsOfBinders columns) ++ "⎦"
  | .number unit => unit.written
  | .text (some language) => "''/" ++ language
  | .text none => "''"
  | .boolean => "?"
  | .struct definition args => definition.primaryName ++ bracketed (textsOfTys args)
  | .structDef definition args => "•" ++ definition.primaryName ++ bracketed (textsOfTys args)
  | .var name => name
  | .name name => name
  | .union members => "|".intercalate (textsOfTys members)
  | .any => "*"
  | .unknown .. => "∅"
termination_by structural t => t

/-- The written forms of types. -/
def textsOfTys : List Ty → List String
  | [] => []
  | t :: rest => t.written :: textsOfTys rest
termination_by structural ts => ts

/-- A declaration as it appears in a type: its first alias, its written type, and a colon when it
has a default. -/
def Binder.signature : Binder → String
  | ⟨_, names, ty, value, rest⟩ =>
    (if rest then "…" else "") ++ primaryName names ++ annotationOf ty
      ++ (if value.isSome then ":" else "")
termination_by structural b => b

/-- The signatures of declarations. -/
def textsOfBinders : List Binder → List String
  | [] => []
  | b :: rest => b.signature :: textsOfBinders rest
termination_by structural bs => bs

/-- A written type after its bullet; nothing when no type is written. -/
def annotationOf : Option Ty → String
  | none => ""
  | some ty => "•" ++ ty.written
termination_by structural t => t

/-- The written form of a number type. -/
def NumberUnit.written : NumberUnit → String
  | .fixed unit => "#" ++ unit.written
  | .wildcard => "#*"
  | .derived .same left _ _ => left.written
  | .derived .. => "#…"
termination_by structural u => u

end

/-- An amount with its unit. -/
def amountText (amount : Float) (unit : MeasureUnit) : String :=
  Decimal.plainText amount ++ unit.written

end Stepwise

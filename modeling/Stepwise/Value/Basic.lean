import Stepwise.Assoc
import Stepwise.Syntax.Describe
import Stepwise.Text.Quoted
import Stepwise.Value.Exception

/-!
# Values

The results of evaluation.  A function or structure value is a definition closed over the scope that
it was made in, and an instance of a structure is a definition with the scope that holds its
members.  Exceptions are values too.

A scope has an identity, drawn when it is captured.  Two closures are equal when they have the same
definition and the same scope by identity; all other values are compared by what they hold, amounts
as numbers.
-/

namespace Stepwise

/-- The identity of a scope: made by a host before an evaluation, or captured during one. -/
inductive ScopeId where
  | host (index : Nat)
  | captured (index : Nat)
deriving DecidableEq

/-- A text with the language that it is tagged with. -/
structure TextValue where
  text : String
  language : Option String
deriving DecidableEq

/-- A number with its unit. -/
structure NumberValue where
  amount : Float
  unit : MeasureUnit

mutual

/-- The result of an evaluation. -/
inductive Value where
  | boolean (value : Bool)
  | text (value : TextValue)
  | number (value : NumberValue)
  | list (items : List Value)
  /-- A function closed over the scope that it was made in. -/
  | function (definition : FunctionDef) (scope : Scope)
  /-- A structure definition closed over the scope that it was made in. -/
  | structDef (definition : StructDef) (scope : Scope)
  /-- An instance of a structure, with the scope that holds its members. -/
  | struct (definition : StructDef) (scope : Scope)
  | exception (value : Exception)

/-- Names bound to values, in front of those of a parent scope. -/
inductive Scope where
  | mk (id : ScopeId) (bindings : Assoc String Value) (parent : Option Scope)

end

/-- Names bound to values. -/
abbrev Bindings := Assoc String Value

/-! ## Scopes -/

namespace Scope

/-- The identity of a scope. -/
def id : Scope → ScopeId
  | mk id _ _ => id

/-- The names bound by a scope itself. -/
def bindings : Scope → Bindings
  | mk _ bindings _ => bindings

/-- The scope around a scope. -/
def parent : Scope → Option Scope
  | mk _ _ parent => parent

mutual

/-- The value of a name: that of the innermost scope that binds it. -/
def lookup (name : String) : Scope → Option Value
  | mk _ bindings parent =>
    match bindings.find? name with
    | some value => some value
    | none => lookup? name parent
termination_by structural s => s

/-- The value of a name in an optional scope. -/
def lookup? (name : String) : Option Scope → Option Value
  | none => none
  | some scope => scope.lookup name
termination_by structural s => s

end

mutual

/-- A scope and the scopes around it, innermost first. -/
def chain : Scope → List Scope
  | s@(mk _ _ parent) => s :: chain? parent
termination_by structural s => s

/-- The chain of an optional scope. -/
def chain? : Option Scope → List Scope
  | none => []
  | some scope => scope.chain
termination_by structural s => s

end

/-- The names bound by each scope of the chain, innermost first. -/
def names (s : Scope) : List (List String) :=
  s.chain.map (·.bindings.names)

end Scope

/-! ## Kinds, equality and written form -/

namespace Value

/-- The kind of a value, as messages name it. -/
def kind : Value → String
  | .boolean _ => "boolean"
  | .text _ => "text"
  | .number _ => "number"
  | .list _ => "list"
  | .function .. => "function"
  | .structDef .. => "structure definition"
  | .struct .. => "structure"
  | .exception _ => "exception"

/-- Whether the value is an exception. -/
def isException : Value → Bool
  | .exception _ => true
  | _ => false

/-- A number with a unit. -/
def measure (amount : Float) (unit : MeasureUnit) : Value :=
  .number ⟨amount, unit⟩

mutual

/-- Equality of values. -/
def beq : Value → Value → Bool
  | .boolean a, .boolean b => a == b
  | .text a, .text b => a == b
  | .number a, .number b => a.amount == b.amount && a.unit == b.unit
  | .list as, .list bs => beqList as bs
  | .function d s, .function d' s' => d.id == d'.id && s.id == s'.id
  | .structDef d s, .structDef d' s' => d.id == d'.id && s.id == s'.id
  | .struct d s, .struct d' s' => d.id == d'.id && s.id == s'.id
  | .exception a, .exception b => a == b
  | _, _ => false
termination_by structural v => v

/-- Equality of lists of values. -/
def beqList : List Value → List Value → Bool
  | [], [] => true
  | a :: as, b :: bs => a.beq b && beqList as bs
  | _, _ => false
termination_by structural vs => vs

end

instance : BEq Value := ⟨beq⟩

end Value

mutual

/-- The written form of a value.  An instance shows the values of its inputs by their first
aliases. -/
def Value.written : Value → String
  | .boolean true => "⊤"
  | .boolean false => "⊥"
  | .text value => "\"" ++ value.text ++ "\""
  | .number value => amountText value.amount value.unit
  | .list items => "[" ++ " ".intercalate (writtenItems items) ++ "]"
  | .function definition _ => "ƒ " ++ definition.primaryName
  | .structDef definition _ => "•" ++ definition.primaryName
  | .struct definition scope =>
    let inputs := definition.inputs.map fun input =>
      match scope.written? input.primaryName with
      | some value => input.primaryName ++ ": " ++ value
      | none => input.primaryName
    definition.primaryName ++ "(" ++ " ".intercalate inputs ++ ")"
  | .exception e => "!" ++ e.kind.message
termination_by structural v => v

/-- The written forms of the items of a list. -/
def writtenItems : List Value → List String
  | [] => []
  | v :: rest => v.written :: writtenItems rest
termination_by structural vs => vs

/-- The written form of the value of a name. -/
def Scope.written? (name : String) : Scope → Option String
  | .mk _ ⟨entries⟩ parent =>
    match writtenEntry? name entries with
    | some found => some found
    | none => writtenInScope? name parent
termination_by structural s => s

/-- The written form of the value of a name in an optional scope. -/
def writtenInScope? (name : String) : Option Scope → Option String
  | none => none
  | some scope => scope.written? name
termination_by structural s => s

/-- The written form of the value of a name in a list of bindings. -/
def writtenEntry? (name : String) : List (String × Value) → Option String
  | [] => none
  | (other, v) :: rest => if name == other then some v.written else writtenEntry? name rest
termination_by structural es => es

end

/-- A closure in short: what it is and its name, but not its scope, which may hold the closure
itself. -/
def Value.summary? : Value → Option String
  | .function definition _ =>
    some ("FunctionValue \x7b name: " ++ Text.quoted definition.primaryName ++ ", .. \x7d")
  | .structDef definition _ =>
    some
      ("StructureDefinitionValue \x7b name: " ++ Text.quoted definition.primaryName ++ ", .. \x7d")
  | _ => none

end Stepwise

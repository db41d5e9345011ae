import Stepwise.Detail
import Stepwise.Diagnostic
import Stepwise.Syntax.Describe
import Stepwise.Syntax.Equality

/-!
# Conflicts

A conflict is a static finding about a program.  It names the nodes in the first role, and where
there is one those in the second.  The wording is not part of it: every kind has a stable name and
code, and each role a key under which hosts find an explanation.  `Conflict.toDiagnostic` is the
wording that the library itself offers.
-/

namespace Stepwise

/-- The kinds of conflicts. -/
inductive ConflictKind where
  /-- What is called is neither a function nor a structure definition. -/
  | notCallable (ty : Ty)
  /-- The structure has functions without bodies. -/
  | notInstantiable (structureName : String) (functions : List String)
  | missingInput (name : String)
  /-- A named argument stands where another required input takes it. -/
  | unexpectedInput (expected given : String)
  /-- Arguments are left after every input was matched. -/
  | unexpectedInputs (count : Nat)
  | incompatibleInput (name : String) (expected given : Ty)
  | notATable (ty : Ty)
  | nonBooleanQuery (ty : Ty)
  | duplicateLanguages (languages : List String)
  | unknownColumn (name : String)
  | incompatibleCell (name : String) (expected given : Ty)
  | expectedBooleanCondition (ty : Ty)
  | incompatibleBranches (yes no : Ty)
  | unknownName (name : String)
  | incompatibleOperand (operator : String) (expected given : Ty)
  | requiredAfterOptional (name : String)
  | variableLengthNotLast (name : String)

namespace ConflictKind

/-- The name of a kind. -/
def name : ConflictKind → String
  | notCallable .. => "NotCallable"
  | notInstantiable .. => "NotInstantiable"
  | missingInput .. => "MissingInput"
  | unexpectedInput .. => "UnexpectedInput"
  | unexpectedInputs .. => "UnexpectedInputs"
  | incompatibleInput .. => "IncompatibleInput"
  | notATable .. => "NotATable"
  | nonBooleanQuery .. => "NonBooleanQuery"
  | duplicateLanguages .. => "DuplicateLanguages"
  | unknownColumn .. => "UnknownColumn"
  | incompatibleCell .. => "IncompatibleCell"
  | expectedBooleanCondition .. => "ExpectedBooleanCondition"
  | incompatibleBranches .. => "IncompatibleBranches"
  | unknownName .. => "UnknownName"
  | incompatibleOperand .. => "IncompatibleOperand"
  | requiredAfterOptional .. => "RequiredAfterOptional"
  | variableLengthNotLast .. => "VariableLengthNotLast"

/-- The code of a kind. -/
def code : ConflictKind → String
  | notCallable .. => "C001"
  | notInstantiable .. => "C002"
  | missingInput .. => "C003"
  | unexpectedInput .. => "C004"
  | unexpectedInputs .. => "C005"
  | incompatibleInput .. => "C006"
  | notATable .. => "C007"
  | nonBooleanQuery .. => "C008"
  | duplicateLanguages .. => "C009"
  | unknownColumn .. => "C010"
  | incompatibleCell .. => "C011"
  | expectedBooleanCondition .. => "C012"
  | incompatibleBranches .. => "C013"
  | unknownName .. => "C014"
  | incompatibleOperand .. => "C015"
  | requiredAfterOptional .. => "C016"
  | variableLengthNotLast .. => "C017"

/-- The key that explains the nodes in the first role. -/
def primaryKey (kind : ConflictKind) : String :=
  "conflict." ++ kind.name ++ ".primary"

/-- The key that explains the nodes in the second role. -/
def secondaryKey (kind : ConflictKind) : String :=
  "conflict." ++ kind.name ++ ".secondary"

/-- What a report says about a kind besides its name. -/
def details : ConflictKind → Details
  | missingInput name | unknownColumn name | unknownName name | requiredAfterOptional name
  | variableLengthNotLast name => .named name
  | notCallable ty | notATable ty | nonBooleanQuery ty | expectedBooleanCondition ty =>
    [("ty", .ty ty)]
  | notInstantiable structureName functions =>
    [("structure", .text structureName), ("functions", .texts functions)]
  | unexpectedInput expected given => [("expected", .text expected), ("given", .text given)]
  | unexpectedInputs count => [("count", .count count)]
  | incompatibleInput name expected given | incompatibleCell name expected given =>
    [("name", .text name), ("expected", .ty expected), ("given", .ty given)]
  | duplicateLanguages languages => [("languages", .texts languages)]
  | incompatibleBranches yes no => [("yes", .ty yes), ("no", .ty no)]
  | incompatibleOperand operator expected given =>
    [("operator", .text operator), ("expected", .ty expected), ("given", .ty given)]

/-- Equality of kinds; types are compared as `Ty.beq` does. -/
def beq : ConflictKind → ConflictKind → Bool
  | notCallable t, notCallable t' => t == t'
  | notInstantiable s fs, notInstantiable s' fs' => s == s' && fs == fs'
  | missingInput n, missingInput n' => n == n'
  | unexpectedInput e g, unexpectedInput e' g' => e == e' && g == g'
  | unexpectedInputs c, unexpectedInputs c' => c == c'
  | incompatibleInput n e g, incompatibleInput n' e' g' => n == n' && e == e' && g == g'
  | notATable t, notATable t' => t == t'
  | nonBooleanQuery t, nonBooleanQuery t' => t == t'
  | duplicateLanguages ls, duplicateLanguages ls' => ls == ls'
  | unknownColumn n, unknownColumn n' => n == n'
  | incompatibleCell n e g, incompatibleCell n' e' g' => n == n' && e == e' && g == g'
  | expectedBooleanCondition t, expectedBooleanCondition t' => t == t'
  | incompatibleBranches y n, incompatibleBranches y' n' => y == y' && n == n'
  | unknownName n, unknownName n' => n == n'
  | incompatibleOperand o e g, incompatibleOperand o' e' g' => o == o' && e == e' && g == g'
  | requiredAfterOptional n, requiredAfterOptional n' => n == n'
  | variableLengthNotLast n, variableLengthNotLast n' => n == n'
  | _, _ => false

instance : BEq ConflictKind := ⟨beq⟩

/-- What is wrong, in words. -/
def message : ConflictKind → String
  | notCallable ty => "A value of type " ++ ty.written ++ " cannot be evaluated"
  | notInstantiable structureName functions =>
    structureName ++ " cannot be created because " ++ ", ".intercalate functions ++ " have no body"
  | missingInput name => "Expected an input for " ++ name
  | unexpectedInput expected given =>
    "Expected an input for " ++ expected ++ ", but was given " ++ given
  | unexpectedInputs count => toString count ++ " more inputs than expected"
  | incompatibleInput name expected given =>
    name ++ " expects " ++ expected.written ++ ", but was given " ++ given.written
  | notATable ty => "Expected a table, found " ++ ty.written
  | nonBooleanQuery ty => "Table queries must be ?, found " ++ ty.written
  | duplicateLanguages languages => "More than one name for " ++ ", ".intercalate languages
  | unknownColumn name => "The table has no column named " ++ name
  | incompatibleCell name expected given =>
    "Column " ++ name ++ " holds " ++ expected.written ++ ", but was given " ++ given.written
  | expectedBooleanCondition ty => "Conditions must be ?, found " ++ ty.written
  | incompatibleBranches yes no =>
    "The branches have different types, " ++ yes.written ++ " and " ++ no.written
  | unknownName name => name ++ " is not defined"
  | incompatibleOperand operator expected given =>
    operator ++ " expects " ++ expected.written ++ ", found " ++ given.written
  | requiredAfterOptional name => "Required input " ++ name ++ " comes after an optional one"
  | variableLengthNotLast name => "Variable-length input " ++ name ++ " must be last"

/-- Advice, for the kinds that have any. -/
def help : ConflictKind → Option String
  | notCallable .. => some "Only functions and structures can be evaluated"
  | notInstantiable .. => some "Define a structure that implements these functions"
  | unexpectedInputs .. => some "Remove the extra inputs"
  | duplicateLanguages .. => some "Give each language a single name"
  | unknownName .. => some "Make sure the name is declared before use"
  | requiredAfterOptional .. => some "Move required inputs before optional ones"
  | _ => none

end ConflictKind

/-- A static finding about a program. -/
structure Conflict where
  kind : ConflictKind
  /-- The nodes in the first role. -/
  primary : List NodeId
  /-- The nodes in the second role, for conflicts that have one. -/
  secondary : Option (List NodeId) := none
  /-- Minor conflicts are advice and never keep a program from running. -/
  isMinor : Bool := false

namespace Conflict

instance : BEq Conflict where
  beq a b := a.kind == b.kind && a.primary == b.primary && a.secondary == b.secondary &&
    a.isMinor == b.isMinor

/-- Every node of a conflict, those in the first role first. -/
def nodes (conflict : Conflict) : List NodeId :=
  conflict.primary ++ conflict.secondary.getD []

/-- Whether a node has a role in a conflict. -/
def implicates (conflict : Conflict) (node : NodeId) : Bool :=
  conflict.nodes.any (· == node)

/-- A conflict as it is told to a host. -/
def toDiagnostic (conflict : Conflict) : Diagnostic where
  severity := if conflict.isMinor then .warning else .error
  message := conflict.kind.message
  nodes := conflict.primary
  related := (conflict.secondary.map fun nodes => ⟨nodes, conflict.kind.secondaryKey⟩).toList
  help := conflict.kind.help
  code := some conflict.kind.code

/-- The written form of a conflict. -/
def written (conflict : Conflict) : String :=
  conflict.toDiagnostic.severity.text ++ ": " ++ conflict.kind.message ++ " ["
    ++ conflict.kind.code ++ "]"

end Conflict

end Stepwise

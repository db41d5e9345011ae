import Stepwise.Detail

/-!
# Exceptions

A failure at run time is data: its kind, the node whose evaluation failed, and the definition whose
frame was active.
-/

namespace Stepwise

/-- The kinds of failures at run time. -/
inductive ExceptionKind where
  | notCallable (name : String)
  | missingInput (name : String)
  | missingValue (name : String)
  /-- A frame had no value left to take. -/
  | insufficientValues
  | notImplemented
  | unparsable
  | unknownName (name : String)
  | typeMismatch (expected received : String)
  | incompatibleUnits (left right : String)
  | unitOverflow (unit : String)
  | stackOverflow (maxDepth : Nat)
  | stepLimit (limit : Nat)
  /-- There was nothing to evaluate. -/
  | noValue
deriving DecidableEq

/-- What went wrong, in words. -/
def ExceptionKind.message : ExceptionKind → String
  | notCallable name => name ++ " is not a function or structure"
  | missingInput name => "expected an input for " ++ name
  | missingValue name => name ++ " has no value"
  | insufficientValues => "expected a value on the stack, but the frame had none"
  | notImplemented => "this is not implemented"
  | unparsable => "this could not be parsed"
  | unknownName name => name ++ " is not defined"
  | typeMismatch expected received => "expected " ++ expected ++ ", received " ++ received
  | incompatibleUnits left right => "units " ++ left ++ " and " ++ right ++ " are incompatible"
  | unitOverflow unit => "a unit exponent of " ++ unit ++ " overflowed"
  | stackOverflow maxDepth =>
    "evaluation exceeded the maximum depth of " ++ toString maxDepth ++ " frames"
  | stepLimit limit => "evaluation exceeded the limit of " ++ toString limit ++ " steps"
  | noValue => "there was nothing to evaluate"

/-- The name of a kind. -/
def ExceptionKind.name : ExceptionKind → String
  | notCallable _ => "NotCallable"
  | missingInput _ => "MissingInput"
  | missingValue _ => "MissingValue"
  | insufficientValues => "InsufficientValues"
  | notImplemented => "NotImplemented"
  | unparsable => "Unparsable"
  | unknownName _ => "UnknownName"
  | typeMismatch .. => "TypeMismatch"
  | incompatibleUnits .. => "IncompatibleUnits"
  | unitOverflow _ => "UnitOverflow"
  | stackOverflow _ => "StackOverflow"
  | stepLimit _ => "StepLimit"
  | noValue => "NoValue"

/-- What a report says about a kind besides its name. -/
def ExceptionKind.details : ExceptionKind → Details
  | notCallable name | missingInput name | missingValue name | unknownName name => .named name
  | typeMismatch expected received => [("expected", .text expected), ("received", .text received)]
  | incompatibleUnits left right => [("left", .text left), ("right", .text right)]
  | unitOverflow unit => [("unit", .text unit)]
  | stackOverflow maxDepth => [("max_depth", .count maxDepth)]
  | stepLimit limit => [("limit", .count limit)]
  | insufficientValues | notImplemented | unparsable | noValue => []

/-- A failure at run time. -/
structure Exception where
  kind : ExceptionKind
  /-- The node whose evaluation failed. -/
  node : Option NodeId := none
  /-- The definition whose frame was active. -/
  frame : Option NodeId := none
deriving DecidableEq

/-- The failure, at a node. -/
def Exception.atNode (exception : Exception) (node : NodeId) : Exception :=
  { exception with node := some node }

/-- The failure, in the frame of a definition. -/
def Exception.inFrame (exception : Exception) (frame : Option NodeId) : Exception :=
  { exception with frame := frame }

end Stepwise

import Stepwise.Syntax.Token

/-!
# Diagnostics

What a host is told about a finding: how severe it is, a message, the nodes it is about, and more
nodes with a key that says what they have to do with it.
-/

namespace Stepwise

/-- How severe a finding is. -/
inductive Severity where
  | error | warning | info
deriving DecidableEq

/-- The word for a severity. -/
def Severity.text : Severity → String
  | error => "error"
  | warning => "warning"
  | info => "info"

/-- Nodes that explain a finding, and the key of the explanation. -/
structure RelatedInfo where
  nodes : List NodeId
  message : String
deriving DecidableEq

/-- A finding as it is told to a host. -/
structure Diagnostic where
  severity : Severity
  message : String
  nodes : List NodeId
  related : List RelatedInfo
  help : Option String
  code : Option String
deriving DecidableEq

end Stepwise

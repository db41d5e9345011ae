import Stepwise.Syntax.Tree

/-!
# Details

A finding is reported with its details: the named parts of what was found.  A host can show or
record them without a case for every kind of finding.
-/

namespace Stepwise

/-- One part of a finding. -/
inductive Detail where
  | text (value : String)
  | texts (values : List String)
  | count (value : Nat)
  | ty (value : Ty)

/-- The parts of a finding, each with its name. -/
abbrev Details := List (String × Detail)

/-- The detail that names what a finding is about. -/
def Details.named (name : String) : Details :=
  [("name", .text name)]

end Stepwise

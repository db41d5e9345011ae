import Stepwise.Conflict

/-!
# Conflicts of declarations

Two findings need nothing but a declaration itself.  A declaration should have one name per
language.  A list of inputs should begin with the required ones, and an input that collects what is
left should close it.
-/

namespace Stepwise

/-- One minor conflict for each language that tags several names. -/
def languageConflicts (names : List Name) : List Conflict :=
  (duplicateLanguages names).map fun duplicate =>
    { kind := .duplicateLanguages [duplicate.1], primary := duplicate.2, isMinor := true }

/-- The conflict of a required input that comes after an optional one. -/
def orderConflict (optionalSeen : Bool) (input : Binder) : List Conflict :=
  if input.isRequired && optionalSeen then
    [{ kind := .requiredAfterOptional input.primaryName, primary := [input.id] }]
  else []

/-- The conflict of a collecting input that other inputs follow. -/
def restConflict (followed : Bool) (input : Binder) : List Conflict :=
  if input.rest && followed then
    [{ kind := .variableLengthNotLast input.primaryName, primary := [input.id] }]
  else []

/-- The conflicts of inputs, where `optionalSeen` tells whether an optional input came before. -/
def inputConflictsAfter (optionalSeen : Bool) : List Binder → List Conflict
  | [] => []
  | input :: inputs =>
    orderConflict optionalSeen input ++ restConflict (!inputs.isEmpty) input ++
      inputConflictsAfter (optionalSeen || !input.isRequired) inputs

/-- The conflicts of a list of inputs. -/
def inputListConflicts (inputs : List Binder) : List Conflict :=
  inputConflictsAfter false inputs

/-- The conflicts of a definition: those of its names, then those of its inputs. -/
def definitionConflicts (names : List Name) (inputs : List Binder) : List Conflict :=
  languageConflicts names ++ inputListConflicts inputs

end Stepwise

/-!
# Nodes, tokens and names

Every node of a program tree has an identity, a `NodeId`, that stays with it when the tree around
it is rebuilt.  This module holds the leaves of the tree: tokens, language tags, and the names of
declarations.  A declaration may have several names, its aliases, each tagged with the language it
is written in; `duplicateLanguages` finds the languages that tag more than one of them.
-/

namespace Stepwise

/-- The identity of a node. -/
structure NodeId where
  index : Nat
deriving DecidableEq, Inhabited

/-- The lexical category of a token. -/
inductive TokenKind where
  | boolean | number | text | name | language | operator | conditional | delete | insert | access
  | listOpen | listClose | evalOpen | evalClose | bind | function | structural | unknown
deriving DecidableEq

/-- The name of a category, as outlines show it. -/
def TokenKind.label : TokenKind → String
  | boolean => "Boolean"
  | number => "Number"
  | text => "Text"
  | name => "Name"
  | language => "Language"
  | operator => "Operator"
  | conditional => "Conditional"
  | delete => "Delete"
  | insert => "Insert"
  | access => "Access"
  | listOpen => "ListOpen"
  | listClose => "ListClose"
  | evalOpen => "EvalOpen"
  | evalClose => "EvalClose"
  | bind => "Bind"
  | function => "Function"
  | structural => "Structure"
  | unknown => "Unknown"

/-- A piece of the written program. -/
structure Token where
  id : NodeId
  text : String
  kind : TokenKind
deriving DecidableEq

/-- A language tag on a name or a text. -/
structure Language where
  id : NodeId
  code : String
deriving DecidableEq

/-- One alias of a declaration, with the language it is written in if it is tagged. -/
structure Name where
  id : NodeId
  token : Token
  language : Option Language
deriving DecidableEq

/-- The alias itself. -/
def Name.text (name : Name) : String :=
  name.token.text

/-- The code of the language that the alias is tagged with. -/
def Name.languageCode (name : Name) : Option String :=
  name.language.map Language.code

/-- The first alias, which stands for a declaration in messages; an underscore if there is none. -/
def primaryName (names : List Name) : String :=
  match names with
  | [] => "_"
  | first :: _ => first.text

/-! ## Languages that are used twice -/

/-- The identities of the names tagged with a language. -/
def taggedWith (code : String) (names : List Name) : List NodeId :=
  (names.filter fun name => name.languageCode == some code).map Name.id

/-- Adds to `found` the languages that tag two or more of `names` and are not in it yet. -/
def collectDuplicates (found : List (String × List NodeId)) :
    List Name → List (String × List NodeId)
  | [] => found
  | name :: rest =>
    match name.languageCode with
    | none => collectDuplicates found rest
    | some code =>
      if found.any (·.1 == code) then collectDuplicates found rest
      else
        let ids := taggedWith code (name :: rest)
        collectDuplicates (if ids.length > 1 then found ++ [(code, ids)] else found) rest

/-- The languages that tag more than one of `names`, each with the names that it tags, in the order
in which the languages first occur. -/
def duplicateLanguages (names : List Name) : List (String × List NodeId) :=
  collectDuplicates [] names

end Stepwise

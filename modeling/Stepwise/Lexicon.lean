import Stepwise.Assoc
import Stepwise.Syntax.Tree

/-!
# Declarations and scopes of names

A `Lexicon` says what the names of a program stand for.  It is flat: a name means the same
everywhere in the program, and of several declarations of a name the first in source order wins.
`Expr.declarations` lists the declarations of an expression in that order, and `Lexicon.ofExpr`
collects them.

A `Context` puts local names in front of a lexicon, as the columns of a table are put in front of
the program's names inside a query.
-/

namespace Stepwise

/-- Pairs every alias of a declaration with what it stands for. -/
def pairAliases (aliases : List String) (definition : Definition) : List (String × Definition) :=
  aliases.map fun name => (name, definition)

/-- The declarations of type parameters. -/
def declarationsOfTypeVariables (vars : List TypeVariable) : List (String × Definition) :=
  vars.map fun v => (v.text, .typeVariable v)

mutual

/-- The names that an expression declares, in source order: bind statements, definitions, their type
parameters and their inputs, wherever they are nested.  A named argument of a call declares
nothing, but the expression that it carries may.  The cells of an inserted row are not searched. -/
def Expr.declarations : Expr → List (String × Definition)
  | .bind b => b.declarations
  | .function f => f.declarations
  | .struct s => s.declarations
  | .call c => c.declarations
  | .list _ _ items _ => declarationsOfExprs items
  | .conditional _ condition _ yes no =>
    condition.declarations ++ yes.declarations ++ no.declarations
  | .delete _ table _ query => table.declarations ++ query.declarations
  | .insert _ table _ _ => table.declarations
  | .access _ subject _ _ => subject.declarations
  | .binary _ left _ _ right => left.declarations ++ right.declarations
  | .unary _ _ _ operand => operand.declarations
  | .block _ statements => declarationsOfExprs statements
  | _ => []
termination_by structural e => e

/-- The declarations of expressions. -/
def declarationsOfExprs : List Expr → List (String × Definition)
  | [] => []
  | e :: rest => e.declarations ++ declarationsOfExprs rest
termination_by structural es => es

/-- The declarations of an optional expression. -/
def declarationsOfExpr? : Option Expr → List (String × Definition)
  | none => []
  | some e => e.declarations
termination_by structural e => e

/-- The declarations of a call: those of its callee and of its arguments. -/
def Call.declarations : Call → List (String × Definition)
  | ⟨_, _, callee, _, inputs, _⟩ => callee.declarations ++ declarationsOfArguments inputs
termination_by structural c => c

/-- The declarations of arguments. -/
def declarationsOfArguments : List Expr → List (String × Definition)
  | [] => []
  | .bind b :: rest => b.declarationsOfValue ++ declarationsOfArguments rest
  | e :: rest => e.declarations ++ declarationsOfArguments rest
termination_by structural es => es

/-- The declarations in the value of a named argument. -/
def Binder.declarationsOfValue : Binder → List (String × Definition)
  | ⟨_, _, _, value, _⟩ => declarationsOfExpr? value
termination_by structural b => b

/-- A declaration declares its aliases; its value may declare more. -/
def Binder.declarations : Binder → List (String × Definition)
  | b@⟨_, _, _, value, _⟩ => pairAliases b.aliases (.bind b) ++ declarationsOfExpr? value
termination_by structural b => b

/-- The declarations of the inputs of a definition. -/
def declarationsOfBinders : List Binder → List (String × Definition)
  | [] => []
  | b :: rest => b.declarations ++ declarationsOfBinders rest
termination_by structural bs => bs

/-- The declarations of a function definition: its aliases, type parameters, inputs and body. -/
def FunctionDef.declarations : FunctionDef → List (String × Definition)
  | f@⟨_, _, vars, inputs, _, body⟩ =>
    pairAliases f.aliases (.function f) ++ declarationsOfTypeVariables vars
      ++ declarationsOfBinders inputs ++ declarationsOfExpr? body
termination_by structural f => f

/-- The declarations of a structure definition: its aliases, type parameters, inputs and block. -/
def StructDef.declarations : StructDef → List (String × Definition)
  | s@⟨_, _, vars, inputs, block⟩ =>
    pairAliases s.aliases (.struct s) ++ declarationsOfTypeVariables vars
      ++ declarationsOfBinders inputs ++ declarationsOfExpr? block
termination_by structural s => s

end

/-- A flat table of declarations. -/
structure Lexicon where
  entries : Assoc String Definition := .empty

namespace Lexicon

/-- The lexicon without names. -/
def empty : Lexicon := {}

instance : Inhabited Lexicon := ⟨empty⟩

/-- Declares a name; an earlier declaration of it stays. -/
def define (lexicon : Lexicon) (name : String) (definition : Definition) : Lexicon :=
  ⟨lexicon.entries.insertNew name definition⟩

/-- Declares names one after the other. -/
def defineAll (lexicon : Lexicon) (declarations : List (String × Definition)) : Lexicon :=
  declarations.foldl (fun acc d => acc.define d.1 d.2) lexicon

/-- The declarations of an expression. -/
def ofExpr (root : Expr) : Lexicon :=
  empty.defineAll root.declarations

/-- What a name stands for. -/
def find? (lexicon : Lexicon) (name : String) : Option Definition :=
  lexicon.entries.find? name

/-- How many names are declared. -/
def size (lexicon : Lexicon) : Nat :=
  lexicon.entries.size

/-- Whether no name is declared. -/
def isEmpty (lexicon : Lexicon) : Bool :=
  lexicon.entries.isEmpty

/-- Declares an input stream of the host. -/
def declareStream (lexicon : Lexicon) (name : String) (ty : Ty) : Lexicon :=
  lexicon.define name (.stream name ty)

/-- Declares a constant of the host. -/
def declareHost (lexicon : Lexicon) (name : String) (ty : Ty) : Lexicon :=
  lexicon.define name (.host name ty)

@[simp] theorem find?_empty (name : String) : empty.find? name = none := rfl

/-- A declaration is seen only by names that had none. -/
theorem find?_define (lexicon : Lexicon) (name other : String) (definition : Definition) :
    (lexicon.define name definition).find? other =
      if other == name then some ((lexicon.find? name).getD definition)
      else lexicon.find? other :=
  Assoc.find?_insertNew ..

/-- Of several declarations of a name the first one wins. -/
theorem find?_defineAll (lexicon : Lexicon) (declarations : List (String × Definition))
    (name : String) :
    (lexicon.defineAll declarations).find? name =
      (lexicon.find? name).or (declarations.lookup name) := by
  induction declarations generalizing lexicon with
  | nil => simp [defineAll]
  | cons d rest ih =>
    obtain ⟨n, definition⟩ := d
    have := ih (lexicon.define n definition)
    simp only [defineAll, List.foldl_cons] at this ⊢
    rw [this, find?_define, List.lookup_cons]
    by_cases h : name = n
    · subst h
      cases lexicon.find? name <;> simp
    · have : (name == n) = false := by simpa using h
      simp [this]

end Lexicon

/-- What names stand for at some place of a program: local names in front of a lexicon. -/
structure Context where
  lexicon : Lexicon
  /-- The local names, innermost first. -/
  locals : List (String × Definition) := []

namespace Context

/-- What a name stands for. -/
def find? (ctx : Context) (name : String) : Option Definition :=
  (ctx.locals.lookup name).or (ctx.lexicon.find? name)

/-- The context in which `names` come before all others. -/
def push (ctx : Context) (names : List (String × Definition)) : Context :=
  { ctx with locals := names ++ ctx.locals }

end Context

end Stepwise

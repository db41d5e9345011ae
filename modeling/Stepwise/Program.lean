import Stepwise.Analysis
import Stepwise.Machine.Step

/-!
# Programs

What a host does with an expression as a whole: collect its declarations, analyse it, check it,
lower it, and run it.  Findings and exceptions are data inside the library; they become an `Error`
where a host asks for a checked program or for the value of one.
-/

namespace Stepwise

/-- Why a program has no value. -/
inductive Error where
  /-- Analysis found conflicts. -/
  | conflicts (diagnostics : List Diagnostic)
  /-- Evaluation ended with an exception. -/
  | exception (exception : Exception)
  /-- Evaluation took more instructions than it may. -/
  | stepLimit (limit : Nat)

namespace Error

/-- The error in words; of diagnostics only the errors are counted. -/
def message : Error → String
  | conflicts diagnostics =>
    let errors := diagnostics.filter fun d => d.severity = .error
    "analysis failed with " ++ toString errors.length ++ " error(s)"
  | exception e => "evaluation failed: " ++ e.kind.message
  | stepLimit limit => "evaluation exceeded the limit of " ++ toString limit ++ " steps"

/-- The error that an exception becomes. -/
def ofException (e : Exception) : Error :=
  match e.kind with
  | .stepLimit limit => .stepLimit limit
  | _ => .exception e

end Error

/-- An expression that is run as a whole. -/
structure Program where
  root : Expr

namespace Program

/-- The declarations of a program. -/
def lexicon (program : Program) : Lexicon :=
  .ofExpr program.root

/-- The conflicts of a program. -/
def conflicts (budget : Nat) (program : Program) : Query (List Conflict) :=
  program.root.analyze budget

/-- The verdict on conflicts: minor ones are no errors. -/
def verdict (found : List Conflict) : Except Error Unit :=
  if found.all (·.isMinor) then .ok () else .error (.conflicts (found.map (·.toDiagnostic)))

/-- Fails if a program has a conflict that is not minor. -/
def check (budget : Nat) (program : Program) : Query (Except Error Unit) := do
  return verdict (← program.conflicts budget)

/-- The code of a program. -/
def lower (budget : Nat) (program : Program) : Query Code :=
  program.root.lower budget

/-- An evaluator that has begun a pass over a program. -/
def evaluator (budget : Nat) (program : Program) (options : Options) : Query Evaluator :=
  fun context memo =>
    ((Evaluator.new context memo options).beginPass budget program.root).map fun ev => (ev, ev.memo)

/-- Evaluates a program without checking it, in at most `fuel` steps. -/
def evaluate (budget fuel : Nat) (program : Program) (options : Options) : Query Outcome :=
  fun context memo => do
    let (ev, _) ← program.evaluator budget options context memo
    let (outcome, after) ← ev.run budget fuel
    pure (outcome, after.memo)

/-- The value of an outcome, or the error that it is. -/
def resultOf : Outcome → Except Error Value
  | .produced value => .ok value
  | .halted e => .error (.ofException e)

/-- Checks a program and evaluates it, in at most `fuel` steps. -/
def run (budget fuel : Nat) (program : Program) (options : Options) :
    Query (Except Error Value) := do
  match ← program.check budget with
  | .error e => pure (.error e)
  | .ok () => return resultOf (← program.evaluate budget fuel options)

end Program

end Stepwise

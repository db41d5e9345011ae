import Stepwise.Syntax.Describe
import Stepwise.Syntax.Equality
import Stepwise.Text.Quoted

/-!
# Instructions

The code of an expression is a list of instructions, addressed from zero.  Jumps are relative to the
instruction after them.  A conditional jump that is taken also skips the instruction on which it
would land, which is the jump that closes the branch it guards.
-/

namespace Stepwise

/-- Why code ends an evaluation. -/
inductive HaltReason where
  | notCallable (callee : String)
  | unparsable
  | missingInput (name : String)
  | missingValue (name : String)
deriving DecidableEq

/-- The name that is to blame. -/
def HaltReason.subject? : HaltReason → Option String
  | notCallable name | missingInput name | missingValue name => some name
  | unparsable => none

/-- One instruction. -/
inductive Instruction where
  /-- Marks where the evaluation of an expression starts. -/
  | start (e : Expr)
  /-- Evaluates an expression whose operands are on the stack. -/
  | finish (e : Expr)
  | jump (distance : Nat) (node : NodeId)
  /-- Takes a boolean and jumps when it is false. -/
  | jumpIfFalse (distance : Nat) (node : NodeId)
  /-- Ends the evaluation. -/
  | halt (node : NodeId) (reason : HaltReason)

/-- The code of an expression. -/
abbrev Code := List Instruction

namespace Instruction

/-- The node that an instruction belongs to. -/
def node : Instruction → NodeId
  | start e => e.id
  | finish e => e.id
  | jump _ node => node
  | jumpIfFalse _ node => node
  | halt node _ => node

/-- Whether stepping can stop after the instruction. -/
def isBoundary : Instruction → Bool
  | start _ => true
  | finish _ => true
  | _ => false

/-- The address at which a jump at `address` continues when it is taken. -/
def jumpTarget? (address : Nat) : Instruction → Option Nat
  | jump distance _ => some (address + 1 + distance)
  | jumpIfFalse distance _ => some (address + 2 + distance)
  | _ => none

/-- Equality of instructions; expressions are compared as `Expr.beq` does. -/
def beq : Instruction → Instruction → Bool
  | start e, start e' => e == e'
  | finish e, finish e' => e == e'
  | jump d n, jump d' n' => d == d' && n == n'
  | jumpIfFalse d n, jumpIfFalse d' n' => d == d' && n == n'
  | halt n r, halt n' r' => n == n' && r == r'
  | _, _ => false

instance : BEq Instruction := ⟨beq⟩

end Instruction

/-- The jump targets of code that begins at `address`, in the order of the jumps. -/
def jumpTargetsFrom (address : Nat) : Code → List Nat
  | [] => []
  | i :: rest => (i.jumpTarget? address).toList ++ jumpTargetsFrom (address + 1) rest

/-- The addresses at which the jumps of code continue, in the order of the jumps. -/
def jumpTargets (code : Code) : List Nat :=
  jumpTargetsFrom 0 code

end Stepwise

import Stepwise.Code.Instruction
import Stepwise.Text.Aligned

/-!
# Listings

A listing shows code one instruction a line: its address, a label if some jump continues there, and
the instruction.  Labels number the distinct jump targets in ascending order, and a jump names the
label of its target.  A target past the last instruction has a number but no line.
-/

namespace Stepwise

/-- A reason to halt, as listings show it. -/
def HaltReason.written : HaltReason → String
  | notCallable callee => "NotCallable \x7b callee: " ++ Text.quoted callee ++ " \x7d"
  | unparsable => "Unparsable"
  | missingInput name => "MissingInput \x7b name: " ++ Text.quoted name ++ " \x7d"
  | missingValue name => "MissingValue \x7b name: " ++ Text.quoted name ++ " \x7d"

/-- An instruction, as listings show it. -/
def Instruction.written : Instruction → String
  | start e => "Start " ++ e.kindName
  | finish e => "Finish " ++ e.kindName
  | jump distance _ => "Jump +" ++ toString distance
  | jumpIfFalse distance _ => "JumpIfFalse +" ++ toString distance
  | halt _ reason => "Halt " ++ reason.written

/-- Adds a number to an ascending list unless it is there already. -/
def insertAscending (n : Nat) : List Nat → List Nat
  | [] => [n]
  | m :: rest =>
    if n < m then n :: m :: rest
    else if n = m then m :: rest
    else m :: insertAscending n rest

/-- The distinct jump targets of code, in ascending order; the position of a target is its label. -/
def labelledTargets (code : Code) : List Nat :=
  (jumpTargets code).foldl (fun targets n => insertAscending n targets) []

/-- The label of an address, if some jump continues there. -/
def label? (targets : List Nat) (address : Nat) : Option String :=
  (targets.findIdx? (· == address)).map fun index => "L" ++ toString index

/-- The line of an instruction. -/
def listingLine (targets : List Nat) (address : Nat) (i : Instruction) : String :=
  let label := match label? targets address with
    | some label => label ++ ":"
    | none => ""
  let destination := match i.jumpTarget? address with
    | some target =>
      " (to " ++ (label? targets target).getD ("@" ++ toString target) ++ ")"
    | none => ""
  "    " ++ Text.alignRight 4 (toString address) ++ " " ++ Text.alignRight 4 label ++ "  "
    ++ i.written ++ destination

/-- The lines of code that begins at `address`. -/
def listingLines (targets : List Nat) (address : Nat) : Code → List String
  | [] => []
  | i :: rest => listingLine targets address i :: listingLines targets (address + 1) rest

/-- The lines of a listing. -/
def listing (code : Code) : List String :=
  "Instructions \x7b" :: listingLines (labelledTargets code) 0 code ++ ["\x7d"]

end Stepwise

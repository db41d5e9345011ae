import Stepwise.Code.Instruction
import Stepwise.Value.Basic

/-!
# Frames

A frame is one active evaluation: the code that it runs, a cursor into it, the names bound so far,
and the scope of the definition that it runs.  Names are looked up in the bindings first and in the
scope after that.
-/

namespace Stepwise

/-- What a frame evaluates. -/
inductive FrameKind where
  /-- The root expression of a pass. -/
  | program
  | function (definition : FunctionDef)
  /-- The block of a structure; finishing it yields an instance. -/
  | struct (definition : StructDef)

/-- The kind of an evaluation, in a word. -/
def FrameKind.name : FrameKind → String
  | program => "program"
  | function _ => "function"
  | struct _ => "structure"

/-- One active evaluation. -/
structure Frame where
  kind : FrameKind
  /-- The node whose code the frame runs. -/
  node : NodeId
  code : Code
  cursor : Nat := 0
  bindings : Bindings
  /-- The scope that the definition was made in. -/
  scope : Scope
  /-- The height of the stack when the frame started. -/
  base : Nat := 0

namespace Frame

/-- Whether no instruction is left. -/
def isDone (frame : Frame) : Bool :=
  frame.code.length ≤ frame.cursor

/-- The instruction under the cursor. -/
def current? (frame : Frame) : Option Instruction :=
  frame.code[frame.cursor]?

/-- Moves the cursor. -/
def advance (frame : Frame) (distance : Nat) : Frame :=
  { frame with cursor := frame.cursor + distance }

/-- Binds a name. -/
def bind (frame : Frame) (name : String) (value : Value) : Frame :=
  { frame with bindings := frame.bindings.insert name value }

/-- The value of a name. -/
def lookup (frame : Frame) (name : String) : Option Value :=
  (frame.bindings.find? name).or (frame.scope.lookup name)

/-- Freezes the bindings into a scope. -/
def capture (frame : Frame) (id : ScopeId) : Scope :=
  .mk id frame.bindings (some frame.scope)

/-- The definition that the frame runs. -/
def definition? (frame : Frame) : Option NodeId :=
  match frame.kind with
  | .program => none
  | .function definition => some definition.id
  | .struct definition => some definition.id

/-- The name of the definition that the frame runs. -/
def name? (frame : Frame) : Option String :=
  match frame.kind with
  | .program => none
  | .function definition => some definition.primaryName
  | .struct definition => some definition.primaryName

/-- A frame in short: its definition, its progress and the names that it binds. -/
def summary (frame : Frame) : String :=
  "Frame \x7b kind: " ++ Text.quoted (frame.name?.getD "program") ++ ", cursor: "
    ++ toString frame.cursor ++ ", len: " ++ toString frame.code.length ++ ", bindings: ["
    ++ ", ".intercalate (frame.bindings.names.map Text.quoted) ++ "], base: "
    ++ toString frame.base ++ " \x7d"

end Frame

end Stepwise

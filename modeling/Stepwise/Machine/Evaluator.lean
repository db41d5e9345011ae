import Stepwise.Code.Lower
import Stepwise.Machine.Frame
import Stepwise.Machine.Stack

/-!
# The evaluator

An evaluator holds everything that outlives an instruction: the frames, the stack that they share,
the names that the host has defined, and the code lowered so far.  This module holds its state and
the actions that evaluating an expression is made of: taking operands, looking names up, binding
them, capturing scopes and starting frames.

An action may fail with an exception; the state that it has reached by then is kept.  It has no
result at all when lowering runs out of budget.
-/

namespace Stepwise

/-- The limits of an evaluation. -/
structure Options where
  /-- How many frames may be active at once. -/
  maxDepth : Nat := 256
  /-- How many instructions a pass may execute, if it is limited. -/
  maxSteps : Option Nat := none
  /-- The capacity of the value stack. -/
  valueStackSize : Nat := 256
deriving DecidableEq

/-- How a pass ends. -/
inductive Outcome where
  | produced (value : Value)
  | halted (exception : Exception)

/-- The state of an evaluation. -/
structure Evaluator where
  context : Context
  /-- What type queries have found; lowering asks for types. -/
  memo : Memo := .empty
  options : Options
  /-- The names that the host has defined. -/
  globals : Bindings := .empty
  /-- The latest values of the input streams. -/
  streams : Bindings := .empty
  /-- Values for input streams that the next pass will see. -/
  pending : List (String × Value) := []
  stack : Stack Value
  /-- The active frames, innermost first. -/
  frames : List Frame := []
  /-- The code lowered so far, by node. -/
  lowered : Assoc NodeId Code := .empty
  /-- How the pass has ended, if it has. -/
  outcome : Option Outcome := none
  /-- How many instructions the pass has executed. -/
  steps : Nat := 0
  /-- The node of the last instruction, and whether stepping can stop after it. -/
  last : Option (NodeId × Bool) := none
  /-- The identity of the next scope to be captured. -/
  nextScope : Nat := 0

namespace Evaluator

/-- An evaluator that has not evaluated anything. -/
def new (context : Context) (memo : Memo) (options : Options) : Evaluator :=
  { context, memo, options, stack := .empty options.valueStackSize }

/-! ## What a host can see and set -/

/-- Makes a value visible to every reference to `name`. -/
def defineGlobal (ev : Evaluator) (name : String) (value : Value) : Evaluator :=
  { ev with globals := ev.globals.insert name value }

/-- Queues a value for a stream.  It is seen from the next pass on. -/
def inject (ev : Evaluator) (stream : String) (value : Value) : Evaluator :=
  { ev with pending := ev.pending ++ [(stream, value)] }

/-- The innermost frame. -/
def currentFrame? (ev : Evaluator) : Option Frame :=
  ev.frames.head?

/-- The node of the last instruction executed. -/
def activeNode? (ev : Evaluator) : Option NodeId :=
  ev.last.map Prod.fst

/-- The definition whose frame is innermost among the frames of definitions. -/
def currentDefinition? (ev : Evaluator) : Option NodeId :=
  ev.frames.findSome? Frame.definition?

/-- The value of a name: in the innermost frame, then among the globals, then among the streams. -/
def lookup (ev : Evaluator) (name : String) : Option Value :=
  ((ev.currentFrame?.bind (·.lookup name)).or (ev.globals.find? name)).or (ev.streams.find? name)

/-- Binds a name in the innermost frame. -/
def bind (ev : Evaluator) (name : String) (value : Value) : Evaluator :=
  match ev.frames with
  | [] => ev
  | frame :: outer => { ev with frames := frame.bind name value :: outer }

/-- Binds every alias to one value in the innermost frame. -/
def bindAll (ev : Evaluator) (aliases : List String) (value : Value) : Evaluator :=
  aliases.foldl (fun acc name => acc.bind name value) ev

/-- The height below which the innermost frame takes nothing. -/
def base (ev : Evaluator) : Nat :=
  match ev.frames with
  | [] => 0
  | frame :: _ => frame.base

/-- A failure in the innermost definition. -/
def exception (ev : Evaluator) (kind : ExceptionKind) : Exception :=
  { kind := kind, frame := ev.currentDefinition? }

end Evaluator

/-- A computation on an evaluator that may fail with an exception. -/
abbrev Action := ExceptT Exception (StateT Evaluator Option)

namespace Action

/-- Fails with a kind of exception, in the innermost definition. -/
def failWith {α : Type} (kind : ExceptionKind) : Action α := do
  throw ((← get).exception kind)

/-- Fails with a kind of exception at a node, in the innermost definition. -/
def failAt {α : Type} (node : NodeId) (kind : ExceptionKind) : Action α := do
  throw (((← get).exception kind).atNode node)

/-- The result of an operator; its failures are those of the node. -/
def ofResult {α : Type} (node : NodeId) (result : Except ExceptionKind α) : Action α :=
  match result with
  | .ok value => pure value
  | .error kind => failAt node kind

/-- The same action; its failures are those of the node. -/
def blaming {α : Type} (node : NodeId) (action : Action α) : Action α :=
  tryCatch action fun exception => throw (exception.atNode node)

/-- Takes a value that the innermost frame has produced. -/
def popValue : Action Value := do
  let ev ← get
  match ev.stack.popAbove ev.base with
  | some (value, stack) => do
    set { ev with stack := stack }
    pure value
  | none => failWith .insufficientValues

/-- Takes a value, and fails with it if it is an exception. -/
def popOperand : Action Value := do
  match ← popValue with
  | .exception exception => throw exception
  | value => pure value

/-- Takes values, the topmost first. -/
def popOperands : Nat → Action (List Value)
  | 0 => pure []
  | count + 1 => do
    let first ← popOperand
    let others ← popOperands count
    pure (first :: others)

/-- An identity for a scope. -/
def freshScope : Action ScopeId := do
  let ev ← get
  set { ev with nextScope := ev.nextScope + 1 }
  pure (.captured ev.nextScope)

/-- The scope that a definition made now closes over. -/
def captureScope : Action Scope := do
  let id ← freshScope
  match (← get).currentFrame? with
  | some frame => pure (frame.capture id)
  | none => pure (.mk id .empty none)

/-- Binds every alias to one value in the innermost frame. -/
def bindAll (aliases : List String) (value : Value) : Action Unit :=
  modify (·.bindAll aliases value)

/-- Starts a frame, unless as many are active as may be. -/
def startFrame (frame : Frame) : Action Unit := do
  let ev ← get
  if ev.options.maxDepth ≤ ev.frames.length then failWith (.stackOverflow ev.options.maxDepth)
  else set { ev with frames := { frame with base := ev.stack.height } :: ev.frames }

/-- The code of an expression, lowered when it is first asked for. -/
def codeOf (budget : Nat) (e : Expr) : Action Code := do
  let ev ← get
  match ev.lowered.find? e.id with
  | some code => pure code
  | none =>
    match e.lower budget ev.context ev.memo with
    | some (code, memo) => do
      set { ev with memo := memo, lowered := ev.lowered.insert e.id code }
      pure code
    | none => fun _ => none

/-- Adds a function under its aliases, for the names that are not bound. -/
def bindSelf (bindings : Bindings) (aliases : List String) (self : Value) : Bindings :=
  aliases.foldl (fun acc name => acc.insertNew name self) bindings

/-- Starts evaluating the body of a function.  The function can refer to itself by any of its
names that is not the name of an input. -/
def callFunction (budget : Nat) (f : FunctionDef) (scope : Scope) (bindings : Bindings) :
    Action Unit := do
  match f.body with
  | none => failWith .notImplemented
  | some body => do
    let code ← codeOf budget body
    startFrame
      { kind := .function f, node := body.id, code := code,
        bindings := bindSelf bindings f.aliases (.function f scope), scope := scope }

/-- The code that builds an instance: that of the block, or none if the block is empty. -/
def blockCode (budget : Nat) (s : StructDef) : Action Code := do
  match s.block with
  | none => pure []
  | some (.block _ []) => pure []
  | some block => codeOf budget block

/-- Starts building an instance of a structure.  The block can refer to the structure by its names,
but these do not become members: they are bound in a scope of their own. -/
def instantiate (budget : Nat) (s : StructDef) (scope : Scope) (bindings : Bindings) :
    Action Unit := do
  let code ← blockCode budget s
  let id ← freshScope
  let names : Bindings := Assoc.ofList (s.aliases.map fun name => (name, .structDef s scope))
  startFrame
    { kind := .struct s, node := s.id, code := code, bindings := bindings,
      scope := .mk id names (some scope) }

end Action

end Stepwise

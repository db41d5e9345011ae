import Stepwise.Machine.Execute

/-!
# Stepping

`Evaluator.beginPass` starts evaluating an expression, and `Evaluator.step` executes one
instruction.  When a frame has no instruction left its result is handed to the frame below, which
may have none left either.  The first exception ends the pass: frames are abandoned as they are.  An
ended pass stays ended.

`run` and `stepToBoundary` repeat steps, as often as their fuel allows.
-/

namespace Stepwise

/-- What a step answers. -/
inductive Step where
  /-- More instructions remain. -/
  | running
  /-- The pass has ended. -/
  | ended (outcome : Outcome)

/-- Whether more instructions remain. -/
def Step.isRunning : Step → Bool
  | running => true
  | ended _ => false

/-- The exception that a halt raises. -/
def HaltReason.exceptionKind : HaltReason → ExceptionKind
  | notCallable callee => .notCallable callee
  | unparsable => .unparsable
  | missingInput name => .missingInput name
  | missingValue name => .missingValue name

namespace Evaluator

/-- Ends the pass. -/
def finishPass (ev : Evaluator) (outcome : Outcome) : Step × Evaluator :=
  (.ended outcome, { ev with outcome := some outcome })

/-- Ends the pass with an exception. -/
def halt (ev : Evaluator) (exception : Exception) : Step × Evaluator :=
  ev.finishPass (.halted exception)

/-- The result of a frame that has no instruction left: the instance that it has built, or the value
that it has left on the stack. -/
def frameResult (ev : Evaluator) (frame : Frame) : Except Exception (Value × Evaluator) :=
  match frame.kind with
  | .struct definition =>
    .ok (.struct definition (frame.capture (.captured ev.nextScope)),
      { ev with nextScope := ev.nextScope + 1 })
  | _ =>
    match ev.stack.popAbove frame.base with
    | some (value, stack) => .ok (value, { ev with stack := stack })
    | none =>
      .error { kind := .noValue, node := some frame.node, frame := frame.definition? }

/-- Hands the results of finished frames down, given the active frames. -/
def completeAll (ev : Evaluator) : List Frame → Step × Evaluator
  | [] => (.running, { ev with frames := [] })
  | frame :: outer =>
    if frame.isDone then
      let below := { ev with frames := outer }
      match below.frameResult frame with
      | .error exception => below.halt exception
      | .ok (value, after) =>
        let cleared := { after with stack := after.stack.truncate frame.base }
        match value with
        | .exception exception => cleared.halt exception
        | value =>
          match outer with
          | [] => cleared.finishPass (.produced value)
          | _ :: _ => completeAll { cleared with stack := cleared.stack.push value } outer
    else (.running, { ev with frames := frame :: outer })

/-- Hands the results of finished frames down. -/
def completeFrames (ev : Evaluator) : Step × Evaluator :=
  ev.completeAll ev.frames

/-- Moves the cursor of the innermost frame. -/
def advance (ev : Evaluator) (distance : Nat) : Evaluator :=
  match ev.frames with
  | [] => ev
  | frame :: outer => { ev with frames := frame.advance distance :: outer }

/-- Continues after an expression has been executed. -/
def afterExecute (result : Except Exception (Option Value)) (ev : Evaluator) : Step × Evaluator :=
  match result with
  | .error exception => ev.halt exception
  | .ok none => ev.completeFrames
  | .ok (some (.exception exception)) => ev.halt exception
  | .ok (some value) => { ev with stack := ev.stack.push value }.completeFrames

/-- Continues after a conditional jump has taken its condition. -/
def afterCondition (distance : Nat) (node : NodeId) (result : Except Exception Value)
    (ev : Evaluator) : Step × Evaluator :=
  match result with
  | .error exception => ev.halt (exception.atNode node)
  | .ok (.boolean true) => ev.completeFrames
  | .ok (.boolean false) => (ev.advance (distance + 1)).completeFrames
  | .ok (.exception exception) => ev.halt exception
  | .ok other => ev.halt ((ev.exception (wrongKind "boolean" other)).atNode node)

/-- Performs one instruction, after which the cursor already stands. -/
def perform (budget : Nat) (ev : Evaluator) : Instruction → Option (Step × Evaluator)
  | .start _ => some ev.completeFrames
  | .finish e => (e.execute budget ev).map fun r => afterExecute r.1 r.2
  | .jump distance _ => some (ev.advance distance).completeFrames
  | .jumpIfFalse distance node =>
    (Action.popValue ev).map fun r => afterCondition distance node r.1 r.2
  | .halt node reason => some (ev.halt ((ev.exception reason.exceptionKind).atNode node))

/-- Fetches and performs the next instruction. -/
def stepInstruction (budget : Nat) (ev : Evaluator) : Option (Step × Evaluator) :=
  match ev.frames with
  | [] => some (ev.halt { kind := .noValue })
  | frame :: outer =>
    match frame.current? with
    | none => some ev.completeFrames
    | some i =>
      perform budget
        { ev with
          frames := frame.advance 1 :: outer
          steps := ev.steps + 1
          last := some (i.node, i.isBoundary) } i

/-- The limit that the pass has reached, if it has reached one. -/
def reachedLimit? (ev : Evaluator) : Option Nat :=
  ev.options.maxSteps.filter (· ≤ ev.steps)

/-- Executes one instruction, or answers how the pass has ended. -/
def step (budget : Nat) (ev : Evaluator) : Option (Step × Evaluator) :=
  match ev.outcome with
  | some outcome => some (.ended outcome, ev)
  | none =>
    match ev.reachedLimit? with
    | some limit => some (ev.halt (ev.exception (.stepLimit limit)))
    | none => stepInstruction budget ev

/-- Steps until the pass has ended, at most `fuel` times. -/
def run (budget : Nat) : Nat → Evaluator → Option (Outcome × Evaluator)
  | 0, _ => none
  | fuel + 1, ev =>
    match ev.step budget with
    | none => none
    | some (.ended outcome, after) => some (outcome, after)
    | some (.running, after) => run budget fuel after

/-- Whether the last instruction was one after which stepping can stop. -/
def atBoundary (ev : Evaluator) : Bool :=
  match ev.last with
  | some (_, boundary) => boundary
  | none => false

/-- Steps until an expression has started or finished, or the pass has ended, at most `fuel`
times. -/
def stepToBoundary (budget : Nat) : Nat → Evaluator → Option (Step × Evaluator)
  | 0, _ => none
  | fuel + 1, ev =>
    match ev.step budget with
    | none => none
    | some (.ended outcome, after) => some (.ended outcome, after)
    | some (.running, after) =>
      if after.atBoundary then some (.running, after) else stepToBoundary budget fuel after

/-- The state in which a pass begins: queued values applied, and everything that an earlier pass
left behind dropped. -/
def reset (ev : Evaluator) : Evaluator :=
  { ev with
    streams := ev.streams.insertAll ev.pending
    pending := []
    stack := ev.stack.clear
    frames := []
    outcome := none
    steps := 0
    last := none }

/-- Starts evaluating an expression from scratch. -/
def beginPass (budget : Nat) (root : Expr) (ev : Evaluator) : Option Evaluator :=
  match Action.codeOf budget root ev.reset with
  | some (.ok code, after) =>
    let frame : Frame :=
      { kind := .program, node := root.id, code := code, bindings := .empty,
        scope := .mk (.captured after.nextScope) .empty none }
    some { after with frames := [frame], nextScope := after.nextScope + 1 }
  | some (.error _, after) => some after
  | none => none

end Evaluator

end Stepwise

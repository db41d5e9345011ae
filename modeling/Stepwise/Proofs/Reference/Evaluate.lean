import Stepwise.Machine.Step
import Stepwise.Proofs.Code.Layout

/-!
# Reference evaluation

What an expression evaluates to, told without code, cursors or a stack.  Layouts are evaluated by
recursion: parts from left to right, a condition before one of its branches, the slots of a call
before its callee, and the body of the callee in a frame of its own, which holds the bound inputs
over the scope that the callee closes over.  The first exception ends everything.

Layouts are trees, so nothing but calls can make an evaluation endless.  The recursion over calls
is bounded by the number of frames that may be entered inside of one another (`evaluateAt`).

The layout of a body is found when the body is first evaluated, and kept (`Env.layoutOf`).
-/

namespace Stepwise.Reference

/-- Why an evaluation has no value. -/
inductive Fault where
  | raised (x : Exception)
  /-- A callee asks for another number of values than has been laid out for it. -/
  | mismatched
  /-- More frames would be entered inside of one another than may be. -/
  | tooDeep
  /-- The layout of a body is not found within the budget. -/
  | unlaid

/-- What stays the same for as long as a frame is evaluated. -/
structure Env where
  context : Context
  globals : Bindings
  streams : Bindings
  /-- The budget of the search for layouts. -/
  budget : Nat
  /-- The definition that is evaluated. -/
  definition : Option NodeId
  /-- The scope that the definition was made in. -/
  scope : Scope

/-- What changes. -/
structure Store where
  /-- The names that the frame binds. -/
  bindings : Bindings
  memo : Memo
  /-- The layouts found so far, by node. -/
  layouts : Assoc NodeId Layout
  nextScope : Nat

/-- A computation that may have no value. -/
abbrev Evaluation := StateT Store (Except Fault)

/-! ## Sequences -/

section Laws

variable {α β : Type} {store mid : Store}

theorem get_ok (store : Store) : (get : Evaluation Store) store = .ok (store, store) := rfl

/-- A sequence goes on from what its first part has stored. -/
theorem bind_ok {m : Evaluation α} {f : α → Evaluation β} {a : α} (h : m store = .ok (a, mid)) :
    (m >>= f) store = f a mid := by
  show (m store >>= fun r => f r.1 r.2) = _
  rw [h]
  rfl

/-- A fault of the first part is a fault of the sequence. -/
theorem bind_error {m : Evaluation α} {f : α → Evaluation β} {fault : Fault}
    (h : m store = .error fault) : (m >>= f) store = .error fault := by
  show (m store >>= fun r => f r.1 r.2) = _
  rw [h]
  rfl

end Laws

/-- A value, unless it is an exception. -/
def orRaise : Value → Evaluation Value
  | .exception x => throw (.raised x)
  | value => pure value

/-- An identity for a scope. -/
def fresh : Evaluation ScopeId := do
  let store ← get
  set { store with nextScope := store.nextScope + 1 }
  pure (.captured store.nextScope)

/-- Binds every alias to a value, and answers the value. -/
def declare (aliases : List String) (value : Value) : Evaluation Value := do
  modify fun store => { store with bindings := bindAliases store.bindings aliases value }
  pure value

/-- Evaluates in a frame that binds other names, and answers what names it binds in the end. -/
def inFrame {α : Type} (bindings : Bindings) (body : Evaluation α) : Evaluation (α × Bindings) := do
  let outer ← get
  set { outer with bindings := bindings }
  let value ← body
  let inner ← get
  set { inner with bindings := outer.bindings }
  pure (value, inner.bindings)

/-- The bindings of the values laid out for a call, when they are as many as its callee asks for. -/
def bindArguments (c : Call) (inputs : List Binder) (values : List Value) : Evaluation Bindings :=
  if values.length = valueCount (plan inputs c.inputs) then
    match bindInputs inputs values with
    | .ok bindings => pure bindings
    | .error x => throw (.raised (x.atNode c.id))
  else throw .mismatched

/-! ## Expressions -/

namespace Env

variable (env : Env)

/-- Fails at a node. -/
def raise {α : Type} (node : NodeId) (kind : ExceptionKind) : Evaluation α :=
  throw (.raised { kind := kind, node := some node, frame := env.definition })

/-- The value that an operator computes. -/
def ofResult (node : NodeId) : Except ExceptionKind Value → Evaluation Value
  | .ok value => pure value
  | .error kind => env.raise node kind

/-- The value of a name: what the frame binds, then the scope chain, then the globals, then the
streams. -/
def lookup (bindings : Bindings) (name : String) : Option Value :=
  (bindings.find? name).or <|
    (env.scope.lookup name).or <| (env.globals.find? name).or (env.streams.find? name)

/-- The scope that a definition made now closes over. -/
def close : Evaluation Scope := do
  let id ← fresh
  pure (.mk id (← get).bindings (some env.scope))

/-- The value of an expression that is not a call, from those of its parts. -/
def combine : Expr → List Value → Evaluation Value
  | .boolean _ _ value, _ => pure (.boolean value)
  | .number _ _ amount unit, _ => pure (.measure amount unit)
  | .text _ token tag, _ => pure (.text ⟨unquoted token.text, tag.map Language.code⟩)
  | .list .., values => pure (.list values)
  | .delete id .., _ | .insert id .., _ => env.raise id .notImplemented
  | .reference id name, _ => do
    match env.lookup (← get).bindings name.text with
    | some value => pure value
    | none => env.raise id (.unknownName name.text)
  | .access id _ _ name, [.struct definition scope] =>
    match memberValue? definition scope name.text with
    | some value => pure value
    | none => env.raise id (.unknownName name.text)
  | .access id _ _ _, [other] => env.raise id (wrongKind "structure" other)
  | .binary id _ _ op _, [left, right] => env.ofResult id (op.apply left right)
  | .unary id _ op _, [operand] => env.ofResult id (op.apply operand)
  | .function f, _ => do declare f.aliases (.function f (← env.close))
  | .struct s, _ => do declare s.aliases (.structDef s (← env.close))
  | .block id _, values =>
    match values.getLast? with
    | some last => pure last
    | none => env.raise id .noValue
  | .bind b, [value] => declare b.aliases value
  | e, _ => env.raise e.id .insufficientValues

/-! ## Calls -/

/-- The layout of an expression, which is found once. -/
def layoutOf (e : Expr) : Evaluation Layout := do
  let store ← get
  match store.layouts.find? e.id with
  | some found => pure found
  | none =>
    match e.layout env.budget env.context store.memo with
    | some (found, memo) => do
      set { store with memo := memo, layouts := store.layouts.insert e.id found }
      pure found
    | none => throw .unlaid

/-- The layout of the block of a structure, unless there is nothing in it. -/
def layoutOfBlock (s : StructDef) : Evaluation (Option Layout) :=
  match s.block with
  | none => pure none
  | some (.block _ []) => pure none
  | some block => some <$> env.layoutOf block

/-- How a frame is evaluated, if one more may be entered. -/
abbrev Enter := Option (Env → Layout → Evaluation Value)

/-- Insists on one more frame. -/
def Enter.require : Enter → Evaluation (Env → Layout → Evaluation Value)
  | some evaluate => pure evaluate
  | none => throw .tooDeep

/-- The value of a call of a function, which can refer to itself. -/
def callFunction (enter : Enter) (c : Call) (f : FunctionDef) (scope : Scope)
    (arguments : List Value) : Evaluation Value := do
  let bindings ← bindArguments c f.inputs arguments
  match f.body with
  | none => env.raise c.id .notImplemented
  | some body => do
    let layout ← env.layoutOf body
    let evaluate ← enter.require
    let inner := { env with definition := some f.id, scope := scope }
    let self := Value.function f scope
    let (value, _) ← inFrame (Action.bindSelf bindings f.aliases self) (evaluate inner layout)
    pure value

/-- Evaluates a block, if there is one, for the names that it binds. -/
def forMembers (evaluate : Layout → Evaluation Value) : Option Layout → Evaluation Unit
  | none => pure ()
  | some layout => do
    let _ ← evaluate layout
    pure ()

/-- The instance that a call of a structure builds.  Its block can refer to the structure by names
that do not become members. -/
def instantiate (enter : Enter) (c : Call) (s : StructDef) (scope : Scope)
    (arguments : List Value) : Evaluation Value := do
  let bindings ← bindArguments c s.inputs arguments
  let block ← env.layoutOfBlock s
  let names : Bindings := Assoc.ofList (s.aliases.map fun name => (name, .structDef s scope))
  let around := Scope.mk (← fresh) names (some scope)
  let evaluate ← enter.require
  let inner := { env with definition := some s.id, scope := around }
  let (_, members) ← inFrame bindings (forMembers (evaluate inner) block)
  pure (.struct s (.mk (← fresh) members (some around)))

/-- The value of a call of a value. -/
def callValue (enter : Enter) (c : Call) (arguments : List Value) : Value → Evaluation Value
  | .function f scope => env.callFunction enter c f scope arguments
  | .structDef s scope => env.instantiate enter c s scope arguments
  | _ => env.raise c.id (.notCallable c.callee.describe)

/-- The value of an expression from those of its parts, of which a call has its callee last. -/
def conclude (enter : Enter) : Expr → List Value → Evaluation Value
  | .call c, values =>
    match values.getLast? with
    | some callee => env.callValue enter c values.dropLast callee
    | none => env.raise c.id .insufficientValues
  | e, values => env.combine e values

end Env

/-! ## Layouts -/

mutual

/-- The value of a layout. -/
def evaluateWith (enter : Env.Enter) (env : Env) : Layout → Evaluation Value
  | .leaf e => do orRaise (← env.combine e [])
  | .node e parts => do
    let values ← evaluateAllWith enter env parts
    orRaise (← env.conclude enter e values)
  | .branch id condition yes no => do
    match ← evaluateWith enter env condition with
    | .boolean true => evaluateWith enter env yes
    | .boolean false => evaluateWith enter env no
    | other => env.raise id (wrongKind "boolean" other)
  | .halt node reason => env.raise node reason.exceptionKind
termination_by structural l => l

/-- The values of layouts, from left to right. -/
def evaluateAllWith (enter : Env.Enter) (env : Env) : List Layout → Evaluation (List Value)
  | [] => pure []
  | part :: rest => do
    let first ← evaluateWith enter env part
    let others ← evaluateAllWith enter env rest
    pure (first :: others)
termination_by structural ls => ls

end

/-- The value of a layout when so many frames may be entered inside of one another. -/
def evaluateAt : Nat → Env → Layout → Evaluation Value
  | 0 => evaluateWith none
  | depth + 1 => evaluateWith (some (evaluateAt depth))

/-- How a frame is evaluated when so many may be entered. -/
def enterAt : Nat → Env.Enter
  | 0 => none
  | depth + 1 => some (evaluateAt depth)

theorem evaluateAt_eq (depth : Nat) : evaluateAt depth = evaluateWith (enterAt depth) := by
  cases depth <;> rfl

/-! ## Passes -/

/-- What an evaluator has supplied for its next pass. -/
def Env.ofPass (ev : Evaluator) (budget : Nat) : Env :=
  { context := ev.context
    globals := ev.globals
    streams := ev.streams.insertAll ev.pending
    budget := budget
    definition := none
    scope := .mk (.captured ev.nextScope) .empty none }

/-- What the next pass starts with, where `layouts` are those of the code lowered before. -/
def Store.ofPass (ev : Evaluator) (layouts : Assoc NodeId Layout) : Store :=
  { bindings := .empty, memo := ev.memo, layouts := layouts, nextScope := ev.nextScope + 1 }

/-- What a pass over a root expression should come to when so many frames may be entered inside of
one another. -/
def evaluatePass (ev : Evaluator) (budget depth : Nat) (layouts : Assoc NodeId Layout)
    (root : Expr) : Except Fault Value :=
  let env := Env.ofPass ev budget
  let pass := env.layoutOf root >>= evaluateAt depth env
  (pass (Store.ofPass ev layouts)).map Prod.fst

/-- The result of evaluating what ends in this way. -/
def resultOf : Outcome → Except Fault Value
  | .produced value => .ok value
  | .halted x => .error (.raised x)

/-- How a pass should end, however many frames that takes. -/
def Means (ev : Evaluator) (budget : Nat) (layouts : Assoc NodeId Layout) (root : Expr)
    (outcome : Outcome) : Prop :=
  ∃ depth, evaluatePass ev budget depth layouts root = resultOf outcome

end Stepwise.Reference

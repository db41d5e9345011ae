import Stepwise.Proofs.Code.Layout
import Stepwise.Proofs.Machine.Action

/-!
# What executing an expression can do

Every expression is executed in two parts.  First it takes operands, and nothing else touches the
stack; then it works on them.  `execute_eq` and `executeCall_eq` split the two: `Expr.operate` is
the second part for everything but calls, and `enter` is the second part for calls.

The second part leaves the stack alone and may change the bindings of the innermost frame, the memo
of types, the code lowered so far and the next identity of a scope, and nothing else (`Evolves`).  A
call may start one frame on top of that (`Starts`), whose code has been lowered in the context of
the evaluator or belongs to an empty block.
-/

namespace Stepwise

open Stepwise.Action

/-! ## The two parts of an execution -/

/-- Whether an expression is a call. -/
def Expr.isCall : Expr → Bool
  | .call _ => true
  | _ => false

theorem isCall_of_isLeaf {e : Expr} (h : e.isLeaf = true) : e.isCall = false := by
  cases e <;> simp [Expr.isLeaf, Expr.isCall] at h ⊢

theorem demand_of_isLeaf {e : Expr} (h : e.isLeaf = true) : e.demand = 0 := by
  cases e <;> first | rfl | exact nomatch h

/-- The member of an instance. -/
def accessMember (id : NodeId) (name : String) (subject : Value) : Action Value :=
  match subject with
  | .struct definition scope =>
    match memberValue? definition scope name with
    | some value => pure value
    | none => failAt id (.unknownName name)
  | other => failAt id (wrongKind "structure" other)

/-- What an expression that is not a call does with its operands, given as they were written. -/
def Expr.operate : Expr → List Value → Action (Option Value)
  | .boolean _ _ value, _ => pure (some (.boolean value))
  | .number _ _ amount unit, _ => pure (some (.measure amount unit))
  | .text _ token tag, _ => pure (some (.text ⟨unquoted token.text, tag.map Language.code⟩))
  | .list .., values => pure (some (.list values))
  | .delete id .., _ => failAt id .notImplemented
  | .insert id .., _ => failAt id .notImplemented
  | .reference id name, _ => do
    match (← get).lookup name.text with
    | some value => pure (some value)
    | none => failAt id (.unknownName name.text)
  | .access id _ _ name, [subject] => some <$> accessMember id name.text subject
  | .binary id _ _ op _, [left, right] => some <$> ofResult id (op.apply left right)
  | .unary id _ op _, [operand] => some <$> ofResult id (op.apply operand)
  | .function f, _ => some <$> executeDefinition f.aliases (.function f)
  | .struct s, _ => some <$> executeDefinition s.aliases (.structDef s)
  | .block id _, values =>
    match values.getLast? with
    | some last => pure (some last)
    | none => failAt id .noValue
  | .bind b, [value] => do
    bindAll b.aliases value
    pure (some value)
  | _, _ => pure none

/-- Executing an expression that is not a call takes its operands and works on them. -/
theorem execute_eq (budget : Nat) {e : Expr} (h : e.isCall = false) :
    e.execute budget = popOperands e.demand >>= fun values => e.operate values.reverse := by
  cases e with
  | call c => simp [Expr.isCall] at h
  | block id statements =>
    simp only [Expr.execute, executeBlock, Expr.demand, map_bind]
    congr 1
    funext values
    cases values with
    | nil => rfl
    | cons => simp [Expr.operate]
  | reference =>
    simp only [Expr.execute, Expr.demand, popOperands, pure_bind]
    rfl
  | access =>
    simp only [Expr.execute, Expr.demand, popOperands, executeAccess, bind_assoc, pure_bind,
      map_bind]
    rfl
  | _ => simp [Expr.execute, Expr.demand, Expr.operate, popOperands]

/-- The inputs of what a value calls, if it can be called. -/
def Value.declaredInputs? : Value → Option (List Binder)
  | .function f _ => some f.inputs
  | .structDef s _ => some s.inputs
  | _ => none

/-- The bindings of the values that a call has laid out. -/
def argumentBindings (call : Call) (inputs : List Binder) (values : List Value) :
    Action Bindings :=
  match bindInputs inputs values with
  | .ok bindings => pure bindings
  | .error x => throw (x.atNode call.id)

/-- The frame that runs the body of a function. -/
def prepareFunction (budget : Nat) (f : FunctionDef) (scope : Scope) (bindings : Bindings) :
    Action Frame :=
  match f.body with
  | none => failWith .notImplemented
  | some body => do
    let code ← codeOf budget body
    pure
      { kind := .function f, node := body.id, code := code,
        bindings := bindSelf bindings f.aliases (.function f scope), scope := scope }

/-- The frame that builds an instance of a structure. -/
def prepareStruct (budget : Nat) (s : StructDef) (scope : Scope) (bindings : Bindings) :
    Action Frame := do
  let code ← blockCode budget s
  let id ← freshScope
  pure
    { kind := .struct s, node := s.id, code := code, bindings := bindings,
      scope := .mk id (Assoc.ofList (s.aliases.map fun name => (name, .structDef s scope)))
        (some scope) }

/-- The frame of a call, for its callee and the values of its arguments as they were laid out. -/
def prepare (budget : Nat) (call : Call) (values : List Value) : Value → Action Frame
  | .function f scope => do
    let bindings ← argumentBindings call f.inputs values
    blaming call.id (prepareFunction budget f scope bindings)
  | .structDef s scope => do
    let bindings ← argumentBindings call s.inputs values
    blaming call.id (prepareStruct budget s scope bindings)
  | _ => failAt call.id (.notCallable call.callee.describe)

/-- A call takes its callee, then as many arguments as the inputs of the callee ask for, and makes
the frame that runs the callee. -/
def prepareCall (budget : Nat) (call : Call) : Action Frame := do
  let callee ← popOperand
  match callee.declaredInputs? with
  | none => failAt call.id (.notCallable call.callee.describe)
  | some inputs => do
    let values ← popOperands (valueCount (plan inputs call.inputs))
    prepare budget call values.reverse callee

theorem callFunction_eq (budget : Nat) (f : FunctionDef) (scope : Scope) (bindings : Bindings) :
    callFunction budget f scope bindings =
      prepareFunction budget f scope bindings >>= startFrame := by
  unfold callFunction prepareFunction
  cases f.body with
  | none => rfl
  | some body => simp only [bind_assoc, pure_bind]

theorem instantiate_eq (budget : Nat) (s : StructDef) (scope : Scope) (bindings : Bindings) :
    instantiate budget s scope bindings =
      prepareStruct budget s scope bindings >>= startFrame := by
  unfold instantiate prepareStruct
  simp only [bind_assoc, pure_bind]

theorem takeArguments_eq (call : Call) (inputs : List Binder) :
    takeArguments call inputs =
      popOperands (valueCount (plan inputs call.inputs)) >>= fun values =>
        argumentBindings call inputs values.reverse :=
  rfl

/-- Calls make their frame before they start it, and nothing but the limit on frames stands between
the two. -/
theorem executeCall_eq (budget : Nat) (call : Call) :
    executeCall budget call =
      prepareCall budget call >>= fun frame => blaming call.id (startFrame frame) := by
  unfold executeCall prepareCall
  rw [bind_assoc]
  congr 1
  funext callee
  cases callee with
  | function f scope =>
    simp only [takeArguments_eq, Value.declaredInputs?, prepare, callFunction_eq, blaming_bind,
      bind_assoc]
  | structDef s scope =>
    simp only [takeArguments_eq, Value.declaredInputs?, prepare, instantiate_eq, blaming_bind,
      bind_assoc]
  | _ => rfl

/-! ## What changes -/

/-- Code that lowering yields in a context. -/
def Lowers (ctx : Context) (code : Code) : Prop :=
  ∃ budget e memo memo', Expr.lower budget e ctx memo = some (code, memo')

/-- `after` differs from `ev` at most in the names bound by the innermost frame and in what has been
found out, lowered and captured; whatever has been lowered was lowered in the context. -/
structure Evaluator.Evolves (ev after : Evaluator) : Prop where
  rest : after = { ev with
    memo := after.memo
    frames := after.frames
    lowered := after.lowered
    nextScope := after.nextScope }
  frames : ∃ bindings, after.frames = ev.frames.modifyHead fun f => { f with bindings := bindings }
  codes : ∀ id code, after.lowered.find? id = some code →
    ev.lowered.find? id = some code ∨ Lowers ev.context code

namespace Evaluator

variable {ev mid after : Evaluator}

theorem Evolves.refl (ev : Evaluator) : ev.Evolves ev := by
  refine ⟨rfl, ?_, fun _ _ h => Or.inl h⟩
  cases h : ev.frames with
  | nil => exact ⟨.empty, rfl⟩
  | cons frame outer => exact ⟨frame.bindings, rfl⟩

theorem Evolves.context (h : ev.Evolves after) : after.context = ev.context := by
  rw [h.rest]

theorem Evolves.options (h : ev.Evolves after) : after.options = ev.options := by
  rw [h.rest]

theorem Evolves.stack (h : ev.Evolves after) : after.stack = ev.stack := by
  rw [h.rest]

theorem Evolves.outcome (h : ev.Evolves after) : after.outcome = ev.outcome := by
  rw [h.rest]

theorem Evolves.length_frames (h : ev.Evolves after) :
    after.frames.length = ev.frames.length := by
  obtain ⟨bindings, hf⟩ := h.frames
  simp [hf]

theorem Evolves.trans (h : ev.Evolves mid) (h' : mid.Evolves after) : ev.Evolves after := by
  refine ⟨?_, ?_, fun id code hc => ?_⟩
  · rw [h'.rest, h.rest]
  · obtain ⟨bindings, hb⟩ := h.frames
    obtain ⟨others, ho⟩ := h'.frames
    refine ⟨others, ?_⟩
    rw [ho, hb]
    cases ev.frames <;> rfl
  · rcases h'.codes id code hc with hc | hc
    · exact h.codes id code hc
    · exact Or.inr (h.context ▸ hc)

/-- Binding aliases writes them into the bindings of the innermost frame. -/
theorem bindAll_eq (ev : Evaluator) (aliases : List String) (value : Value) :
    ev.bindAll aliases value =
      { ev with
        frames := ev.frames.modifyHead fun f =>
          { f with bindings := bindAliases f.bindings aliases value } } := by
  unfold bindAll bindAliases
  induction aliases generalizing ev with
  | nil => cases ev with | mk => rename_i frames _ _ _ _ _; cases frames <;> rfl
  | cons name aliases ih =>
    rw [List.foldl_cons, ih]
    cases hf : ev.frames <;> simp [bind, hf, Frame.bind]

theorem evolves_bindAll (ev : Evaluator) (aliases : List String) (value : Value) :
    ev.Evolves (ev.bindAll aliases value) := by
  rw [bindAll_eq]
  refine ⟨rfl, ?_, fun _ _ h => Or.inl h⟩
  cases h : ev.frames with
  | nil => exact ⟨.empty, rfl⟩
  | cons frame outer => exact ⟨bindAliases frame.bindings aliases value, rfl⟩

/-- A change of memo, cache and identities alone. -/
theorem evolves_of_frames_eq
    (hrest : after = { ev with
      memo := after.memo, lowered := after.lowered, nextScope := after.nextScope })
    (hcodes : ∀ id code, after.lowered.find? id = some code →
      ev.lowered.find? id = some code ∨ Lowers ev.context code) : ev.Evolves after := by
  have hf : after.frames = ev.frames := by rw [hrest]
  refine ⟨by rw [hrest], ?_, hcodes⟩
  rw [hf]
  exact (Evolves.refl ev).frames

end Evaluator

/-! ## Failures -/

/-- The kinds that operators fail with: an operand is not of the right kind, or has not the right
unit. -/
inductive ExceptionKind.OfOperands : ExceptionKind → Prop
  | typeMismatch (expected received : String) : OfOperands (.typeMismatch expected received)
  | incompatibleUnits (left right : String) : OfOperands (.incompatibleUnits left right)
  | unitOverflow (unit : String) : OfOperands (.unitOverflow unit)

/-- A computation that fails only because of its operands. -/
structure BlamesOperands {α : Type} (result : Except ExceptionKind α) : Prop where
  kind : ∀ kind, result = .error kind → kind.OfOperands

namespace BlamesOperands

variable {α β : Type}

theorem ok (a : α) : BlamesOperands (.ok a : Except ExceptionKind α) := ⟨nofun⟩

theorem error {kind : ExceptionKind} (h : kind.OfOperands) :
    BlamesOperands (.error kind : Except ExceptionKind α) :=
  ⟨fun _ heq => Except.error.inj heq ▸ h⟩

theorem bind {result : Except ExceptionKind α} {f : α → Except ExceptionKind β}
    (h : BlamesOperands result) (hf : ∀ a, BlamesOperands (f a)) :
    BlamesOperands (result >>= f) := by
  cases result with
  | ok a => exact hf a
  | error kind => exact error (h.kind kind rfl)

theorem toNumber (value : Value) : BlamesOperands value.toNumber := by
  cases value <;> first | exact ok _ | exact error (.typeMismatch ..)

theorem toBoolean (value : Value) : BlamesOperands value.toBoolean := by
  cases value <;> first | exact ok _ | exact error (.typeMismatch ..)

theorem sameUnit (left right : NumberValue) : BlamesOperands (requireSameUnit left right) := by
  unfold requireSameUnit
  split
  · exact ok _
  · exact error (.incompatibleUnits ..)

theorem unit (operand : MeasureUnit) (found : Option MeasureUnit) :
    BlamesOperands (requireUnit operand found) := by
  cases found with
  | some unit => exact ok _
  | none => exact error (.unitOverflow _)

theorem power (base exponent : NumberValue) : BlamesOperands (base.power exponent) := by
  have hwhole : BlamesOperands (wholeExponent exponent) := by
    unfold wholeExponent
    split
    · exact ok _
    · exact error (.typeMismatch ..)
  exact hwhole.bind fun whole => (unit ..).bind fun _ => ok _

theorem numbers (op : BinaryOperator) (left right : NumberValue) :
    BlamesOperands (applyToNumbers op left right) := by
  unfold applyToNumbers
  split
  case h_7 => exact (power ..).bind fun _ => ok _
  all_goals first
    | exact (sameUnit ..).bind fun _ => ok _
    | exact (unit ..).bind fun _ => ok _

/-- Operators fail because of what their operands are. -/
theorem binary (op : BinaryOperator) (left right : Value) :
    BlamesOperands (op.apply left right) := by
  unfold BinaryOperator.apply
  split
  · exact ok _
  · exact ok _
  · refine (toBoolean left).bind fun b => ?_
    cases b
    · exact ok _
    · exact (toBoolean right).bind fun _ => ok _
  · refine (toBoolean left).bind fun b => ?_
    cases b
    · exact (toBoolean right).bind fun _ => ok _
    · exact ok _
  · exact (toNumber left).bind fun _ => (toNumber right).bind fun _ => numbers ..

theorem unary (op : UnaryOperator) (operand : Value) : BlamesOperands (op.apply operand) := by
  cases op
  · exact (toNumber operand).bind fun _ => ok _
  · exact (toBoolean operand).bind fun _ => ok _

end BlamesOperands

/-- A computation that does not fail for want of values. -/
structure Sparing {α : Type} (result : Except ExceptionKind α) : Prop where
  ne : result ≠ .error .insufficientValues

namespace Sparing

theorem of_blamesOperands {α : Type} {result : Except ExceptionKind α} (h : BlamesOperands result) :
    Sparing result :=
  ⟨fun heq => nomatch h.kind _ heq⟩

theorem binary (op : BinaryOperator) (left right : Value) : Sparing (op.apply left right) :=
  .of_blamesOperands (.binary op left right)

theorem unary (op : UnaryOperator) (operand : Value) : Sparing (op.apply operand) :=
  .of_blamesOperands (.unary op operand)

end Sparing

/-- A computation whose value is a boolean or a number. -/
structure Plain (result : Except ExceptionKind Value) : Prop where
  atom : ∀ value, result = .ok value → (∃ b, value = .boolean b) ∨ ∃ n, value = .number n

namespace Plain

theorem bind {α : Type} {result : Except ExceptionKind α} {f : α → Except ExceptionKind Value}
    (hf : ∀ a, Plain (f a)) : Plain (result >>= f) := by
  cases result with
  | ok a => exact hf a
  | error kind => exact ⟨nofun⟩

theorem boolean (b : Bool) : Plain (.ok (.boolean b)) :=
  ⟨fun _ hv => Or.inl ⟨b, (Except.ok.inj hv).symm⟩⟩

theorem number (n : NumberValue) : Plain (.ok (.number n)) :=
  ⟨fun _ hv => Or.inr ⟨n, (Except.ok.inj hv).symm⟩⟩

theorem numbers (op : BinaryOperator) (left right : NumberValue) :
    Plain (applyToNumbers op left right) := by
  unfold applyToNumbers
  split <;> refine bind fun _ => ?_ <;> first | exact boolean _ | exact number _

/-- Operators yield booleans and numbers. -/
theorem binary (op : BinaryOperator) (left right : Value) : Plain (op.apply left right) := by
  unfold BinaryOperator.apply
  split
  · exact boolean _
  · exact boolean _
  · refine bind fun b => ?_
    cases b
    · exact boolean _
    · exact bind fun _ => boolean _
  · refine bind fun b => ?_
    cases b
    · exact bind fun _ => boolean _
    · exact boolean _
  · exact bind fun _ => bind fun _ => numbers ..

theorem unary (op : UnaryOperator) (operand : Value) : Plain (op.apply operand) := by
  cases op
  · exact bind fun _ => number _
  · exact bind fun _ => boolean _

end Plain

/-- Binding fails at an input that no value is left for. -/
theorem bindInputs_error {inputs : List Binder} {values : List Value} {x : Exception}
    (h : bindInputs inputs values = .error x) :
    ∃ input ∈ inputs, x = { kind := .missingValue input.primaryName } := by
  unfold bindInputs at h
  generalize Assoc.empty = bindings at h
  induction inputs generalizing bindings values with
  | nil => simp [bindInputsAfter] at h
  | cons input inputs ih =>
    unfold bindInputsAfter at h
    split at h
    · obtain ⟨other, hmem, hx⟩ := ih _ h
      exact ⟨other, List.mem_cons_of_mem _ hmem, hx⟩
    · cases values with
      | nil => exact ⟨input, by simp, by simpa using h.symm⟩
      | cons value left =>
        obtain ⟨other, hmem, hx⟩ := ih _ h
        exact ⟨other, List.mem_cons_of_mem _ hmem, hx⟩

namespace Action

variable {α β : Type}

/-- An action after which the evaluator has evolved, whatever its result, and that does not fail for
want of values. -/
structure Evolving (m : Action α) : Prop where
  evolves : ∀ {ev r after}, m ev = some (r, after) → ev.Evolves after
  kind : ∀ {ev x after}, m ev = some (.error x, after) → x.kind ≠ .insufficientValues

theorem evolving_of_apply {m : Action α} (f : Evaluator → Except Exception α)
    (h : ∀ ev, m ev = some (f ev, ev))
    (hk : ∀ ev x, f ev = .error x → x.kind ≠ .insufficientValues) : Evolving m := by
  refine ⟨fun {ev r after} hm => ?_, fun {ev x after} hm => ?_⟩ <;>
    rw [h ev, Option.some.injEq, Prod.mk.injEq] at hm
  · rw [← hm.2]
    exact .refl ev
  · exact hk ev x hm.1

theorem evolving_pure (a : α) : Evolving (pure a : Action α) :=
  evolving_of_apply (fun _ => .ok a) (fun _ => rfl) fun _ _ h => nomatch h

theorem evolving_throw {x : Exception} (hx : x.kind ≠ .insufficientValues) :
    Evolving (throw x : Action α) :=
  evolving_of_apply (fun _ => .error x) (fun _ => rfl) fun _ _ h => Except.error.inj h ▸ hx

theorem evolving_get : Evolving (get : Action Evaluator) :=
  evolving_of_apply .ok (fun _ => rfl) fun _ _ h => nomatch h

theorem evolving_failAt (node : NodeId) {kind : ExceptionKind} (hk : kind ≠ .insufficientValues) :
    Evolving (failAt node kind : Action α) :=
  evolving_of_apply (fun ev => .error ((ev.exception kind).atNode node)) (fun _ => rfl)
    fun _ _ h => Except.error.inj h ▸ hk

theorem evolving_failWith {kind : ExceptionKind} (hk : kind ≠ .insufficientValues) :
    Evolving (failWith kind : Action α) :=
  evolving_of_apply (fun ev => .error (ev.exception kind)) (fun _ => rfl)
    fun _ _ h => Except.error.inj h ▸ hk

theorem Evolving.bind {m : Action α} {f : α → Action β} (hm : Evolving m)
    (hf : ∀ a, Evolving (f a)) : Evolving (m >>= f) := by
  refine ⟨fun {ev r after} h => ?_, fun {ev x after} h => ?_⟩
  · rcases bind_eq_some h with ⟨a, mid, ha, hr⟩ | ⟨x, hx, -⟩
    · exact (hm.evolves ha).trans ((hf a).evolves hr)
    · exact hm.evolves hx
  · rcases bind_eq_some h with ⟨a, mid, -, hr⟩ | ⟨y, hy, heq⟩
    · exact (hf a).kind hr
    · obtain rfl : x = y := by simpa using heq
      exact hm.kind hy

theorem Evolving.map {m : Action α} (f : α → β) (hm : Evolving m) : Evolving (f <$> m) := by
  rw [← bind_pure_comp]
  exact hm.bind fun _ => evolving_pure _

theorem Evolving.blaming {m : Action α} (node : NodeId) (hm : Evolving m) :
    Evolving (blaming node m) := by
  refine ⟨fun {ev r after} h => ?_, fun {ev x after} h => ?_⟩ <;>
    obtain ⟨r', hr, heq⟩ := blaming_eq_some h
  · exact hm.evolves hr
  · cases r' with
    | ok a => simp at heq
    | error y =>
      obtain rfl : x = y.atNode node := by simpa using heq
      exact hm.kind (x := y) hr

theorem evolving_ofResult (node : NodeId) {result : Except ExceptionKind α}
    (h : Sparing result) : Evolving (ofResult node result) := by
  cases result with
  | ok value => exact evolving_pure value
  | error kind => exact evolving_failAt node fun hk => h.ne (by rw [hk])

theorem evolving_bindAll (aliases : List String) (value : Value) :
    Evolving (bindAll aliases value) := by
  refine ⟨fun {ev r after} h => ?_, fun h => by simp [bindAll] at h⟩
  simp only [bindAll, modify_apply, Option.some.injEq, Prod.mk.injEq] at h
  rw [← h.2]
  exact ev.evolves_bindAll aliases value

theorem freshScope_apply (ev : Evaluator) :
    freshScope ev =
      some (.ok (.captured ev.nextScope), { ev with nextScope := ev.nextScope + 1 }) := rfl

theorem evolving_freshScope : Evolving freshScope := by
  refine ⟨fun {ev r after} h => ?_, fun h => by simp [freshScope_apply] at h⟩
  rw [freshScope_apply, Option.some.injEq, Prod.mk.injEq] at h
  rw [← h.2]
  exact Evaluator.evolves_of_frames_eq rfl fun _ _ hc => Or.inl hc

theorem evolving_captureScope : Evolving captureScope := by
  refine evolving_freshScope.bind fun id => evolving_get.bind fun ev => ?_
  cases ev.currentFrame? <;> exact evolving_pure _

/-- The code of an expression is what the cache holds for it afterwards. -/
theorem codeOf_cases {budget : Nat} {e : Expr} {ev after : Evaluator} {r : Except Exception Code}
    (h : codeOf budget e ev = some (r, after)) :
    ∃ code, r = .ok code ∧ ((ev.lowered.find? e.id = some code ∧ after = ev) ∨
      ∃ memo, ev.lowered.find? e.id = none ∧ e.lower budget ev.context ev.memo = some (code, memo) ∧
        after = { ev with memo := memo, lowered := ev.lowered.insert e.id code }) := by
  unfold codeOf at h
  rw [bind_apply, get_apply, Option.bind_some, continuing_ok] at h
  cases hc : ev.lowered.find? e.id with
  | some code =>
    simp only [hc, pure_apply, Option.some.injEq, Prod.mk.injEq] at h
    exact ⟨code, h.1.symm, Or.inl ⟨rfl, h.2.symm⟩⟩
  | none =>
    cases hl : e.lower budget ev.context ev.memo with
    | none => simp [hc, hl] at h
    | some found =>
      obtain ⟨code, memo⟩ := found
      simp only [hc, hl, bind_apply, set_apply, Option.bind_some, continuing_ok, pure_apply,
        Option.some.injEq, Prod.mk.injEq] at h
      exact ⟨code, h.1.symm, Or.inr ⟨memo, rfl, rfl, h.2.symm⟩⟩

theorem find?_of_codeOf {budget : Nat} {e : Expr} {ev after : Evaluator} {code : Code}
    (h : codeOf budget e ev = some (.ok code, after)) :
    after.lowered.find? e.id = some code := by
  obtain ⟨found, hr, ⟨hc, rfl⟩ | ⟨memo, -, -, rfl⟩⟩ := codeOf_cases h <;>
    obtain rfl : code = found := by simpa using hr
  · exact hc
  · simp [Assoc.find?_insert]

theorem evolving_codeOf (budget : Nat) (e : Expr) : Evolving (codeOf budget e) := by
  refine ⟨fun {ev r after} h => ?_, fun {ev x after} h => ?_⟩
  case refine_2 =>
    obtain ⟨code, hr, -⟩ := codeOf_cases h
    simp at hr
  obtain ⟨code, rfl, ⟨-, rfl⟩ | ⟨memo, -, hl, rfl⟩⟩ := codeOf_cases h
  · exact .refl after
  · refine Evaluator.evolves_of_frames_eq rfl fun id found hc => ?_
    simp only [Assoc.find?_insert] at hc
    split at hc
    · obtain rfl : code = found := by simpa using hc
      exact Or.inr ⟨budget, e, ev.memo, memo, hl⟩
    · exact Or.inl hc

end Action

theorem evolving_accessMember (id : NodeId) (name : String) (subject : Value) :
    Evolving (accessMember id name subject) := by
  unfold accessMember
  split
  · split
    · exact evolving_pure _
    · exact evolving_failAt _ nofun
  · exact evolving_failAt _ nofun

/-- The scope that a definition closes over when it is made now. -/
def Evaluator.closure (ev : Evaluator) : Scope :=
  match ev.currentFrame? with
  | some frame => frame.capture (.captured ev.nextScope)
  | none => .mk (.captured ev.nextScope) .empty none

theorem captureScope_apply (ev : Evaluator) :
    captureScope ev = some (.ok ev.closure, { ev with nextScope := ev.nextScope + 1 }) := by
  unfold captureScope Evaluator.closure
  rw [bind_apply, freshScope_apply, Option.bind_some, continuing_ok, bind_apply, get_apply,
    Option.bind_some, continuing_ok]
  show (match ev.currentFrame? with | some frame => _ | none => _ : Action Scope) _ = _
  cases ev.currentFrame? <;> rfl

/-- A definition becomes a closure over what the innermost frame sees now, and that frame sees it
from then on. -/
theorem executeDefinition_apply (aliases : List String) (close : Scope → Value) (ev : Evaluator) :
    executeDefinition aliases close ev =
      some (.ok (close ev.closure),
        { ev with nextScope := ev.nextScope + 1 }.bindAll aliases (close ev.closure)) := by
  unfold executeDefinition
  rw [bind_apply, captureScope_apply]
  rfl

theorem evolving_executeDefinition (aliases : List String) (close : Scope → Value) :
    Evolving (executeDefinition aliases close) :=
  evolving_captureScope.bind fun _ => (evolving_bindAll ..).bind fun _ => evolving_pure _

/-- Working on operands leaves the stack alone and starts no frame. -/
theorem evolving_operate (e : Expr) (values : List Value) : Evolving (e.operate values) := by
  unfold Expr.operate
  split
  case h_7 =>
    refine evolving_get.bind fun ev => ?_
    split
    · exact evolving_pure _
    · exact evolving_failAt _ nofun
  case h_13 =>
    split
    · exact evolving_pure _
    · exact evolving_failAt _ nofun
  case h_14 => exact (evolving_bindAll ..).bind fun _ => evolving_pure _
  all_goals first
    | exact evolving_pure _
    | exact evolving_failAt _ nofun
    | exact (evolving_accessMember ..).map _
    | exact (evolving_ofResult _ (.binary ..)).map _
    | exact (evolving_ofResult _ (.unary ..)).map _
    | exact (evolving_executeDefinition ..).map _

/-! ## Starting a frame -/

/-- A frame as a call starts it: at its first instruction, for a definition, with code that has been
lowered or with the code of an empty block. -/
structure Frame.IsNew (frame : Frame) (ev : Evaluator) : Prop where
  cursor : frame.cursor = 0
  definition : frame.definition?.isSome
  code : (∃ id, ev.lowered.find? id = some frame.code) ∨
    (frame.code = [] ∧ ∃ s, frame.kind = .struct s)

/-- The evaluator with one more frame, which starts at the height that the stack has. -/
def Evaluator.pushFrame (ev : Evaluator) (frame : Frame) : Evaluator :=
  { ev with frames := { frame with base := ev.stack.height } :: ev.frames }

/-- A frame has been started, when there were fewer than there may be. -/
inductive Evaluator.Starts (ev : Evaluator) : Evaluator → Prop
  | mk (mid : Evaluator) (frame : Frame) (evolves : ev.Evolves mid) (new : frame.IsNew mid)
      (room : mid.frames.length < mid.options.maxDepth) : Starts ev (mid.pushFrame frame)

theorem startFrame_apply (frame : Frame) (ev : Evaluator) :
    startFrame frame ev =
      if ev.options.maxDepth ≤ ev.frames.length then
        some (.error (ev.exception (.stackOverflow ev.options.maxDepth)), ev)
      else some (.ok ⟨⟩, ev.pushFrame frame) := by
  unfold startFrame
  rw [bind_apply, get_apply, Option.bind_some, continuing_ok]
  split <;> rfl

/-- The code of a structure is that of its block, unless there is none or it is empty. -/
theorem blockCode_eq (budget : Nat) (s : StructDef) :
    blockCode budget s = pure [] ∨ ∃ block, blockCode budget s = codeOf budget block := by
  unfold blockCode
  rcases s.block with _ | block
  · exact Or.inl rfl
  · cases block with
    | block id statements =>
      cases statements with
      | nil => exact Or.inl rfl
      | cons e rest => exact Or.inr ⟨.block id (e :: rest), rfl⟩
    | _ => exact Or.inr ⟨_, rfl⟩

theorem evolving_blockCode (budget : Nat) (s : StructDef) : Evolving (blockCode budget s) := by
  rcases blockCode_eq budget s with h | ⟨block, h⟩ <;> rw [h]
  · exact evolving_pure _
  · exact evolving_codeOf ..

theorem find?_of_blockCode {budget : Nat} {s : StructDef} {ev after : Evaluator} {code : Code}
    (h : blockCode budget s ev = some (.ok code, after)) :
    (∃ id, after.lowered.find? id = some code) ∨ code = [] := by
  rcases blockCode_eq budget s with hb | ⟨block, hb⟩ <;> rw [hb] at h
  · simp only [pure_apply, Option.some.injEq, Prod.mk.injEq, Except.ok.injEq] at h
    exact Or.inr h.1.symm
  · exact Or.inl ⟨block.id, find?_of_codeOf h⟩

theorem evolving_argumentBindings (call : Call) (inputs : List Binder) (values : List Value) :
    Evolving (argumentBindings call inputs values) := by
  unfold argumentBindings
  split
  · exact evolving_pure _
  · rename_i x hx
    obtain ⟨input, -, rfl⟩ := bindInputs_error hx
    exact evolving_throw nofun

/-- An action that makes a frame which can be started. -/
structure Action.Making (m : Action Frame) : Prop where
  evolving : Evolving m
  new : ∀ {ev frame after}, m ev = some (.ok frame, after) → frame.IsNew after

theorem Action.Making.after {α : Type} {m : Action α} {f : α → Action Frame} (hm : Evolving m)
    (hf : ∀ a, Making (f a)) : Making (m >>= f) := by
  refine ⟨hm.bind fun a => (hf a).evolving, fun {ev frame after} h => ?_⟩
  rcases bind_eq_some h with ⟨a, mid, -, hr⟩ | ⟨x, -, hx⟩
  · exact (hf a).new hr
  · exact nomatch hx

theorem Action.Making.blaming {m : Action Frame} (node : NodeId) (hm : Making m) :
    Making (blaming node m) := by
  refine ⟨hm.evolving.blaming node, fun {ev frame after} h => ?_⟩
  obtain ⟨r, hr, heq⟩ := blaming_eq_some h
  cases r with
  | ok made =>
    obtain rfl : frame = made := by simpa using heq
    exact hm.new hr
  | error x => simp at heq

theorem making_prepareFunction (budget : Nat) (f : FunctionDef) (scope : Scope)
    (bindings : Bindings) : Making (prepareFunction budget f scope bindings) := by
  unfold prepareFunction
  split
  · exact ⟨evolving_failWith nofun, nofun⟩
  · rename_i body _
    refine ⟨(evolving_codeOf ..).bind fun _ => evolving_pure _, fun {ev frame after} h => ?_⟩
    rcases bind_eq_some h with ⟨code, mid, hc, hr⟩ | ⟨x, -, hx⟩
    · simp only [pure_apply, Option.some.injEq, Prod.mk.injEq, Except.ok.injEq] at hr
      obtain ⟨rfl, rfl⟩ := hr
      exact ⟨rfl, rfl, Or.inl ⟨body.id, find?_of_codeOf hc⟩⟩
    · exact nomatch hx

theorem making_prepareStruct (budget : Nat) (s : StructDef) (scope : Scope)
    (bindings : Bindings) : Making (prepareStruct budget s scope bindings) := by
  unfold prepareStruct
  refine ⟨(evolving_blockCode ..).bind fun _ => evolving_freshScope.bind fun _ => evolving_pure _,
    fun {ev frame after} h => ?_⟩
  rcases bind_eq_some h with ⟨code, mid, hc, hr⟩ | ⟨x, -, hx⟩
  · simp only [bind_apply, freshScope_apply, Option.bind_some, continuing_ok, pure_apply,
      Option.some.injEq, Prod.mk.injEq, Except.ok.injEq] at hr
    obtain ⟨rfl, rfl⟩ := hr
    refine ⟨rfl, rfl, ?_⟩
    rcases find?_of_blockCode hc with ⟨id, hid⟩ | rfl
    · exact Or.inl ⟨id, hid⟩
    · exact Or.inr ⟨rfl, s, rfl⟩
  · exact nomatch hx

theorem making_prepare (budget : Nat) (call : Call) (values : List Value) (callee : Value) :
    Making (prepare budget call values callee) := by
  unfold prepare
  split
  · exact .after (evolving_argumentBindings ..) fun _ => (making_prepareFunction ..).blaming _
  · exact .after (evolving_argumentBindings ..) fun _ => (making_prepareStruct ..).blaming _
  · exact ⟨evolving_failAt _ nofun, nofun⟩

/-- Starting a frame fails for want of room, or pushes the frame. -/
theorem startFrame_cases {node : NodeId} {frame : Frame} {ev after : Evaluator}
    {r : Except Exception Unit} (h : blaming node (startFrame frame) ev = some (r, after)) :
    (r = .error ((ev.exception (.stackOverflow ev.options.maxDepth)).atNode node) ∧ after = ev ∧
        ev.options.maxDepth ≤ ev.frames.length) ∨
      (r = .ok () ∧ after = ev.pushFrame frame ∧ ev.frames.length < ev.options.maxDepth) := by
  rw [blaming_apply, startFrame_apply] at h
  split at h
  · rename_i hfull
    simp only [Option.map_some, Option.some.injEq, Prod.mk.injEq] at h
    exact Or.inl ⟨h.1.symm, h.2.symm, hfull⟩
  · rename_i hroom
    simp only [Option.map_some, Option.some.injEq, Prod.mk.injEq] at h
    exact Or.inr ⟨h.1.symm, h.2.symm, Nat.lt_of_not_le hroom⟩

end Stepwise

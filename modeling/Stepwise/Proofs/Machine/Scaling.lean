import Stepwise.Proofs.Machine.Purity
import Stepwise.Proofs.Typing.Repeatable

/-!
# Actions under other limits

`Evaluator.under` puts an evaluator under other options.  The capacity of the stack and the limit on
steps mean nothing to an instruction, and the limit on frames matters only when a frame is started.
So under limits that are no smaller an instruction does the same, unless it has failed for want of
room for a frame (`scales_act`).

Nor does an instruction fail as if a limit on steps had been reached, since no value is an exception
as long as the host supplies none.  All of this is one property of an action, `Scales`, which
sequences inherit from their parts.  It relates an action to the same action with a larger budget,
as the budget for lowering is no limit of the machine.
-/

namespace Stepwise

open Stepwise.Action

/-- Whether a pass has failed since it has reached a limit on steps. -/
def ExceptionKind.isStepLimit : ExceptionKind → Bool
  | .stepLimit _ => true
  | _ => false

/-! ## Other options -/

/-- The evaluator under other options, on a stack of the capacity that they ask for. -/
def Evaluator.under (ev : Evaluator) (o : Options) (capacity : Nat := o.valueStackSize) :
    Evaluator :=
  { ev with options := o, stack := { ev.stack with capacity := capacity } }

section Under

variable (ev : Evaluator) (o : Options) (capacity : Nat)

@[simp] theorem under_options : (ev.under o capacity).options = o := rfl

@[simp] theorem under_frames : (ev.under o capacity).frames = ev.frames := rfl

end Under

/-- Two evaluators have the same options and stacks of the same capacity. -/
structure Evaluator.SameLimits (ev after : Evaluator) : Prop where
  options : after.options = ev.options
  capacity : after.stack.capacity = ev.stack.capacity

namespace Evaluator.SameLimits

variable {ev mid after : Evaluator}

theorem refl (ev : Evaluator) : ev.SameLimits ev := ⟨rfl, rfl⟩

theorem trans (h : ev.SameLimits mid) (h' : mid.SameLimits after) : ev.SameLimits after :=
  ⟨h'.options.trans h.options, h'.capacity.trans h.capacity⟩

end Evaluator.SameLimits

namespace Action

variable {α β : Type} {budget budget' : Nat}

/-! ## Actions that scale -/

/-- What an action has done is what `m'` does under limits that are no smaller, unless there was no
room for a frame.  It leaves the limits alone, and fails for no limit on steps. -/
structure Scaled (m' : Action α) (ev : Evaluator) (r : Except Exception α) (after : Evaluator) :
    Prop where
  limits : ev.SameLimits after
  kind : ∀ x, r = .error x → x.kind.isStepLimit = false
  same : ∀ (o : Options) (capacity : Nat), ev.options.maxDepth ≤ o.maxDepth →
    m' (ev.under o capacity) = some (r, after.under o capacity) ∨
      (ev.options.maxDepth < o.maxDepth ∧
        ∃ x, r = .error x ∧ x.kind = .stackOverflow ev.options.maxDepth)

/-- An action does the same under larger limits, where it may have a larger budget. -/
structure Scales (m m' : Action α) : Prop where
  scaled : ∀ {ev r after}, Evaluator.Clean ev → m ev = some (r, after) → Scaled m' ev r after

/-- An action that has a result in every state, and the same under all options. -/
theorem scales_of_apply {m : Action α} {f : Evaluator → Except Exception α}
    {g : Evaluator → Evaluator} (h : ∀ ev, m ev = some (f ev, g ev))
    (hlimits : ∀ ev : Evaluator, ev.SameLimits (g ev))
    (hf : ∀ ev o capacity, f (ev.under o capacity) = f ev)
    (hg : ∀ ev o capacity, g (ev.under o capacity) = (g ev).under o capacity)
    (hkind : ∀ ev x, f ev = .error x → x.kind.isStepLimit = false) : Scales m m := by
  refine ⟨fun {ev r after} _ hm => ?_⟩
  rw [h] at hm
  obtain ⟨rfl, rfl⟩ := Prod.mk.inj (Option.some.inj hm)
  refine ⟨hlimits ev, hkind ev, fun o capacity _ => .inl ?_⟩
  rw [h, hf, hg]

theorem scales_pure (a : α) : Scales (pure a : Action α) (pure a) :=
  scales_of_apply (fun _ => pure_apply a _) .refl (fun _ _ _ => rfl)
    (fun _ _ _ => rfl) (fun _ _ h => nomatch h)

theorem scales_throw {x : Exception} (hx : x.kind.isStepLimit = false) :
    Scales (throw x : Action α) (throw x) :=
  scales_of_apply (fun _ => throw_apply x _) .refl (fun _ _ _ => rfl)
    (fun _ _ _ => rfl) (fun _ _ h => Except.error.inj h ▸ hx)

theorem scales_failWith {kind : ExceptionKind} (hk : kind.isStepLimit = false) :
    Scales (failWith kind : Action α) (failWith kind) :=
  scales_of_apply (fun ev => failWith_apply kind ev) .refl (fun _ _ _ => rfl)
    (fun _ _ _ => rfl) (fun _ _ h => Except.error.inj h ▸ hk)

theorem scales_failAt (node : NodeId) {kind : ExceptionKind} (hk : kind.isStepLimit = false) :
    Scales (failAt node kind : Action α) (failAt node kind) :=
  scales_of_apply (fun ev => failAt_apply node kind ev) .refl (fun _ _ _ => rfl)
    (fun _ _ _ => rfl) (fun _ _ h => Except.error.inj h ▸ hk)

theorem scales_modify {f : Evaluator → Evaluator} (hlimits : ∀ ev : Evaluator, ev.SameLimits (f ev))
    (hf : ∀ ev o capacity, f (ev.under o capacity) = (f ev).under o capacity) :
    Scales (modify f : Action Unit) (modify f) :=
  scales_of_apply (fun ev => modify_apply f ev) hlimits (fun _ _ _ => rfl) hf
    (fun _ _ h => nomatch h)

/-- The second part may rely on what the first keeps. -/
theorem Scales.bind {m m' : Action α} {f f' : α → Action β} {good : α → Prop}
    (hm : Scales m m') (hkeeps : Preserves Evaluator.Clean good m)
    (hf : ∀ a, good a → Scales (f a) (f' a)) : Scales (m >>= f) (m' >>= f') := by
  refine ⟨fun {ev r after} hev h => ?_⟩
  rcases bind_eq_some h with ⟨a, mid, ha, hr⟩ | ⟨x, hx, rfl⟩
  · obtain ⟨hmid, hgood⟩ := hkeeps.keeps hev ha
    have hfirst := hm.scaled hev ha
    have hsecond := (hf a (hgood a rfl)).scaled hmid hr
    refine ⟨hfirst.limits.trans hsecond.limits, hsecond.kind, fun o capacity ho => ?_⟩
    rcases hfirst.same o capacity ho with hsame | ⟨-, x, hx, -⟩
    · have hmore := hsecond.same o capacity (hfirst.limits.options ▸ ho)
      rw [hfirst.limits.options] at hmore
      rwa [bind_apply, hsame, Option.bind_some, continuing_ok]
    · exact nomatch hx
  · have hfirst := hm.scaled hev hx
    refine ⟨hfirst.limits, fun y hy => hfirst.kind y ?_, fun o capacity ho => ?_⟩
    · rw [Except.error.inj hy]
    · rcases hfirst.same o capacity ho with hsame | ⟨hlt, y, hy, hkind⟩
      · left
        rw [bind_apply, hsame, Option.bind_some, continuing_error]
      · exact .inr ⟨hlt, y, congrArg _ (Except.error.inj hy), hkind⟩

theorem Scales.map {m m' : Action α} {good : α → Prop} (f : α → β) (hm : Scales m m')
    (hkeeps : Preserves Evaluator.Clean good m) : Scales (f <$> m) (f <$> m') := by
  rw [← bind_pure_comp, ← bind_pure_comp]
  exact hm.bind hkeeps fun a _ => scales_pure (f a)

theorem Scales.blaming {m m' : Action α} (node : NodeId) (hm : Scales m m') :
    Scales (blaming node m) (blaming node m') := by
  refine ⟨fun {ev r after} hev h => ?_⟩
  obtain ⟨r', hr, rfl⟩ := blaming_eq_some h
  have hm := hm.scaled hev hr
  refine ⟨hm.limits, fun x hx => ?_, fun o capacity ho => ?_⟩
  · cases r' with
    | ok a => exact nomatch hx
    | error y =>
      obtain rfl := Except.error.inj hx
      exact hm.kind y rfl
  · rcases hm.same o capacity ho with hsame | ⟨hlt, x, rfl, hkind⟩
    · left
      rw [blaming_apply, hsame, Option.map_some]
    · exact .inr ⟨hlt, x.atNode node, rfl, hkind⟩

/-! ## Operands -/

theorem scales_popValue : Scales popValue popValue := by
  refine ⟨fun {ev r after} _ h => ?_⟩
  rcases popValue_cases h with ⟨value, lower, hi, hb, rfl, rfl⟩ | ⟨hle, rfl, rfl⟩
  · exact ⟨⟨rfl, rfl⟩, nofun, fun o capacity _ => .inl (popValue_of_items hi hb)⟩
  · refine ⟨⟨rfl, rfl⟩, fun x hx => ?_, fun o capacity _ => .inl (popValue_of_height_le hle)⟩
    exact Except.error.inj hx ▸ rfl

theorem scales_popOperand : Scales popOperand popOperand := by
  refine scales_popValue.bind clean_stack.popValue fun value hv => ?_
  cases value with
  | exception x => exact nomatch hv.isException
  | _ => exact scales_pure _

theorem scales_popOperands (count : Nat) : Scales (popOperands count) (popOperands count) := by
  induction count with
  | zero => exact scales_pure []
  | succ count ih =>
    refine scales_popOperand.bind clean_stack.popOperand fun first _ => ?_
    exact ih.bind (clean_stack.popOperands count) fun others _ => scales_pure (first :: others)

/-! ## Working on operands -/

theorem scales_ofResult (node : NodeId) {result : Except ExceptionKind α}
    (h : BlamesOperands result) : Scales (ofResult node result) (ofResult node result) := by
  cases result with
  | ok a => exact scales_pure a
  | error kind =>
    have hkind := h.kind kind rfl
    refine scales_failAt node ?_
    cases kind <;> first | rfl | exact nomatch hkind

theorem scales_bindAll (aliases : List String) (value : Value) :
    Scales (bindAll aliases value) (bindAll aliases value) := by
  refine scales_modify (fun ev => ?_) (fun ev o capacity => ?_)
  · rw [Evaluator.bindAll_eq]
    exact ⟨rfl, rfl⟩
  · rw [Evaluator.bindAll_eq, Evaluator.bindAll_eq]
    rfl

theorem scales_advance (distance : Nat) :
    Scales (modify (·.advance distance) : Action Unit) (modify (·.advance distance)) := by
  refine scales_modify (fun ev => ?_) (fun ev o capacity => ?_)
  · rw [Evaluator.advance_eq]
    exact ⟨rfl, rfl⟩
  · rw [Evaluator.advance_eq, Evaluator.advance_eq]
    rfl

theorem scales_push (value : Value) :
    Scales (modify fun ev => { ev with stack := ev.stack.push value } : Action Unit)
      (modify fun ev => { ev with stack := ev.stack.push value }) :=
  scales_modify (fun _ => ⟨rfl, rfl⟩) (fun _ _ _ => rfl)

theorem scales_freshScope : Scales freshScope freshScope :=
  scales_of_apply freshScope_apply (fun _ => ⟨rfl, rfl⟩) (fun _ _ _ => rfl)
    (fun _ _ _ => rfl) (fun _ _ h => nomatch h)

theorem scales_executeDefinition (aliases : List String) (close : Scope → Value) :
    Scales (executeDefinition aliases close) (executeDefinition aliases close) := by
  refine scales_of_apply (executeDefinition_apply aliases close) (fun ev => ?_) (fun _ _ _ => rfl)
    (fun ev o capacity => ?_) (fun _ _ h => nomatch h)
  · rw [Evaluator.bindAll_eq]
    exact ⟨rfl, rfl⟩
  · rw [Evaluator.bindAll_eq, Evaluator.bindAll_eq]
    rfl

theorem scales_accessMember (id : NodeId) (name : String) (subject : Value) :
    Scales (accessMember id name subject) (accessMember id name subject) := by
  unfold accessMember
  split
  · split
    · exact scales_pure _
    · exact scales_failAt id rfl
  · exact scales_failAt id rfl

theorem operate_reference (id : NodeId) (name : Token) (values : List Value) (ev : Evaluator) :
    Expr.operate (.reference id name) values ev = some ((ev.lookup name.text).elim
      (.error ((ev.exception (.unknownName name.text)).atNode id)) fun value => .ok (some value),
      ev) := by
  simp only [Expr.operate, bind_apply, get_apply, Option.bind_some, continuing_ok]
  cases ev.lookup name.text <;> rfl

theorem scales_reference (id : NodeId) (name : Token) (values : List Value) :
    Scales (Expr.operate (.reference id name) values)
      (Expr.operate (.reference id name) values) := by
  refine scales_of_apply (operate_reference id name values) .refl (fun _ _ _ => rfl)
    (fun _ _ _ => rfl) fun ev x hx => ?_
  cases hl : ev.lookup name.text with
  | some value => simp [hl] at hx
  | none =>
    simp only [hl, Option.elim_none, Except.error.injEq] at hx
    exact hx ▸ rfl

/-- Working on operands knows no limits. -/
theorem scales_operate (e : Expr) {values : List Value} (hv : ∀ value ∈ values, value.Clean) :
    Scales (e.operate values) (e.operate values) := by
  cases e with
  | reference id name => exact scales_reference id name values
  | access id subject dot name =>
    rcases values with _ | ⟨value, _ | ⟨other, rest⟩⟩
    · exact scales_pure none
    · exact (scales_accessMember id name.text value).map _
        (clean_accessMember id name.text (hv value (by simp)))
    · exact scales_pure none
  | binary id left mark op right =>
    rcases values with _ | ⟨l, _ | ⟨r, _ | ⟨other, rest⟩⟩⟩
    · exact scales_pure none
    · exact scales_pure none
    · exact (scales_ofResult id (.binary op l r)).map _
        (clean_ofResult id (.binary op l r))
    · exact scales_pure none
  | unary id mark op operand =>
    rcases values with _ | ⟨value, _ | ⟨other, rest⟩⟩
    · exact scales_pure none
    · exact (scales_ofResult id (.unary op value)).map _
        (clean_ofResult id (.unary op value))
    · exact scales_pure none
  | function f =>
    exact (scales_executeDefinition f.aliases _).map _
      (clean_executeDefinition f.aliases fun _ => .function f)
  | struct s =>
    exact (scales_executeDefinition s.aliases _).map _
      (clean_executeDefinition s.aliases fun _ => .structDef s)
  | block id statements =>
    simp only [Expr.operate]
    split
    · exact scales_pure _
    · exact scales_failAt id rfl
  | bind b =>
    rcases values with _ | ⟨value, _ | ⟨other, rest⟩⟩
    · exact scales_pure none
    · exact (scales_bindAll b.aliases value).bind (clean_bindAll b.aliases (hv value (by simp)))
        fun _ _ => scales_pure (some value)
    · exact scales_pure none
  | delete id table mark query => exact scales_failAt id rfl
  | insert id table mark cells => exact scales_failAt id rfl
  | list id opening items closing => exact scales_pure (some (Value.list values))
  | boolean id token value => exact scales_pure (some (Value.boolean value))
  | number id token amount unit => exact scales_pure (some (Value.measure amount unit))
  | text id token tag =>
    exact scales_pure (some (Value.text ⟨unquoted token.text, tag.map Language.code⟩))
  | call c => exact scales_pure none
  | conditional id condition question yes no => exact scales_pure none
  | unparsable id tokens => exact scales_pure none

/-! ## Calls -/

section Calls

variable (hle : budget ≤ budget')

include hle

/-- A larger budget lowers to the same code. -/
theorem scales_codeOf (e : Expr) : Scales (codeOf budget e) (codeOf budget' e) := by
  refine ⟨fun {ev r after} _ h => ?_⟩
  obtain ⟨code, rfl, ⟨hfound, rfl⟩ | ⟨memo, hnone, hlower, rfl⟩⟩ := codeOf_cases h
  · refine ⟨⟨rfl, rfl⟩, nofun, fun o capacity _ => .inl ?_⟩
    have hunder : (after.under o capacity).lowered.find? e.id = some code := hfound
    unfold codeOf
    rw [bind_apply, get_apply, Option.bind_some, continuing_ok, hunder]
    rfl
  · refine ⟨⟨rfl, rfl⟩, nofun, fun o capacity _ => .inl ?_⟩
    have hunder : (ev.under o capacity).lowered.find? e.id = none := hnone
    have hmore : e.lower budget' (ev.under o capacity).context (ev.under o capacity).memo =
        some (code, memo) :=
      (settles_lower hle e).same hlower
    unfold codeOf
    rw [bind_apply, get_apply, Option.bind_some, continuing_ok, hunder]
    simp only [hmore]
    rfl

theorem scales_blockCode (s : StructDef) : Scales (blockCode budget s) (blockCode budget' s) := by
  unfold blockCode
  split
  · exact scales_pure []
  · exact scales_pure []
  · exact scales_codeOf hle _

theorem scales_prepareFunction (f : FunctionDef) (scope : Scope) (bindings : Bindings) :
    Scales (prepareFunction budget f scope bindings)
      (prepareFunction budget' f scope bindings) := by
  unfold prepareFunction
  split
  · exact scales_failWith rfl
  · exact (scales_codeOf hle _).bind (clean_codeOf budget _) fun _ _ => scales_pure _

theorem scales_prepareStruct (s : StructDef) (scope : Scope) (bindings : Bindings) :
    Scales (prepareStruct budget s scope bindings) (prepareStruct budget' s scope bindings) := by
  refine (scales_blockCode hle s).bind (clean_blockCode budget s) fun code _ => ?_
  exact scales_freshScope.bind clean_freshScope fun id _ => scales_pure _

theorem scales_prepare (call : Call) (values : List Value) (callee : Value) :
    Scales (prepare budget call values callee) (prepare budget' call values callee) := by
  have arguments (inputs : List Binder) :
      Scales (argumentBindings call inputs values) (argumentBindings call inputs values) ∧
        Preserves Evaluator.Clean (fun _ => True) (argumentBindings call inputs values) := by
    unfold argumentBindings
    split
    · exact ⟨scales_pure _, preserves_pure trivial⟩
    · rename_i x hx
      obtain ⟨input, -, rfl⟩ := bindInputs_error hx
      exact ⟨scales_throw rfl, preserves_throw _⟩
  cases callee with
  | function f scope =>
    exact (arguments f.inputs).1.bind (arguments f.inputs).2 fun bindings _ =>
      (scales_prepareFunction hle ..).blaming call.id
  | structDef s scope =>
    exact (arguments s.inputs).1.bind (arguments s.inputs).2 fun bindings _ =>
      (scales_prepareStruct hle ..).blaming call.id
  | _ => exact scales_failAt call.id rfl

theorem scales_prepareCall (call : Call) :
    Scales (prepareCall budget call) (prepareCall budget' call) := by
  refine scales_popOperand.bind clean_stack.popOperand fun callee _ => ?_
  split
  · exact scales_failAt call.id rfl
  · exact (scales_popOperands _).bind (clean_stack.popOperands _) fun values _ =>
      scales_prepare hle call values.reverse callee

omit hle

/-- Only here a limit is looked at. -/
theorem scales_startFrame (frame : Frame) : Scales (startFrame frame) (startFrame frame) := by
  refine ⟨fun {ev r after} _ h => ?_⟩
  rw [startFrame_apply] at h
  split at h <;> obtain ⟨rfl, rfl⟩ := Prod.mk.inj (Option.some.inj h)
  · rename_i hfull
    refine ⟨⟨rfl, rfl⟩, fun x hx => Except.error.inj hx ▸ rfl, fun o capacity ho => ?_⟩
    by_cases hlt : ev.options.maxDepth < o.maxDepth
    · exact .inr ⟨hlt, _, rfl, rfl⟩
    · have hdepth : o.maxDepth = ev.options.maxDepth := Nat.le_antisymm (Nat.not_lt.1 hlt) ho
      left
      rw [startFrame_apply, under_options, under_frames, hdepth, if_pos hfull]
      rfl
  · rename_i hroom
    refine ⟨⟨rfl, rfl⟩, nofun, fun o capacity ho => .inl ?_⟩
    have hmore : ¬ o.maxDepth ≤ ev.frames.length := by omega
    rw [startFrame_apply, under_options, under_frames, if_neg hmore]
    rfl

end Calls

/-! ## Instructions -/

/-- Only calls lower anything. -/
theorem scales_execute {e : Expr} (he : e.isCall = false) :
    Scales (e.execute budget) (e.execute budget') := by
  rw [execute_eq budget he, execute_eq budget' he]
  exact (scales_popOperands e.demand).bind (clean_stack.popOperands e.demand) fun values hv =>
    scales_operate e (by simpa using hv.2)

section Instructions

variable (hle : budget ≤ budget')

include hle

theorem scales_executeCall (call : Call) :
    Scales (executeCall budget call) (executeCall budget' call) := by
  rw [executeCall_eq, executeCall_eq]
  exact (scales_prepareCall hle call).bind (clean_prepareCall budget call) fun frame _ =>
    (scales_startFrame frame).blaming call.id

/-- Instructions do the same under larger limits, unless there was no room for a frame. -/
theorem scales_act (i : Instruction) : Scales (i.act budget) (i.act budget') := by
  cases i with
  | start e => exact scales_pure ()
  | jump distance node => exact scales_advance distance
  | halt node reason =>
    refine scales_failAt node ?_
    cases reason <;> rfl
  | jumpIfFalse distance node =>
    refine (scales_popValue.blaming node).bind (clean_stack.popValue.blaming node)
      fun value hv => ?_
    cases value with
    | boolean b =>
      cases b with
      | true => exact scales_pure ()
      | false => exact scales_advance _
    | exception x => exact nomatch hv.isException
    | _ => exact scales_failAt node rfl
  | finish e =>
    cases he : e.isCall with
    | true =>
      cases e with
      | call call =>
        rw [act_call, act_call]
        exact scales_executeCall hle call
      | _ => exact nomatch he
    | false =>
      refine (scales_execute he).bind (clean_execute budget he) fun answer ha => ?_
      match answer with
      | none => exact scales_pure ()
      | some value =>
        have hv : value.isException = false := (ha value rfl).isException
        have hpush := scales_push value
        cases value <;> first | exact hpush | exact nomatch hv

end Instructions

end Action

end Stepwise

import Stepwise.Proofs.Call.Order
import Stepwise.Proofs.Machine.Calling
import Stepwise.Proofs.Machine.Consumption
import Stepwise.Proofs.Machine.Purity
import Stepwise.Proofs.Sample

/-!
# Failures name the definition that was active

An exception carries the definition whose frame was active when it was raised.  The actions that an
instruction is made of attach the innermost definition to their failures (`Attributing`), and so
does a frame that has no result.  What the frames run is known in every state of a pass: the frame
of the program is outermost, and every other one runs a definition (`definitions`).

One failure has no definition attached.  If the inputs of a callee are not in order, one of them may
be left without the value that the call laid out for it, and what binding raises then is thrown as
it is (`Deprives`).  `failures_attributed` puts the two together.
-/

namespace Stepwise

open Stepwise.Action

/-! ## Active definitions -/

namespace Evaluator

/-- The definitions that the active frames run, innermost first.  The frame of the program runs
none. -/
def definitions (ev : Evaluator) : List (Option NodeId) :=
  ev.frames.map Frame.definition?

variable {ev after : Evaluator}

theorem currentDefinition?_eq (ev : Evaluator) :
    ev.currentDefinition? = ev.definitions.findSome? id := by
  simp [currentDefinition?, definitions, List.findSome?_map]

theorem currentDefinition?_congr (h : after.definitions = ev.definitions) :
    after.currentDefinition? = ev.currentDefinition? := by
  rw [currentDefinition?_eq, currentDefinition?_eq, h]

/-- With the frame of the program outermost, the innermost definition is that of the innermost
frame. -/
theorem currentDefinition?_of_definitions {ids : List NodeId}
    (h : ev.definitions = ids.map some ++ [none]) : ev.currentDefinition? = ids.head? := by
  rw [currentDefinition?_eq, h]
  cases ids <;> rfl

theorem Evolves.definitions (h : ev.Evolves after) : after.definitions = ev.definitions := by
  obtain ⟨bindings, hf⟩ := h.frames
  unfold Evaluator.definitions
  rw [hf]
  cases ev.frames <;> rfl

theorem definitions_fetch {frame : Frame} {outer : List Frame} (hf : ev.frames = frame :: outer)
    (i : Instruction) : (ev.fetch frame outer i).definitions = ev.definitions := by
  unfold definitions
  rw [hf]
  rfl

theorem definitions_advance (ev : Evaluator) (distance : Nat) :
    (ev.advance distance).definitions = ev.definitions := by
  rw [advance_eq]
  unfold definitions
  cases ev.frames <;> rfl

end Evaluator

/-! ## Actions -/

namespace Action

variable {α β : Type}

/-- An action that leaves the active definitions alone and attaches the innermost of them to its
failures. -/
structure Attributing (m : Action α) : Prop where
  keeps : ∀ {ev a after}, m ev = some (.ok a, after) → after.definitions = ev.definitions
  frame : ∀ {ev x after}, m ev = some (.error x, after) → x.frame = ev.currentDefinition?

theorem attributing_pure (a : α) : Attributing (pure a : Action α) := by
  refine ⟨fun {ev b after} h => ?_, nofun⟩
  obtain ⟨-, rfl⟩ := Prod.mk.inj (Option.some.inj h)
  rfl

theorem attributing_failWith (kind : ExceptionKind) :
    Attributing (failWith kind : Action α) := by
  refine ⟨nofun, fun {ev x after} h => ?_⟩
  obtain ⟨hx, -⟩ := Prod.mk.inj (Option.some.inj h)
  exact Except.error.inj hx ▸ rfl

theorem attributing_failAt (node : NodeId) (kind : ExceptionKind) :
    Attributing (failAt node kind : Action α) := by
  refine ⟨nofun, fun {ev x after} h => ?_⟩
  obtain ⟨hx, -⟩ := Prod.mk.inj (Option.some.inj h)
  exact Except.error.inj hx ▸ rfl

theorem attributing_ofResult (node : NodeId) (result : Except ExceptionKind α) :
    Attributing (ofResult node result) := by
  cases result with
  | ok a => exact attributing_pure a
  | error kind => exact attributing_failAt node kind

theorem Attributing.bind {m : Action α} {f : α → Action β} (hm : Attributing m)
    (hf : ∀ a, Attributing (f a)) : Attributing (m >>= f) := by
  refine ⟨fun {ev b after} h => ?_, fun {ev x after} h => ?_⟩
  · rcases bind_eq_some h with ⟨a, mid, ha, hb⟩ | ⟨x, -, hx⟩
    · exact ((hf a).keeps hb).trans (hm.keeps ha)
    · exact nomatch hx
  · rcases bind_eq_some h with ⟨a, mid, ha, hb⟩ | ⟨y, hy, hx⟩
    · exact ((hf a).frame hb).trans (Evaluator.currentDefinition?_congr (hm.keeps ha))
    · exact Except.error.inj hx ▸ hm.frame hy

theorem Attributing.map {m : Action α} (f : α → β) (hm : Attributing m) :
    Attributing (f <$> m) := by
  rw [← bind_pure_comp]
  exact hm.bind fun _ => attributing_pure _

/-- Naming the node of a failure keeps its definition. -/
theorem Attributing.blaming {m : Action α} (node : NodeId) (hm : Attributing m) :
    Attributing (blaming node m) := by
  refine ⟨fun {ev a after} h => ?_, fun {ev x after} h => ?_⟩ <;>
    obtain ⟨r, hr, heq⟩ := blaming_eq_some h
  · cases r with
    | ok => exact hm.keeps hr
    | error => exact nomatch heq
  · cases r with
    | ok => exact nomatch heq
    | error y => exact Except.error.inj heq ▸ hm.frame (x := y) hr

/-- What only changes memo, code and bindings and never fails has nothing to attach. -/
theorem attributing_of_evolving {m : Action α} (hm : Evolving m)
    (hok : ∀ ev x after, m ev ≠ some (.error x, after)) : Attributing m :=
  ⟨fun h => (hm.evolves h).definitions, fun h => (hok _ _ _ h).elim⟩

theorem attributing_codeOf (budget : Nat) (e : Expr) : Attributing (codeOf budget e) := by
  refine attributing_of_evolving (evolving_codeOf budget e) fun ev x after h => ?_
  obtain ⟨code, hr, -⟩ := codeOf_cases h
  exact nomatch hr

theorem attributing_blockCode (budget : Nat) (s : StructDef) :
    Attributing (blockCode budget s) := by
  rcases blockCode_eq budget s with h | ⟨block, h⟩ <;> rw [h]
  · exact attributing_pure _
  · exact attributing_codeOf ..

theorem attributing_freshScope : Attributing freshScope :=
  attributing_of_evolving evolving_freshScope fun _ _ _ => nofun

theorem attributing_bindAll (aliases : List String) (value : Value) :
    Attributing (bindAll aliases value) :=
  attributing_of_evolving (evolving_bindAll aliases value) fun _ _ _ => nofun

theorem attributing_get : Attributing (get : Action Evaluator) :=
  attributing_of_evolving evolving_get fun _ _ _ => nofun

end Action

theorem attributing_executeDefinition (aliases : List String) (close : Scope → Value) :
    Attributing (executeDefinition aliases close) := by
  refine attributing_of_evolving (evolving_executeDefinition aliases close) fun ev x after h => ?_
  rw [executeDefinition_apply] at h
  exact nomatch h

theorem attributing_accessMember (id : NodeId) (name : String) (subject : Value) :
    Attributing (accessMember id name subject) := by
  unfold accessMember
  split
  · split
    · exact attributing_pure _
    · exact attributing_failAt ..
  · exact attributing_failAt ..

/-- Whatever fails about the operands of an expression fails in the innermost definition. -/
theorem attributing_operate (e : Expr) (values : List Value) :
    Attributing (e.operate values) := by
  unfold Expr.operate
  split
  case h_7 =>
    refine attributing_get.bind fun ev => ?_
    split
    · exact attributing_pure _
    · exact attributing_failAt ..
  case h_13 =>
    split
    · exact attributing_pure _
    · exact attributing_failAt ..
  case h_14 => exact (attributing_bindAll ..).bind fun _ => attributing_pure _
  all_goals first
    | exact attributing_pure _
    | exact attributing_failAt ..
    | exact (attributing_accessMember ..).map _
    | exact (attributing_ofResult ..).map _
    | exact (attributing_executeDefinition ..).map _

theorem attributing_prepareFunction (budget : Nat) (f : FunctionDef) (scope : Scope)
    (bindings : Bindings) : Attributing (prepareFunction budget f scope bindings) := by
  unfold prepareFunction
  split
  · exact attributing_failWith _
  · exact (attributing_codeOf ..).bind fun _ => attributing_pure _

theorem attributing_prepareStruct (budget : Nat) (s : StructDef) (scope : Scope)
    (bindings : Bindings) : Attributing (prepareStruct budget s scope bindings) :=
  (attributing_blockCode ..).bind fun _ => attributing_freshScope.bind fun _ => attributing_pure _

/-- Starting a frame fails in the definition that would have been left. -/
theorem frame_of_startFrame {node : NodeId} {frame : Frame} {ev after : Evaluator} {x : Exception}
    (h : blaming node (startFrame frame) ev = some (.error x, after)) :
    x.frame = ev.currentDefinition? := by
  rcases startFrame_cases h with ⟨hx, -, -⟩ | ⟨hx, -, -⟩
  · exact Except.error.inj hx ▸ rfl
  · exact nomatch hx

/-! ## Calls -/

namespace Evaluator

variable {ev after : Evaluator} {call : Call} {inputs : List Binder} {x : Exception}

/-- The callee of a call and the values laid out for its inputs are on top of the stack. -/
def LaysOut (ev : Evaluator) (call : Call) (inputs : List Binder) : Prop :=
  ∃ callee values lower, ev.stack.items = callee :: (values ++ lower) ∧
    callee.declaredInputs? = some inputs ∧
    values.length = valueCount (plan inputs call.inputs) ∧ ev.base ≤ lower.length

/-- What binding raises for an input that is left without a value, at the node of the call. -/
def deprivation (call : Call) (input : Binder) : Exception :=
  { kind := .missingValue input.primaryName, node := some call.id }

/-- Operands that are clean can only run out. -/
theorem frame_of_popped {count : Nat} (hev : ev.Clean) (h : Popped ev count (.error x) after) :
    x.frame = ev.currentDefinition? := by
  cases h with
  | exception values lower x hi =>
    have hx : (Value.exception x).isException = false := (hev.stack _ (by simp [hi])).isException
    exact nomatch hx
  | starved => rfl

theorem frame_of_popOperand (hev : ev.Clean) (h : popOperand ev = some (.error x, after)) :
    x.frame = ev.currentDefinition? := by
  have hpop : popOperands 1 ev = some (.error x, after) := by
    simp [popOperands, bind_apply, h]
  exact frame_of_popped hev (popOperands_cases hpop)

/-- Executing anything but a call fails in the innermost definition. -/
theorem frame_of_executed {budget : Nat} {e : Expr} (he : e.isCall = false) (hev : ev.Clean)
    (h : (Instruction.finish e).act budget ev = some (.error x, after)) :
    x.frame = ev.currentDefinition? := by
  rw [Instruction.act, execute_eq budget he, bind_assoc] at h
  rcases bind_eq_some h with ⟨values, mid, hpop, h⟩ | ⟨y, hpop, hx⟩
  · obtain ⟨hmid, hvalues⟩ := (clean_stack.popOperands e.demand).keeps hev hpop
    have hsame : mid.currentDefinition? = ev.currentDefinition? := by
      cases popOperands_cases hpop
      rfl
    rcases bind_eq_some h with ⟨answer, last, hop, h⟩ | ⟨y, hop, hx⟩
    · -- A clean answer is no exception, and leaving it on the stack does not fail.
      have hanswer := ((clean_operate e (by simpa using (hvalues values rfl).2)).keeps hmid hop).2
      cases answer with
      | none => cases h
      | some value =>
        cases value with
        | exception y => cases (hanswer _ rfl _ rfl).isException
        | _ => cases h
    · exact Except.error.inj hx ▸ ((attributing_operate ..).frame hop).trans hsame
  · exact Except.error.inj hx ▸ frame_of_popped hev (popOperands_cases hpop)

/-- What declares inputs is a function or a structure. -/
theorem callable_of_declaredInputs {callee : Value} (h : callee.declaredInputs? = some inputs) :
    (∃ f scope, callee = .function f scope ∧ f.inputs = inputs) ∨
      ∃ s scope, callee = .structDef s scope ∧ s.inputs = inputs := by
  cases callee with
  | function f scope => exact .inl ⟨f, scope, rfl, Option.some.inj h⟩
  | structDef s scope => exact .inr ⟨s, scope, rfl, Option.some.inj h⟩
  | _ => exact nomatch h

/-- Making the frame of a call fails in the innermost definition, unless binding fails. -/
theorem cause_of_prepare {budget : Nat} {values : List Value} {callee : Value}
    (hc : callee.declaredInputs? = some inputs)
    (h : prepare budget call values callee ev = some (.error x, after)) :
    x.frame = ev.currentDefinition? ∨
      ∃ y, bindInputs inputs values = .error y ∧ x = y.atNode call.id := by
  have cause {m : Bindings → Action Frame} (hm : ∀ bindings, Attributing (m bindings))
      (h : (argumentBindings call inputs values >>= m) ev = some (.error x, after)) :
      x.frame = ev.currentDefinition? ∨
        ∃ y, bindInputs inputs values = .error y ∧ x = y.atNode call.id := by
    unfold argumentBindings at h
    cases hb : bindInputs inputs values with
    | ok bindings =>
      rw [hb] at h
      exact .inl (((attributing_pure bindings).bind hm).frame h)
    | error y =>
      rw [hb] at h
      obtain ⟨hx, -⟩ := Prod.mk.inj (Option.some.inj h)
      exact .inr ⟨y, rfl, (Except.error.inj hx).symm⟩
  rcases callable_of_declaredInputs hc with ⟨f, scope, rfl, rfl⟩ | ⟨s, scope, rfl, rfl⟩
  · exact cause (fun _ => (attributing_prepareFunction ..).blaming _) h
  · exact cause (fun _ => (attributing_prepareStruct ..).blaming _) h

/-- Where binding fails, no frame is made. -/
theorem prepare_of_unbound {budget : Nat} {values : List Value} {callee : Value} {y : Exception}
    (hc : callee.declaredInputs? = some inputs) (hb : bindInputs inputs values = .error y) :
    prepare budget call values callee ev = some (.error (y.atNode call.id), ev) := by
  have harguments : argumentBindings call inputs values ev =
      some (.error (y.atNode call.id), ev) := by
    simp only [argumentBindings, hb]
    rfl
  rcases callable_of_declaredInputs hc with ⟨f, scope, rfl, rfl⟩ | ⟨s, scope, rfl, rfl⟩ <;>
    rw [prepare, bind_apply, harguments] <;> rfl

/-- A call fails in the innermost definition, unless an input of its callee is left without its
value. -/
theorem cause_of_executeCall {budget : Nat} (hev : ev.Clean)
    (h : executeCall budget call ev = some (.error x, after)) :
    x.frame = ev.currentDefinition? ∨ ∃ inputs input, ev.LaysOut call inputs ∧
      Deprived inputs input ∧ x = deprivation call input := by
  rw [executeCall_eq] at h
  rcases bind_eq_some h with ⟨frame, mid, hp, h⟩ | ⟨y, hp, hx⟩
  · rcases prepareCall_cases hp with ⟨_, _, _, _, lower, -, -, -, -, -, hm, -⟩ | ⟨y, hr, -⟩
    · exact .inl ((frame_of_startFrame h).trans (currentDefinition?_congr hm.definitions))
    · exact nomatch hr
  obtain rfl := Except.error.inj hx
  unfold prepareCall at hp
  rcases bind_eq_some hp with ⟨callee, mid, hpop, hp⟩ | ⟨y, hpop, hx⟩
  · obtain ⟨rest, hi, hb, hv, rfl⟩ := popOperand_eq_ok hpop
    cases hc : callee.declaredInputs? with
    | none =>
      simp only [hc] at hp
      have hframe : x.frame = (ev.withItems rest).currentDefinition? :=
        (attributing_failAt ..).frame hp
      exact .inl hframe
    | some inputs =>
      simp only [hc] at hp
      rcases bind_eq_some hp with ⟨values, last, hpops, hp⟩ | ⟨y, hpops, hx⟩
      · have hpopped : Popped ev _ (.ok (callee :: values)) last :=
          (popOperands_cases hpops).cons hi hb hv
        cases hpopped with
        | taken _ lower hi hn hb =>
          have hcount : values.length = valueCount (plan inputs call.inputs) := Nat.succ.inj hn
          rcases cause_of_prepare hc hp with hframe | ⟨y, hbind, rfl⟩
          · exact .inl hframe
          · obtain ⟨input, hinput, rfl⟩ :=
              (bindInputs_eq_error_iff (by rw [List.length_reverse, hcount])).1 hbind
            have hlaid : ev.LaysOut call inputs :=
              ⟨callee, values, lower, hi, hc, hcount, hb.resolve_left (Nat.succ_ne_zero _)⟩
            exact .inr ⟨inputs, input, hlaid, hinput, rfl⟩
      · have hpopped : Popped ev _ (.error y) after := (popOperands_cases hpops).cons hi hb hv
        exact .inl (Except.error.inj hx ▸ frame_of_popped hev hpopped)
  · exact .inl (Except.error.inj hx ▸ frame_of_popOperand hev hpop)

/-- A call whose callee deprives an input of its value fails, whatever the budget is. -/
theorem act_of_deprived (budget : Nat) {input : Binder} (hev : ev.Clean)
    (hl : ev.LaysOut call inputs) (hd : Deprived inputs input) :
    ∃ after, (Instruction.finish (.call call)).act budget ev =
      some (.error (deprivation call input), after) := by
  obtain ⟨callee, values, lower, hi, hc, hn, hb⟩ := hl
  have hvalues : ∀ value ∈ values, value.isException = false := fun value hmem =>
    (hev.stack value (by simp [hi, hmem])).isException
  have hcallee : popOperand ev = some (.ok callee, ev.withItems (values ++ lower)) :=
    popOperand_of_items hi (by simp only [List.length_append]; omega)
      (hev.stack callee (by simp [hi])).isException
  have hpops : popOperands (valueCount (plan inputs call.inputs)) (ev.withItems (values ++ lower)) =
      some (.ok values, ev.withItems lower) := by
    have hitems : (ev.withItems (values ++ lower)).stack.items = values ++ lower := rfl
    exact hn ▸ popOperands_apply hitems hb hvalues
  have hbind : bindInputs inputs values.reverse =
      .error { kind := .missingValue input.primaryName } :=
    (bindInputs_eq_error_iff (by simpa using hn)).2 ⟨input, hd, rfl⟩
  have hprepared : prepareCall budget call ev =
      some (.error (deprivation call input), ev.withItems lower) := by
    rw [prepareCall, bind_apply, hcallee, Option.bind_some, continuing_ok]
    simp only [hc]
    rw [bind_apply, hpops, Option.bind_some, continuing_ok, prepare_of_unbound hc hbind]
    rfl
  refine ⟨ev.withItems lower, ?_⟩
  rw [act_call, executeCall_eq, bind_apply, hprepared]
  rfl

/-- Of all instructions, only a call can fail without the definition that is active. -/
theorem cause_of_act {budget : Nat} {i : Instruction} (hev : ev.Clean)
    (h : i.act budget ev = some (.error x, after)) :
    x.frame = ev.currentDefinition? ∨ ∃ call inputs input, i = .finish (.call call) ∧
      ev.LaysOut call inputs ∧ Deprived inputs input ∧ x = deprivation call input := by
  cases i with
  | start | jump => exact nomatch h
  | halt node reason => exact .inl ((attributing_failAt ..).frame h)
  | jumpIfFalse distance node =>
    refine .inl ?_
    rcases bind_eq_some h with ⟨value, mid, hpop, h⟩ | ⟨y, hpop, hx⟩
    · obtain ⟨r, hpopped, hr⟩ := blaming_eq_some hpop
      rcases popValue_cases hpopped with ⟨top, lower, hi, -, rfl, rfl⟩ | ⟨-, rfl, -⟩
      · obtain rfl := Except.ok.inj hr
        have hvalue : value.isException = false := (hev.stack value (by simp [hi])).isException
        cases value with
        | boolean b => cases b <;> exact nomatch h
        | exception => exact nomatch hvalue
        | _ =>
          have hframe : x.frame = (ev.withItems lower).currentDefinition? :=
            (attributing_failAt ..).frame h
          exact hframe
      · exact nomatch hr
    · obtain rfl := Except.error.inj hx
      obtain ⟨r, hpopped, hr⟩ := blaming_eq_some hpop
      rcases popValue_cases hpopped with ⟨top, lower, -, -, rfl, -⟩ | ⟨-, rfl, -⟩
      · exact nomatch hr
      · exact Except.error.inj hr ▸ rfl
  | finish e =>
    cases he : e.isCall with
    | false => exact .inl (frame_of_executed he hev h)
    | true =>
      cases e with
      | call call =>
        rw [act_call] at h
        rcases cause_of_executeCall hev h with hframe | ⟨inputs, input, hcause⟩
        · exact .inl hframe
        · exact .inr ⟨call, inputs, input, rfl, hcause⟩
      | _ => exact nomatch he

/-! ## Passes -/

/-- The next instruction is a call whose callee deprives an input of the value laid out for it. -/
structure Deprives (ev : Evaluator) (call : Call) (inputs : List Binder) (input : Binder) :
    Prop where
  next : ∃ frame outer, ev.frames = frame :: outer ∧ frame.current? = some (.finish (.call call))
  laidOut : ev.LaysOut call inputs
  deprived : Deprived inputs input

theorem laysOut_fetch {frame : Frame} {outer : List Frame} (hf : ev.frames = frame :: outer)
    (i : Instruction) : (ev.fetch frame outer i).LaysOut call inputs ↔ ev.LaysOut call inputs := by
  unfold LaysOut
  rw [base_of_frames hf]
  rfl

/-- What a call whose callee deprives an input raises is not attached to any definition. -/
theorem Deprives.step {input : Binder} (h : ev.Deprives call inputs input) (hev : ev.Clean)
    (ho : ev.outcome = none) (hl : ev.reachedLimit? = none) (budget : Nat) :
    ∃ after, ev.step budget = some (.ended (.halted (deprivation call input)), after) := by
  obtain ⟨⟨frame, outer, hf, hc⟩, hlaid, hdeprived⟩ := h
  obtain ⟨mid, ha⟩ := act_of_deprived budget (hev.fetch hf (.finish (.call call)))
    ((laysOut_fetch hf _).2 hlaid) hdeprived
  refine ⟨{ mid with outcome := some (.halted (deprivation call input)) }, ?_⟩
  rw [step_eq budget ho hl hf, hc]
  simp only [ha, Option.map_some]
  rfl

/-- What the failures of clean states are attached to. -/
theorem Raises.cause {mid : Evaluator} (h : ev.Raises x mid) (hev : ev.Clean) {ids : List NodeId}
    (hids : ev.definitions = ids.map some ++ [none]) :
    x.frame = ids.head? ∨ ∃ call inputs input, ev.Deprives call inputs input ∧
      x = deprivation call input := by
  have hcurrent := currentDefinition?_of_definitions hids
  cases h with
  | @act budget frame outer i _ _ hf hc ha =>
    rcases cause_of_act (hev.fetch hf i) ha with hframe | ⟨call, inputs, input, rfl, hlaid, hd, hx⟩
    · exact .inl (hframe.trans
        ((currentDefinition?_congr (definitions_fetch hf i)).trans hcurrent))
    · exact .inr ⟨call, inputs, input,
        ⟨⟨frame, outer, hf, hc⟩, (laysOut_fetch hf _).1 hlaid, hd⟩, hx⟩
  | result hf hd hr => exact nomatch (hev.result? hf hr).isException
  | @noValue frame outer hf hd hr =>
    refine .inl ?_
    unfold definitions at hids
    rw [hf, List.map_cons] at hids
    cases ids with
    | nil => exact (List.cons.inj hids).1
    | cons id rest => exact (List.cons.inj hids).1
  | idle hf => simp [definitions, hf] at hids
  | limit => exact .inl hcurrent

/-- The frame of the program is outermost, and every other frame runs a definition. -/
def Rooted (ev : Evaluator) : Prop :=
  ∃ ids : List NodeId, ev.definitions = ids.map some ++ [none]

/-- Instructions leave the active definitions alone or put one on top of them. -/
theorem definitions_of_acts {i : Instruction} {r : Except Exception Unit} (h : Acts ev i r after) :
    after.definitions = ev.definitions ∨ ∃ id, after.definitions = some id :: ev.definitions := by
  cases h with
  | starts | holds => exact .inl rfl
  | jumps distance => exact .inl (definitions_advance ev distance)
  | skips distance => exact .inl (definitions_advance (ev.withItems _) (distance + 1))
  | yields values lower mid value he hi hn hb ho hm => exact .inl hm.definitions
  | idles values lower mid he hi hn hb ho hm => exact .inl hm.definitions
  | fails x values lower hi hb hm => exact .inl hm.definitions
  | enters callee inputs values lower hi hc hn hb hs =>
    obtain ⟨mid, frame, hm, hnew, -⟩ := hs
    obtain ⟨id, hid⟩ := Option.isSome_iff_exists.1 hnew.definition
    exact .inr ⟨id, congrArg₂ List.cons hid hm.definitions⟩

theorem Rooted.acts {i : Instruction} {r : Except Exception Unit} (hev : ev.Rooted)
    (h : Acts ev i r after) : after.Rooted := by
  obtain ⟨ids, hids⟩ := hev
  rcases definitions_of_acts h with hd | ⟨id, hd⟩
  · exact ⟨ids, hd.trans hids⟩
  · exact ⟨id :: ids, by rw [hd, hids]; rfl⟩

theorem Rooted.handDown {frame caller : Frame} {outer : List Frame} {value : Value}
    (hev : ev.Rooted) (hf : ev.frames = frame :: caller :: outer) :
    (ev.handDown frame value (caller :: outer)).Rooted := by
  obtain ⟨ids, hids⟩ := hev
  unfold definitions at hids
  rw [hf] at hids
  cases ids with
  | nil => simp at hids
  | cons id ids => exact ⟨ids, (List.cons.inj hids).2⟩

/-- What is known of a pass while the host supplies no exceptions: as long as it runs, it is clean
and its frames are in place, and once it has failed, it failed in such a state. -/
structure Recorded (begun now : Evaluator) : Prop where
  passes : begun.Passes now
  running : now.outcome = none → now.Clean ∧ now.Rooted
  failed : ∀ x, now.outcome = some (.halted x) → ∃ place mid, begun.Passes place ∧ place.Clean ∧
    place.Rooted ∧ place.outcome = none ∧ place.Raises x mid ∧
    Progresses { mid with outcome := some (.halted x) } now

section Recorded

variable {begun now next : Evaluator}

theorem recorded_of_beginPass {budget : Nat} {root : Expr} (h : ev.beginPass budget root = some now)
    (hs : now.Supplied) (hpasses : begun.Passes now) : Recorded begun now := by
  have hclean := clean_of_beginPass h hs
  obtain ⟨code, mid, hc, rfl⟩ := beginPass_cases h
  have hnone : mid.outcome = none := ((evolving_codeOf budget root).evolves hc).outcome
  exact ⟨hpasses, fun _ => ⟨hclean, [], rfl⟩, fun x hx => nomatch hnone.symm.trans hx⟩

theorem Recorded.moves (h : Recorded begun now) (hm : now.Moves next) (hs : next.Supplied) :
    Recorded begun next := by
  have hpasses : begun.Passes next := h.passes.tail (.moves hm)
  have runs (ho : now.outcome = none) (hrooted : now.Rooted → next.Rooted)
      (hnone : next.outcome = none) : Recorded begun next := by
    obtain ⟨hclean, hrun⟩ := h.running ho
    exact ⟨hpasses, fun _ => ⟨hm.clean hclean hnone hs, hrooted hrun⟩,
      fun x hx => nomatch hnone.symm.trans hx⟩
  have serves (hrooted : now.Rooted → next.Rooted) (hsame : next.outcome = now.outcome) :
      Recorded begun next := by
    refine ⟨hpasses, fun ho => ?_, fun x hx => ?_⟩
    · obtain ⟨hclean, hrun⟩ := h.running (hsame ▸ ho)
      exact ⟨hm.clean hclean ho hs, hrooted hrun⟩
    · obtain ⟨place, mid, hplace, hclean, hrun, ho, hx, hafter⟩ := h.failed x (hsame ▸ hx)
      exact ⟨place, mid, hplace, hclean, hrun, ho, hx, hafter.tail hm⟩
  cases hm with
  | @acts budget _ _ frame outer i ho hf hc ha =>
    have hacts := act_cases ha
    refine runs ho (fun ⟨ids, hids⟩ => ?_) (hacts.outcome.trans ho)
    exact Rooted.acts ⟨ids, (definitions_fetch hf i).trans hids⟩ hacts
  | hands ho hf => exact runs ho (·.handDown hf) ho
  | produces => exact ⟨hpasses, nofun, nofun⟩
  | @halts _ mid x ho hx =>
    refine ⟨hpasses, nofun, fun y hy => ?_⟩
    obtain rfl := Outcome.halted.inj (Option.some.inj hy)
    obtain ⟨hclean, hrun⟩ := h.running ho
    exact ⟨now, mid, h.passes, hclean, hrun, ho, hx, .refl⟩
  | injects => exact serves id rfl
  | defines => exact serves id rfl

theorem Recorded.runs (h : Recorded begun now) (hr : now.Runs next) (hs : next.Supplied) :
    Recorded begun next := by
  induction hr with
  | refl => exact h
  | tail _ hw ih => exact (ih (hw.supplied_iff.1 hs)).moves hw.moves hs

theorem Recorded.serves (h : Recorded begun now) (hserves : now.Serves next) (hs : next.Supplied) :
    Recorded begun next := by
  cases hserves with
  | beginPass budget root hb =>
    exact recorded_of_beginPass hb hs (h.passes.tail (.begins budget root hb))
  | step budget answer hstep => exact h.runs (runs_of_step hstep) hs
  | stepToBoundary budget fuel answer hstep => exact h.runs (runs_of_stepToBoundary hstep) hs
  | run budget fuel outcome hrun => exact h.runs (runs_of_run hrun) hs
  | inject stream value heq => exact h.moves (heq ▸ .injects now stream value) hs
  | defineGlobal name value heq => exact h.moves (heq ▸ .defines now name value) hs

end Recorded

/-- Failures are attached to the definition that was active.  While the host supplies no exceptions,
a pass that has failed did so in a state in which the frames of some definitions were active on top
of the frame of the program, and the failure carries the innermost of them, or none if there were
none.  This leaves out calls whose callee has inputs that are not in order and deprives one of them:
what they raise carries no definition, and a step that comes to such a call does raise it. -/
theorem failures_attributed {begun now : Evaluator} {budget : Nat} {root : Expr}
    (hbegin : ev.beginPass budget root = some begun) (hsupplied : begun.Supplied)
    (hreaches : Relation.ReflTransGen (fun a b => a.Serves b ∧ b.Supplied) begun now) :
    (∀ x, now.outcome = some (.halted x) → ∃ place mid, ∃ ids : List NodeId,
      begun.Passes place ∧ place.outcome = none ∧ place.Raises x mid ∧
      Progresses { mid with outcome := some (.halted x) } now ∧
      place.definitions = ids.map some ++ [none] ∧
      (x.frame = ids.head? ∨ ∃ call inputs input, place.Deprives call inputs input ∧
        inputListConflicts inputs ≠ [] ∧ x = deprivation call input)) ∧
    ∀ call inputs input, now.outcome = none → now.reachedLimit? = none →
      now.Deprives call inputs input → ∀ budget, ∃ after,
        now.step budget = some (.ended (.halted (deprivation call input)), after) := by
  have hrecorded : Recorded begun now := by
    induction hreaches with
    | refl => exact recorded_of_beginPass hbegin hsupplied .refl
    | tail _ h ih => exact ih.serves h.1 h.2
  constructor
  · intro x hx
    obtain ⟨place, mid, hpasses, hclean, ⟨ids, hids⟩, ho, hraises, hafter⟩ := hrecorded.failed x hx
    refine ⟨place, mid, ids, hpasses, ho, hraises, hafter, hids, ?_⟩
    rcases hraises.cause hclean hids with hframe | ⟨call, inputs, input, hdeprives, rfl⟩
    · exact .inl hframe
    · exact .inr ⟨call, inputs, input, hdeprives, hdeprives.deprived.conflicts false, rfl⟩
  · intro call inputs input ho hl hdeprives budget
    exact hdeprives.step (hrecorded.running ho).1 ho hl budget

end Evaluator

/-! ## Failures in a function -/

namespace Attribution

/-- A program that calls its function `g`, which calls `f` without arguments. -/
def programOf (f : List Expr) : Program :=
  let g := functionOf 9 "g" [] (some .boolean) (some (callOf 11 12 "f"))
  ⟨.block ⟨1⟩ (f ++ [.function g, callOf 13 14 "g"])⟩

/-- The function `f` is missing. -/
def unknownFunction : Program :=
  programOf []

/-- The function `f(x…• y•)` has an input with a default behind one that collects the rest. -/
def misplacedInput : Program :=
  let x := restOf 3 "x" .boolean
  let y := binderOf 5 "y" (some .boolean) (some (booleanOf 7 true))
  programOf [.function (functionOf 2 "f" [x, y] (some .boolean) (some (booleanOf 8 true)))]

/-- Whether a run ends with a failure that carries the definition. -/
def failsIn (id : NodeId) (done : Outcome × Evaluator) : Bool :=
  match done.1 with
  | .halted x => decide (x.frame = some id)
  | .produced _ => false

/-- Whether a step ends the pass with a failure that carries no definition, and leaves active the
definitions that were. -/
def losesDefinition (ids : List (Option NodeId)) (done : Step × Evaluator) : Bool :=
  match done with
  | (.ended (.halted x), after) => x.frame.isNone && decide (after.definitions = ids)
  | _ => false

end Attribution

open Attribution

/-- The name that `g` does not find is looked for while `g` is active. -/
theorem failures_attributed_unknownFunction :
    ∃ begun now x place, ∃ ids : List NodeId,
      (startOf unknownFunction).beginPass 30 unknownFunction.root = some begun ∧
      begun.run 30 100 = some (.halted x, now) ∧ begun.Passes place ∧
      place.definitions = ids.map some ++ [none] ∧ x.frame = ids.head? ∧ x.frame = some ⟨9⟩ := by
  have hruns : (((startOf unknownFunction).beginPass 30 unknownFunction.root).bind
      (Evaluator.run 30 100)).any (failsIn ⟨9⟩) = true := by decide +kernel
  obtain ⟨⟨outcome, now⟩, hrun, hframe⟩ := (Option.any_eq_true _ _).1 hruns
  obtain ⟨begun, hbegin, hrun⟩ := Option.bind_eq_some_iff.1 hrun
  cases outcome with
  | produced value => cases hframe
  | halted x =>
    have hframe : x.frame = some ⟨9⟩ := of_decide_eq_true hframe
    have hsupplied := Evaluator.supplied_of_new hbegin
    have hended : now.outcome = some (.halted x) := Evaluator.outcome_of_run hrun
    have hnow := (Evaluator.runs_of_run hrun).supplied_iff.2 hsupplied
    obtain ⟨hfailed, -⟩ := Evaluator.failures_attributed hbegin hsupplied
      (.single ⟨.run 30 100 (.halted x) hrun, hnow⟩)
    obtain ⟨place, mid, ids, hplace, -, -, -, hids, hcause⟩ := hfailed x hended
    refine ⟨begun, now, x, place, ids, hbegin, hrun, hplace, hids, ?_, hframe⟩
    rcases hcause with hcause | ⟨call, inputs, input, -, -, rfl⟩
    · exact hcause
    · cases hframe

/-- The failure of binding `y` carries no definition, although `g` is active before it and after
it. -/
theorem misplacedInput_unattributed :
    ∃ begun now after x,
      (startOf misplacedInput).beginPass 30 misplacedInput.root = some begun ∧ begun.Supplied ∧
      begun.Reaches now ∧ now.definitions = [some ⟨9⟩, none] ∧
      now.step 30 = some (.ended (.halted x), after) ∧
      after.definitions = [some ⟨9⟩, none] ∧ x.frame = none := by
  have hsteps : (((startOf misplacedInput).beginPass 30 misplacedInput.root).any fun begun =>
      (begun.afterSteps 30 9).any fun now => decide (now.definitions = [some ⟨9⟩, none]) &&
        (now.step 30).any (losesDefinition [some ⟨9⟩, none])) = true := by decide +kernel
  obtain ⟨begun, hbegin, hsteps⟩ := (Option.any_eq_true _ _).1 hsteps
  obtain ⟨now, hnow, hsteps⟩ := (Option.any_eq_true _ _).1 hsteps
  obtain ⟨hids, hstep⟩ := Bool.and_eq_true_iff.1 hsteps
  obtain ⟨⟨answer, after⟩, hstep, hlost⟩ := (Option.any_eq_true _ _).1 hstep
  unfold losesDefinition at hlost
  split at hlost
  · rename_i x last heq
    obtain ⟨rfl, rfl⟩ := Prod.mk.inj heq
    obtain ⟨hframe, hafter⟩ := Bool.and_eq_true_iff.1 hlost
    exact ⟨begun, now, after, x, hbegin, Evaluator.supplied_of_new hbegin,
      Evaluator.reaches_of_afterSteps hnow, of_decide_eq_true hids, hstep,
      of_decide_eq_true hafter, Option.isNone_iff_eq_none.1 hframe⟩
  · exact nomatch hlost

end Stepwise

import Stepwise.Proofs.Machine.Preserving
import Stepwise.Proofs.Machine.Running
import Stepwise.Proofs.Sample

/-!
# Exceptions are never stored

Exceptions are values, and a host may define a name to be one or inject one into a stream.  Even so,
none ever lies on the stack or is bound in a frame: whatever an expression takes is checked when it
is taken, and what it yields is checked before it is pushed.  Only what is on the stack is ever
bound, and only what is on the stack is ever produced.

`Evaluator.Proper` is the invariant, kept by every move (`Moves.proper`).  The other half is what
becomes of an exception instead.  `Evaluator.Yields` lists where a step can come upon one: in the
instruction that it executes, and in each of the frames that the instruction finishes.  A step that
comes upon an exception ends the pass with it, and a step ends the pass with an exception only in
this way (`step_halts_iff`).
-/

namespace Stepwise

open Stepwise.Action

/-! ## Bindings without exceptions -/

/-- No name is bound to an exception. -/
def ProperBindings (bindings : Bindings) : Prop :=
  ∀ entry ∈ bindings.entries, entry.2.isException = false

section Bindings

variable {bindings : Bindings} {value : Value}

theorem properBindings_empty : ProperBindings .empty :=
  fun _ h => nomatch h

theorem ProperBindings.insert (h : ProperBindings bindings) (name : String)
    (hv : value.isException = false) : ProperBindings (bindings.insert name value) := by
  obtain ⟨entries⟩ := bindings
  have written : ∀ entry ∈ Assoc.insertEntry name value entries,
      entry.2 = value ∨ entry ∈ entries := by
    clear h
    induction entries with
    | nil => simp [Assoc.insertEntry]
    | cons pair rest ih =>
      obtain ⟨key, old⟩ := pair
      intro entry hmem
      rw [Assoc.insertEntry] at hmem
      split at hmem
      · rcases List.mem_cons.1 hmem with rfl | hmem
        · exact .inl rfl
        · exact .inr (List.mem_cons_of_mem _ hmem)
      · rcases List.mem_cons.1 hmem with rfl | hmem
        · exact .inr (List.mem_cons_self ..)
        · exact (ih entry hmem).imp_right (List.mem_cons_of_mem _)
  intro entry hmem
  rcases written entry hmem with rfl | hold
  · exact hv
  · exact h entry hold

theorem ProperBindings.insertNew (h : ProperBindings bindings) (name : String)
    (hv : value.isException = false) : ProperBindings (bindings.insertNew name value) := by
  unfold Assoc.insertNew
  split
  · exact h
  · intro entry hmem
    rcases List.mem_append.1 hmem with hold | hnew
    · exact h entry hold
    · exact List.mem_singleton.1 hnew ▸ hv

theorem proper_bindings :
    BindingInvariant (fun value => value.isException = false) ProperBindings :=
  ⟨properBindings_empty, ProperBindings.insert, ProperBindings.insertNew⟩

end Bindings

/-! ## The invariant -/

namespace Evaluator

/-- No value on the stack and no value bound in a frame is an exception, and the pass has not
produced one. -/
structure Proper (ev : Evaluator) : Prop where
  stack : ∀ value ∈ ev.stack.items, value.isException = false
  frames : ∀ frame ∈ ev.frames, ProperBindings frame.bindings
  outcome : ∀ value, ev.outcome = some (.produced value) → value.isException = false

variable {ev after : Evaluator}

theorem Proper.withCode (h : ev.Proper) {memo : Memo} {lowered : Assoc NodeId Code} :
    { ev with memo := memo, lowered := lowered }.Proper :=
  ⟨h.stack, h.frames, h.outcome⟩

theorem Proper.draw (h : ev.Proper) : { ev with nextScope := ev.nextScope + 1 }.Proper :=
  ⟨h.stack, h.frames, h.outcome⟩

/-- The innermost frame may change into another without exceptions. -/
theorem Proper.modifyHead (h : ev.Proper) {f : Frame → Frame}
    (hf : ∀ frame, ProperBindings frame.bindings → ProperBindings (f frame).bindings) :
    { ev with frames := ev.frames.modifyHead f }.Proper := by
  refine ⟨h.stack, fun frame hmem => ?_, h.outcome⟩
  cases hframes : ev.frames with
  | nil => simp [hframes] at hmem
  | cons first outer =>
    rw [hframes, List.modifyHead_cons] at hmem
    rcases List.mem_cons.1 hmem with rfl | hmem
    · exact hf first (h.frames first (by simp [hframes]))
    · exact h.frames frame (by simp [hframes, hmem])

theorem Proper.bindAll (h : ev.Proper) (aliases : List String) {value : Value}
    (hv : value.isException = false) : (ev.bindAll aliases value).Proper := by
  rw [bindAll_eq]
  exact h.modifyHead fun frame hf => proper_bindings.bindAliases hf aliases hv

theorem Proper.advance (h : ev.Proper) (distance : Nat) : (ev.advance distance).Proper := by
  rw [advance_eq]
  exact h.modifyHead fun frame hf => hf

end Evaluator

/-! ## What is executed -/

theorem proper_stack : StackInvariant Evaluator.Proper fun value => value.isException = false :=
  ⟨fun h => h.stack, fun h hi => ⟨hi, h.frames, h.outcome⟩⟩

/-- Working on operands that are no exceptions binds none.  What it yields may be one. -/
theorem proper_operate (e : Expr) {values : List Value}
    (hv : ∀ value ∈ values, value.isException = false) :
    Preserves Evaluator.Proper (fun _ => True) (e.operate values) := by
  have defines {close : Scope → Value} (h : ∀ scope, (close scope).isException = false)
      (aliases : List String) :
      Preserves Evaluator.Proper (fun _ => True) (some <$> executeDefinition aliases close) :=
    (preserves_executeDefinition (·.draw) (fun hev hvalue => hev.bindAll aliases hvalue)
      fun _ => h _).map fun _ _ => trivial
  unfold Expr.operate
  split
  case h_7 =>
    refine preserves_get.bind fun ev _ => ?_
    split
    · exact preserves_pure trivial
    · exact preserves_failAt ..
  case h_8 =>
    exact (preserves_accessMember _ _ fun _ _ _ _ _ => trivial).map fun _ _ => trivial
  case h_9 => exact (preserves_ofResult _ fun _ _ => trivial).map fun _ _ => trivial
  case h_10 => exact (preserves_ofResult _ fun _ _ => trivial).map fun _ _ => trivial
  case h_11 => exact defines (fun _ => rfl) _
  case h_12 => exact defines (fun _ => rfl) _
  case h_13 =>
    split
    · exact preserves_pure trivial
    · exact preserves_failAt ..
  case h_14 b value =>
    refine (preserves_modify fun ev hev => hev.bindAll b.aliases (hv value (by simp))).bind ?_
    exact fun _ _ => preserves_pure trivial
  case h_5 => exact preserves_failAt ..
  case h_6 => exact preserves_failAt ..
  all_goals exact preserves_pure trivial

/-- The frame of a call binds its arguments, none of which is an exception, and its own names. -/
theorem proper_prepare (budget : Nat) (call : Call) {values : List Value} (callee : Value)
    (hv : ∀ value ∈ values, value.isException = false) :
    Preserves Evaluator.Proper (fun frame => ProperBindings frame.bindings)
      (prepare budget call values callee) := by
  have arguments := fun inputs => @preserves_argumentBindings Evaluator.Proper _ _
    proper_bindings (fun _ => rfl) call inputs values hv
  unfold prepare
  split
  · rename_i f scope
    refine (arguments f.inputs).bind fun bindings hb => .blaming _ ?_
    unfold prepareFunction
    split
    · exact preserves_failWith _
    · refine (preserves_codeOf _ _ (·.withCode)).bind fun code _ => preserves_pure ?_
      exact proper_bindings.bindSelf hb.1 _ rfl
  · rename_i s scope
    refine (arguments s.inputs).bind fun bindings hb => .blaming _ ?_
    refine (preserves_blockCode _ _ (·.withCode)).bind fun code _ => ?_
    exact (preserves_freshScope (·.draw)).bind fun id _ => preserves_pure hb.1
  · exact preserves_failAt ..

/-- Instructions push and bind no exception. -/
theorem proper_act (budget : Nat) (i : Instruction) :
    Preserves Evaluator.Proper (fun _ => True) (i.act budget) := by
  refine proper_stack.act budget i (fun hev distance => hev.advance distance) (fun call => ?_) ?_
  · refine proper_stack.executeCall budget call (fun hv _ => proper_prepare budget call _ hv) ?_
    exact fun hev hf => ⟨hev.stack, List.forall_mem_cons.2 ⟨hf, hev.frames⟩, hev.outcome⟩
  · exact fun e values hv => (proper_operate e hv).weaken fun _ _ _ _ hvalue => hvalue

namespace Evaluator

variable {ev after : Evaluator}

theorem Proper.fetch {frame : Frame} {outer : List Frame} (h : ev.Proper)
    (hf : ev.frames = frame :: outer) (i : Instruction) : (ev.fetch frame outer i).Proper := by
  refine ⟨h.stack, fun other hmem => ?_, h.outcome⟩
  rcases List.mem_cons.1 hmem with rfl | hmem
  · exact h.frames frame (by simp [hf])
  · exact h.frames other (by simp [hf, hmem])

/-- The stack is cut down, and the innermost frame is gone. -/
theorem Proper.cleared {frame : Frame} {outer : List Frame} (h : ev.Proper)
    (hf : ev.frames = frame :: outer) : { ev.cleared frame with frames := outer }.Proper :=
  ⟨fun value hmem => h.stack value (List.mem_of_mem_drop hmem),
    fun other hmem => h.frames other (hf ▸ List.mem_cons_of_mem frame hmem), h.outcome⟩

theorem Raises.proper {x : Exception} (hx : ev.Raises x after) (h : ev.Proper) : after.Proper := by
  cases hx with
  | @act budget frame outer i _ _ hf hc ha =>
    exact ((proper_act budget i).keeps (h.fetch hf i) ha).1
  | result hf hd hr => exact h.cleared hf
  | noValue hf hd hr =>
    exact ⟨h.stack, fun other hmem => h.frames other (hf ▸ List.mem_cons_of_mem _ hmem), h.outcome⟩
  | idle => exact h
  | limit => exact h

/-- No move stores an exception. -/
theorem Moves.proper (hm : ev.Moves after) (h : ev.Proper) : after.Proper := by
  cases hm with
  | @acts budget _ _ frame outer i ho hf hc ha =>
    exact ((proper_act budget i).keeps (h.fetch hf i) ha).1
  | hands ho hf hd hr hv =>
    have hcut := h.cleared hf
    exact ⟨List.forall_mem_cons.2 ⟨hv, hcut.stack⟩, hcut.frames, hcut.outcome⟩
  | produces ho hf hd hr hv =>
    have hcut := h.cleared hf
    refine ⟨hcut.stack, hcut.frames, fun value hvalue => ?_⟩
    exact Outcome.produced.inj (Option.some.inj hvalue) ▸ hv
  | halts ho hx =>
    have hmid := hx.proper h
    exact ⟨hmid.stack, hmid.frames, fun value hvalue => nomatch hvalue⟩
  | injects => exact ⟨h.stack, h.frames, h.outcome⟩
  | defines => exact ⟨h.stack, h.frames, h.outcome⟩

theorem proper_of_beginPass {budget : Nat} {root : Expr}
    (h : ev.beginPass budget root = some after) : after.Proper := by
  obtain ⟨-, hitems, -⟩ := frames_of_beginPass h
  obtain ⟨code, mid, hc, rfl⟩ := beginPass_cases h
  have houtcome : mid.outcome = none := ((evolving_codeOf budget root).evolves hc).outcome
  refine ⟨fun value hmem => ?_, fun frame hmem => ?_, fun value hvalue => ?_⟩
  · rw [hitems] at hmem
    exact nomatch hmem
  · exact List.mem_singleton.1 hmem ▸ properBindings_empty
  · exact nomatch houtcome.symm.trans hvalue

/-- Whatever a host does, and whatever it supplies, no exception is ever stored. -/
theorem proper_of_passes {ctx : Context} {memo : Memo} {options : Options}
    (h : (new ctx memo options).Passes ev) : ev.Proper := by
  induction h with
  | refl => exact ⟨nofun, nofun, nofun⟩
  | tail _ ht ih =>
    cases ht with
    | begins budget root hb => exact proper_of_beginPass hb
    | moves hm => exact hm.proper ih

end Evaluator

/-! ## What becomes of an exception -/

/-- The exceptions that an instruction comes upon, with the evaluator that it leaves behind. -/
inductive Instruction.Yields (budget : Nat) (ev : Evaluator) :
    Instruction → Exception → Evaluator → Prop
  /-- An expression fails, because of its operands or in its work. -/
  | execute {e : Expr} {x : Exception} {after : Evaluator}
      (h : e.execute budget ev = some (.error x, after)) : Yields budget ev (.finish e) x after
  /-- The value of an expression is an exception. -/
  | value {e : Expr} {x : Exception} {after : Evaluator}
      (h : e.execute budget ev = some (.ok (some (.exception x)), after)) :
      Yields budget ev (.finish e) x after
  | halt (node : NodeId) (reason : HaltReason) :
      Yields budget ev (.halt node reason) ((ev.exception reason.exceptionKind).atNode node) ev
  /-- There is no condition to jump on. -/
  | starved {distance : Nat} {node : NodeId} {x : Exception} {after : Evaluator}
      (h : popValue ev = some (.error x, after)) :
      Yields budget ev (.jumpIfFalse distance node) (x.atNode node) after
  /-- The condition of a jump is an exception. -/
  | condition {distance : Nat} {node : NodeId} {x : Exception} {after : Evaluator}
      (h : popValue ev = some (.ok (.exception x), after)) :
      Yields budget ev (.jumpIfFalse distance node) x after
  /-- The condition of a jump is another value than a boolean. -/
  | mismatch {distance : Nat} {node : NodeId} {value : Value} {after : Evaluator}
      (h : popValue ev = some (.ok value, after)) (hv : value.isException = false)
      (hb : ∀ b, value ≠ .boolean b) :
      Yields budget ev (.jumpIfFalse distance node)
        ((after.exception (wrongKind "boolean" value)).atNode node) after

/-- An instruction fails with what it comes upon. -/
theorem Instruction.act_error_iff {budget : Nat} {i : Instruction} {ev after : Evaluator}
    {x : Exception} : i.act budget ev = some (.error x, after) ↔ i.Yields budget ev x after := by
  constructor
  · intro h
    cases i with
    | start e => cases h
    | jump distance node => cases h
    | halt node reason =>
      cases h
      exact .halt node reason
    | finish e =>
      rcases bind_eq_some h with ⟨answer, mid, he, hr⟩ | ⟨y, he, hy⟩
      · -- what an expression yields is pushed, unless it is an exception
        cases answer with
        | none => cases hr
        | some value =>
          cases value with
          | exception y =>
            cases hr
            exact .value he
          | _ => cases hr
      · cases hy
        exact .execute he
    | jumpIfFalse distance node =>
      rcases bind_eq_some h with ⟨value, mid, hp, hr⟩ | ⟨y, hp, hy⟩
      · obtain ⟨popped, hp, hvalue⟩ := blaming_eq_some hp
        cases popped with
        | error _ => cases hvalue
        | ok _ =>
          cases hvalue
          cases value with
          | exception y =>
            cases hr
            exact .condition hp
          | boolean b => cases b <;> cases hr
          | _ =>
            cases hr
            exact .mismatch hp rfl fun b hb => by cases hb
      · obtain ⟨popped, hpop, hvalue⟩ := blaming_eq_some hp
        cases popped with
        | ok _ => cases hvalue
        | error z =>
          cases hvalue
          cases hy
          exact .starved hpop
  · intro h
    cases h with
    | execute h => rw [act, bind_apply, h]; rfl
    | value h => rw [act, bind_apply, h]; rfl
    | halt => rfl
    | starved h => rw [act, bind_apply, blaming_apply, h]; rfl
    | condition h => rw [act, bind_apply, blaming_apply, h]; rfl
    | @mismatch _ _ value _ h hv hb =>
      rw [act, bind_apply, blaming_apply, h]
      cases value with
      | exception y => cases hv
      | boolean b => exact absurd rfl (hb b)
      | _ => rfl

namespace Evaluator

/-- The exceptions that finished frames come upon when they hand their results down, with the
evaluator that is left behind. -/
inductive Completes : Evaluator → Exception → Evaluator → Prop
  /-- A frame has not left a value. -/
  | noValue {ev : Evaluator} {frame : Frame} {outer : List Frame} (hf : ev.frames = frame :: outer)
      (hd : frame.isDone = true) (hr : ev.result? frame = none) :
      Completes ev { kind := .noValue, node := some frame.node, frame := frame.definition? }
        { ev with frames := outer }
  /-- The result of a frame is an exception. -/
  | result {ev : Evaluator} {frame : Frame} {outer : List Frame} {x : Exception}
      (hf : ev.frames = frame :: outer) (hd : frame.isDone = true)
      (hr : ev.result? frame = some (.exception x)) :
      Completes ev x { ev.cleared frame with frames := outer }
  /-- A frame hands its result to one that is finished as well. -/
  | hands {ev last : Evaluator} {frame caller : Frame} {outer : List Frame} {value : Value}
      {x : Exception} (hf : ev.frames = frame :: caller :: outer) (hd : frame.isDone = true)
      (hr : ev.result? frame = some value) (hv : value.isException = false)
      (hx : Completes (ev.handDown frame value (caller :: outer)) x last) : Completes ev x last

/-- The exceptions that a step comes upon: in the instruction that it executes, or after that, in a
frame that is finished. -/
inductive Yields (budget : Nat) (ev : Evaluator) : Exception → Evaluator → Prop
  | act {frame : Frame} {outer : List Frame} {i : Instruction} {x : Exception} {last : Evaluator}
      (hf : ev.frames = frame :: outer) (hc : frame.current? = some i)
      (hx : i.Yields budget (ev.fetch frame outer i) x last) : Yields budget ev x last
  | completion {frame : Frame} {outer : List Frame} {i : Instruction} {x : Exception}
      {mid last : Evaluator} (hf : ev.frames = frame :: outer) (hc : frame.current? = some i)
      (ha : i.act budget (ev.fetch frame outer i) = some (.ok (), mid))
      (hx : mid.Completes x last) : Yields budget ev x last

variable {ev after last : Evaluator} {budget : Nat} {x : Exception}

theorem Yields.fetches (h : ev.Yields budget x last) :
    ∃ frame outer i, ev.frames = frame :: outer ∧ frame.current? = some i := by
  cases h with
  | act hf hc hx => exact ⟨_, _, _, hf, hc⟩
  | completion hf hc ha hx => exact ⟨_, _, _, hf, hc⟩

/-- Frames that come upon an exception end the pass with it. -/
theorem Completes.completeFrames (h : ev.Completes x last) :
    ev.completeFrames = last.halt x := by
  refine HandsDown.completeFrames_eq ?_
  induction h with
  | noValue hf hd hr => exact .noValue hf hd hr
  | result hf hd hr => exact .exception hf hd hr
  | hands hf hd hr hv _ ih => exact .hands hf hd hr hv ih

/-- Handing results down ends the pass with an exception only if a frame comes upon it. -/
theorem completes_of_completeFrames (h : ev.completeFrames = (.ended (.halted x), after)) :
    ∃ last, ev.Completes x last := by
  have hdown := handsDown_completeFrames ev
  have hended : ev.completeFrames.1 = .ended (.halted x) := by rw [h]
  clear h
  generalize ev.completeFrames = r at hdown hended
  induction hdown with
  | idle | active => exact nomatch hended
  | noValue hf hd hr =>
    obtain rfl := Outcome.halted.inj (Step.ended.inj hended)
    exact ⟨_, .noValue hf hd hr⟩
  | exception hf hd hr =>
    obtain rfl := Outcome.halted.inj (Step.ended.inj hended)
    exact ⟨_, .result hf hd hr⟩
  | produces => exact nomatch Step.ended.inj hended
  | hands hf hd hr hv _ ih =>
    obtain ⟨last, hlast⟩ := ih hended
    exact ⟨last, .hands hf hd hr hv hlast⟩

/-- A step that has an instruction to execute ends the pass with an exception if and only if it
comes upon it. -/
theorem step_halts_iff {frame : Frame} {outer : List Frame} {i : Instruction}
    (ho : ev.outcome = none) (hl : ev.reachedLimit? = none) (hf : ev.frames = frame :: outer)
    (hc : frame.current? = some i) :
    (∃ after, ev.step budget = some (.ended (.halted x), after)) ↔
      ∃ last, ev.Yields budget x last := by
  rw [step_eq budget ho hl hf, hc]
  dsimp only
  constructor
  · rintro ⟨after, h⟩
    obtain ⟨⟨r, mid⟩, ha, hs⟩ := Option.map_eq_some_iff.1 h
    cases r with
    | error y =>
      obtain rfl := Outcome.halted.inj (Step.ended.inj (Prod.mk.inj hs).1)
      exact ⟨mid, .act hf hc (Instruction.act_error_iff.1 ha)⟩
    | ok =>
      obtain ⟨last, hlast⟩ := completes_of_completeFrames hs
      exact ⟨last, .completion hf hc ha hlast⟩
  · rintro ⟨last, h⟩
    have same {frame' : Frame} {outer' : List Frame} {i' : Instruction}
        (hf' : ev.frames = frame' :: outer') (hc' : frame'.current? = some i') :
        frame' = frame ∧ outer' = outer ∧ i' = i := by
      obtain ⟨rfl, rfl⟩ := List.cons.inj (hf'.symm.trans hf)
      exact ⟨rfl, rfl, Option.some.inj (hc'.symm.trans hc)⟩
    cases h with
    | act hf' hc' hx =>
      obtain ⟨rfl, rfl, rfl⟩ := same hf' hc'
      rw [Instruction.act_error_iff.2 hx]
      exact ⟨_, rfl⟩
    | completion hf' hc' ha hx =>
      obtain ⟨rfl, rfl, rfl⟩ := same hf' hc'
      rw [ha]
      exact ⟨_, congrArg some hx.completeFrames⟩

/-- No exception is ever stored, even though a host may define names as exceptions and inject them.
In every state that it can bring an evaluator into, no value on the stack and none bound in a frame
is an exception, and no pass has produced one.  An exception that a step comes upon ends the pass,
now and for good, and a step ends a pass with an exception only if it has come upon it, unless there
was nothing to evaluate. -/
theorem exceptions_never_stored {ctx : Context} {memo : Memo} {options : Options} {ev : Evaluator}
    (h : (new ctx memo options).Reaches ev) :
    (∀ value ∈ ev.stack.items, value.isException = false) ∧
    (∀ frame ∈ ev.frames, ∀ entry ∈ frame.bindings.entries, entry.2.isException = false) ∧
    (∀ value, ev.outcome = some (.produced value) → value.isException = false) ∧
    (ev.outcome = none → ev.reachedLimit? = none → ∀ (budget : Nat) (x : Exception),
      (∀ last, ev.Yields budget x last → ∃ after,
        ev.step budget = some (.ended (.halted x), after) ∧ after.outcome = some (.halted x) ∧
        ∀ budget', after.step budget' = some (.ended (.halted x), after)) ∧
      (∀ after, ev.step budget = some (.ended (.halted x), after) →
        (∃ last, ev.Yields budget x last) ∨ ev.frames = [] ∧ x = { kind := .noValue })) := by
  have hproper := proper_of_passes h.passes
  refine ⟨hproper.stack, hproper.frames, hproper.outcome, fun ho hl budget x => ⟨?_, ?_⟩⟩
  · intro last hx
    obtain ⟨frame, outer, i, hf, hc⟩ := hx.fetches
    obtain ⟨after, hs⟩ := (step_halts_iff ho hl hf hc).2 ⟨last, hx⟩
    have hended := outcome_of_step hs
    exact ⟨after, hs, hended, fun budget' => step_of_outcome hended⟩
  · intro after hs
    rcases going_of_reaches h ho with hnone | hgoing
    · rw [step_of_idle ho hl hnone] at hs
      obtain ⟨hended, -⟩ := Prod.mk.inj (Option.some.inj hs)
      exact .inr ⟨hnone, (Outcome.halted.inj (Step.ended.inj hended)).symm⟩
    · obtain ⟨frame, outer, i, hf, hc⟩ := hgoing.fetches
      exact .inl ((step_halts_iff ho hl hf hc).1 ⟨after, hs⟩)

/-- A name that the host has defined as an exception ends the pass that refers to it. -/
theorem exceptions_never_stored_reference :
    let x : Exception := { kind := .noValue, node := some ⟨7⟩ }
    let ev := (new { lexicon := .empty } .empty {}).defineGlobal "g" (.exception x)
    ∃ begun after, ev.beginPass 1 (referenceOf 1 "g") = some begun ∧
      begun.step 1 = some (.ended (.halted x), after) ∧ after.stack.items = [] := by
  intro x ev
  have hbegin : ∃ begun, ev.beginPass 1 (referenceOf 1 "g") = some begun := ⟨_, rfl⟩
  obtain ⟨begun, hbegin⟩ := hbegin
  have hreaches : (new { lexicon := .empty } .empty {}).Reaches begun :=
    .tail (.single (.defineGlobal "g" (.exception x) rfl)) (.beginPass 1 _ hbegin)
  obtain rfl := Option.some.inj hbegin
  obtain ⟨-, -, -, hends⟩ := exceptions_never_stored hreaches
  obtain ⟨after, hs, -⟩ := (hends rfl rfl 1 x).1 _ (.act rfl rfl (.value rfl))
  refine ⟨_, after, rfl, hs, ?_⟩
  obtain rfl := (Prod.mk.inj (Option.some.inj hs)).2
  rfl

end Evaluator

end Stepwise

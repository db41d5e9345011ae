import Mathlib.Logic.Relation
import Stepwise.Proofs.Machine.Execution

/-!
# The moves of the machine

A step is not the smallest thing that happens.  An instruction acts first (`Instruction.act`), and
afterwards every frame that has no instruction left hands its result to the frame below, one frame
at a time.  `act_cases` says once and for all what an instruction can do, and `HandsDown` how
finished frames hand their results down, so that nothing else has to recur on the frames.
Invariants of the machine are proved move by move (`Moves`), and follow for steps, runs and whatever
a host does (`runs_of_step`, `Reaches.passes`).
-/

namespace Stepwise

open Stepwise.Action

/-! ## Instructions -/

/-- What an instruction does, before any frame hands its result down. -/
def Instruction.act (budget : Nat) : Instruction → Action Unit
  | .start _ => pure ()
  | .finish e => do
    match ← e.execute budget with
    | none => pure ()
    | some (.exception x) => throw x
    | some value => modify fun ev => { ev with stack := ev.stack.push value }
  | .jump distance _ => modify (·.advance distance)
  | .jumpIfFalse distance node => do
    match ← blaming node popValue with
    | .boolean true => pure ()
    | .boolean false => modify (·.advance (distance + 1))
    | .exception x => throw x
    | other => failAt node (wrongKind "boolean" other)
  | .halt node reason => failAt node reason.exceptionKind

theorem act_call (budget : Nat) (call : Call) :
    (Instruction.finish (.call call)).act budget = executeCall budget call := by
  simp only [Instruction.act, Expr.execute, bind_assoc, pure_bind, bind_pure_unit]

/-- How a step goes on from what an instruction did: finished frames hand their results down, and
an exception ends the pass. -/
def Evaluator.settle : Except Exception Unit × Evaluator → Step × Evaluator
  | (.ok _, mid) => mid.completeFrames
  | (.error x, mid) => mid.halt x

theorem Evaluator.perform_eq (budget : Nat) (ev : Evaluator) (i : Instruction) :
    perform budget ev i = (i.act budget ev).map settle := by
  cases i with
  | start e => rfl
  | jump distance node => rfl
  | halt node reason => rfl
  | finish e =>
    simp only [perform, Instruction.act, bind_apply]
    rcases e.execute budget ev with _ | ⟨x | _ | value, mid⟩
    · rfl
    · rfl
    · rfl
    · cases value <;> rfl
  | jumpIfFalse distance node =>
    simp only [perform, Instruction.act, bind_apply, blaming_apply]
    rcases popValue ev with _ | ⟨x | value, mid⟩
    · rfl
    · rfl
    · cases value with
      | boolean b => cases b <;> rfl
      | _ => rfl

/-- How many operands an instruction takes in a state.  A call takes its callee and as many
arguments as the inputs of that callee ask for. -/
def Evaluator.operandsFor (ev : Evaluator) : Instruction → Nat
  | .jumpIfFalse .. => 1
  | .finish (.call c) =>
    match ev.stack.items.head?.bind Value.declaredInputs? with
    | some inputs => valueCount (plan inputs c.inputs) + 1
    | none => 1
  | .finish e => e.demand
  | _ => 0

/-- What an instruction can do: go on, with or without a new frame, or fail with an exception. -/
inductive Acts (ev : Evaluator) : Instruction → Except Exception Unit → Evaluator → Prop
  | starts (e : Expr) : Acts ev (.start e) (.ok ()) ev
  | jumps (distance : Nat) (node : NodeId) :
      Acts ev (.jump distance node) (.ok ()) (ev.advance distance)
  /-- The condition holds, and the code behind the jump is next. -/
  | holds (distance : Nat) (node : NodeId) {lower : List Value}
      (hi : ev.stack.items = .boolean true :: lower) (hb : ev.base ≤ lower.length) :
      Acts ev (.jumpIfFalse distance node) (.ok ()) (ev.withItems lower)
  /-- The condition does not hold, and the code behind the jump is skipped. -/
  | skips (distance : Nat) (node : NodeId) {lower : List Value}
      (hi : ev.stack.items = .boolean false :: lower) (hb : ev.base ≤ lower.length) :
      Acts ev (.jumpIfFalse distance node) (.ok ()) ((ev.withItems lower).advance (distance + 1))
  /-- An expression takes its operands and leaves a value. -/
  | yields {e : Expr} (values lower : List Value) (mid : Evaluator) (value : Value)
      (he : e.isCall = false) (hi : ev.stack.items = values ++ lower)
      (hn : values.length = e.demand) (hb : e.demand = 0 ∨ ev.base ≤ lower.length)
      (ho : e.operate values.reverse (ev.withItems lower) = some (.ok (some value), mid))
      (hm : (ev.withItems lower).Evolves mid) (hv : value.isException = false) :
      Acts ev (.finish e) (.ok ()) (mid.withItems (value :: lower))
  /-- An expression that leaves no value; lowered code finishes none. -/
  | idles {e : Expr} (values lower : List Value) (mid : Evaluator)
      (he : e.isCall = false) (hi : ev.stack.items = values ++ lower)
      (hn : values.length = e.demand) (hb : e.demand = 0 ∨ ev.base ≤ lower.length)
      (ho : e.operate values.reverse (ev.withItems lower) = some (.ok none, mid))
      (hm : (ev.withItems lower).Evolves mid) : Acts ev (.finish e) (.ok ()) mid
  /-- A call takes its callee and its arguments, and starts a frame. -/
  | enters {call : Call} (callee : Value) (inputs : List Binder) (values lower : List Value)
      {after : Evaluator} (hi : ev.stack.items = callee :: (values ++ lower))
      (hc : callee.declaredInputs? = some inputs)
      (hn : values.length = valueCount (plan inputs call.inputs)) (hb : ev.base ≤ lower.length)
      (hs : (ev.withItems lower).Starts after) : Acts ev (.finish (.call call)) (.ok ()) after
  /-- The values above the base can only run out when there are fewer of them than operands, and
  otherwise such an exception is a value: it was on the stack or is what an expression yields. -/
  | fails {i : Instruction} (x : Exception) (values lower : List Value) {after : Evaluator}
      (hi : ev.stack.items = values ++ lower) (hb : values = [] ∨ ev.base ≤ lower.length)
      (hm : (ev.withItems lower).Evolves after)
      (cause : x.kind = .insufficientValues → ev.stack.height < ev.base + ev.operandsFor i ∨
        (∃ y, .exception y ∈ ev.stack.items) ∨ ∃ e, i = .finish e ∧
          e.operate values.reverse (ev.withItems lower) = some (.ok (some (.exception x)), after)) :
      Acts ev i (.error x) after

theorem Evaluator.operandsFor_finish {e : Expr} (ev : Evaluator) (he : e.isCall = false) :
    ev.operandsFor (.finish e) = e.demand := by
  cases e <;> first | rfl | exact nomatch he

/-- An exception among the operands ends an instruction, and so does their running out. -/
theorem acts_of_popped {ev after : Evaluator} {i : Instruction} {count : Nat} {x : Exception}
    (h : Popped ev count (.error x) after) (hc : count ≤ ev.operandsFor i) :
    Acts ev i (.error x) after := by
  cases h with
  | exception values lower x hi hn hb =>
    refine .fails x (values ++ [.exception x]) lower (by simp [hi]) (Or.inr hb) (.refl _)
      fun _ => ?_
    exact Or.inr (Or.inl ⟨x, by simp [hi]⟩)
  | starved values lower hi hn hb hl =>
    refine .fails _ values lower hi hb (.refl _) fun _ => Or.inl ?_
    simp only [Stack.height, hi, List.length_append]
    omega

/-- What executing an expression that is not a call can do. -/
theorem acts_of_execute {budget : Nat} {e : Expr} {ev after : Evaluator}
    {r : Except Exception Unit} (he : e.isCall = false)
    (h : (Instruction.finish e).act budget ev = some (r, after)) : Acts ev (.finish e) r after := by
  have hcount := ev.operandsFor_finish he
  rw [Instruction.act, execute_eq budget he, bind_assoc] at h
  rcases (bind_eq_some h).symm with ⟨x, hpop, rfl⟩ | ⟨values, mid, hpop, h⟩
  · exact acts_of_popped (popOperands_cases hpop) (Nat.le_of_eq hcount.symm)
  cases popOperands_cases hpop with
  | taken _ lower hi hn hb hv =>
    have hb' : values = [] ∨ ev.base ≤ lower.length :=
      hb.imp_left fun h0 => List.length_eq_zero_iff.1 (hn.trans h0)
    rcases bind_eq_some h with ⟨answer, mid, hop, h⟩ | ⟨x, hop, rfl⟩
    · have hm := (evolving_operate e values.reverse).evolves hop
      match answer with
      | none =>
        simp only [pure_apply, Option.some.injEq, Prod.mk.injEq] at h
        obtain ⟨rfl, rfl⟩ := h
        exact .idles values lower mid he hi hn hb hop hm
      | some value =>
        cases hx : value.isException with
        | true =>
          cases value with
          | exception x =>
            simp only [throw_apply, Option.some.injEq, Prod.mk.injEq] at h
            obtain ⟨rfl, rfl⟩ := h
            exact .fails x values lower hi hb' hm fun _ => Or.inr (Or.inr ⟨e, rfl, hop⟩)
          | _ => exact nomatch hx
        | false =>
          have hpush : (r, after) = (.ok (), mid.withItems (value :: lower)) := by
            have hstack : mid.stack.push value = { mid.stack with items := value :: lower } := by
              rw [hm.stack]
              rfl
            unfold Evaluator.withItems
            rw [← hstack]
            cases value <;> first | exact (Option.some.inj h).symm | exact nomatch hx
          obtain ⟨rfl, rfl⟩ := Prod.mk.inj hpush
          exact .yields values lower mid value he hi hn hb hop hm hx
    · exact .fails x values lower hi hb' ((evolving_operate ..).evolves hop)
        fun hk => absurd hk ((evolving_operate ..).kind hop)

/-- A call takes its callee and its arguments and makes a frame, or fails. -/
theorem prepareCall_cases {budget : Nat} {call : Call} {ev after : Evaluator}
    {r : Except Exception Frame} (h : prepareCall budget call ev = some (r, after)) :
    (∃ frame callee inputs values lower, r = .ok frame ∧
        ev.stack.items = callee :: (values ++ lower) ∧ callee.declaredInputs? = some inputs ∧
        values.length = valueCount (plan inputs call.inputs) ∧ ev.base ≤ lower.length ∧
        (ev.withItems lower).Evolves after ∧ frame.IsNew after) ∨
      ∃ x, r = .error x ∧ Acts ev (.finish (.call call)) (.error x) after := by
  unfold prepareCall at h
  rcases bind_eq_some h with ⟨callee, mid, hpop, h⟩ | ⟨x, hpop, rfl⟩
  · obtain ⟨lower, hi, hb, hv, rfl⟩ := popOperand_eq_ok hpop
    cases hc : callee.declaredInputs? with
    | none =>
      simp only [hc, failAt_apply, Option.some.injEq, Prod.mk.injEq] at h
      obtain ⟨rfl, rfl⟩ := h
      exact Or.inr ⟨_, rfl, .fails _ [callee] lower hi (Or.inr hb) (.refl _) nofun⟩
    | some inputs =>
      have hcount : ev.operandsFor (.finish (.call call)) =
          valueCount (plan inputs call.inputs) + 1 := by
        simp [Evaluator.operandsFor, hi, hc]
      simp only [hc] at h
      rcases bind_eq_some h with ⟨popped, mid, hpop, h⟩ | ⟨x, hpop, rfl⟩
      · have hp : Popped ev _ (.ok (callee :: popped)) mid :=
          (popOperands_cases hpop).cons hi hb hv
        cases hp with
        | taken _ lower hi hn hb hv =>
          have hb : ev.base ≤ lower.length := hb.resolve_left (Nat.succ_ne_zero _)
          have hmake := making_prepare budget call popped.reverse callee
          have hm := hmake.evolving.evolves h
          cases r with
          | ok frame =>
            exact Or.inl ⟨frame, callee, inputs, popped, lower, rfl, hi, hc, Nat.succ.inj hn, hb,
              hm, hmake.new h⟩
          | error x =>
            exact Or.inr ⟨x, rfl, .fails x _ lower hi (Or.inr hb) hm
              fun hx => absurd hx (hmake.evolving.kind h)⟩
      · have hp : Popped ev _ (.error x) after := (popOperands_cases hpop).cons hi hb hv
        exact Or.inr ⟨x, rfl, acts_of_popped hp (Nat.le_of_eq hcount.symm)⟩
  · refine Or.inr ⟨x, rfl, ?_⟩
    rcases popOperand_cases hpop with ⟨value, lower, hi, hb, rfl, ⟨-, hr⟩ | ⟨y, rfl, hr⟩⟩ |
      ⟨hl, hr, rfl⟩
    · exact nomatch hr
    · obtain rfl : x = y := by simpa using hr
      exact .fails x [.exception x] lower hi (Or.inr hb) (.refl _)
        fun _ => Or.inr (Or.inl ⟨x, by simp [hi]⟩)
    · refine .fails x [] after.stack.items rfl (Or.inl rfl) (.refl _) fun _ => Or.inl ?_
      have : 1 ≤ after.operandsFor (.finish (.call call)) := by
        simp only [Evaluator.operandsFor]
        split <;> omega
      omega

/-- What executing a call can do. -/
theorem acts_of_executeCall {budget : Nat} {call : Call} {ev after : Evaluator}
    {r : Except Exception Unit} (h : executeCall budget call ev = some (r, after)) :
    Acts ev (.finish (.call call)) r after := by
  rw [executeCall_eq] at h
  rcases bind_eq_some h with ⟨frame, mid, hp, h⟩ | ⟨x, hp, rfl⟩
  · rcases prepareCall_cases hp with
      ⟨made, callee, inputs, values, lower, hr, hi, hc, hn, hb, hm, hnew⟩ | ⟨x, hx, -⟩
    · obtain rfl : frame = made := by simpa using hr
      rcases startFrame_cases h with ⟨rfl, rfl, -⟩ | ⟨rfl, rfl, hroom⟩
      · exact .fails _ (callee :: values) lower hi (Or.inr hb) hm nofun
      · exact .enters callee inputs values lower hi hc hn hb (.mk mid frame hm hnew hroom)
    · exact nomatch hx
  · rcases prepareCall_cases hp with ⟨made, _, _, _, _, hr, -⟩ | ⟨y, hy, hacts⟩
    · exact nomatch hr
    · obtain rfl : x = y := by simpa using hy
      exact hacts

/-- A conditional jump takes a value; only booleans let it go on. -/
theorem act_jumpIfFalse (budget distance : Nat) (node : NodeId) {ev : Evaluator} {value : Value}
    {items : List Value} (hi : ev.stack.items = value :: items) (hb : ev.base ≤ items.length)
    (hv : value.isException = false) :
    (Instruction.jumpIfFalse distance node).act budget ev =
      match value with
      | .boolean true => some (.ok (), ev.withItems items)
      | .boolean false => some (.ok (), (ev.withItems items).advance (distance + 1))
      | other =>
        some (.error ((ev.exception (wrongKind "boolean" other)).atNode node),
          ev.withItems items) := by
  rw [Instruction.act, bind_apply, blaming_apply, popValue_of_items hi hb, Option.map_some,
    mapError_ok, Option.bind_some, continuing_ok]
  cases value with
  | boolean b => cases b <;> rfl
  | exception => simp [Value.isException] at hv
  | _ => rfl

/-- What a conditional jump can do. -/
theorem acts_of_condition {budget distance : Nat} {node : NodeId} {ev after : Evaluator}
    {r : Except Exception Unit}
    (h : (Instruction.jumpIfFalse distance node).act budget ev = some (r, after)) :
    Acts ev (.jumpIfFalse distance node) r after := by
  rw [Instruction.act, bind_apply, blaming_apply] at h
  cases hp : popValue ev with
  | none => simp [hp] at h
  | some popped =>
    obtain ⟨found, mid⟩ := popped
    rcases popValue_cases hp with ⟨value, lower, hi, hb, rfl, rfl⟩ | ⟨hl, rfl, rfl⟩
    · have fails (x : Exception) (hx : x.kind = .insufficientValues → .exception x = value) :
          Acts ev (.jumpIfFalse distance node) (.error x) (ev.withItems lower) :=
        .fails x [value] lower hi (Or.inr hb) (.refl _)
          fun hk => Or.inr (Or.inl ⟨x, by simp [hi, hx hk]⟩)
      simp only [hp, Option.map_some, mapError_ok, Option.bind_some, continuing_ok] at h
      cases value with
      | boolean b =>
        cases b <;> simp only [pure_apply, modify_apply, Option.some.injEq, Prod.mk.injEq] at h <;>
          obtain ⟨rfl, rfl⟩ := h
        · exact .skips distance node hi hb
        · exact .holds distance node hi hb
      | exception x =>
        simp only [throw_apply, Option.some.injEq, Prod.mk.injEq] at h
        obtain ⟨rfl, rfl⟩ := h
        exact fails x fun _ => rfl
      | _ =>
        simp only [failAt_apply, Option.some.injEq, Prod.mk.injEq] at h
        obtain ⟨rfl, rfl⟩ := h
        exact fails _ nofun
    · simp only [hp, Option.map_some, mapError_error, Option.bind_some, continuing_error,
        Option.some.injEq, Prod.mk.injEq] at h
      obtain ⟨rfl, rfl⟩ := h
      refine .fails _ [] mid.stack.items rfl (Or.inl rfl) (.refl _) fun _ => Or.inl ?_
      simp only [Evaluator.operandsFor]
      omega

/-- Everything that an instruction can do. -/
theorem act_cases {budget : Nat} {i : Instruction} {ev after : Evaluator}
    {r : Except Exception Unit} (h : i.act budget ev = some (r, after)) : Acts ev i r after := by
  cases i with
  | start e =>
    simp only [Instruction.act, pure_apply, Option.some.injEq, Prod.mk.injEq] at h
    obtain ⟨rfl, rfl⟩ := h
    exact .starts e
  | finish e =>
    cases he : e.isCall with
    | false => exact acts_of_execute he h
    | true =>
      cases e with
      | call call =>
        rw [act_call] at h
        exact acts_of_executeCall h
      | _ => exact nomatch he
  | jump distance node =>
    simp only [Instruction.act, modify_apply, Option.some.injEq, Prod.mk.injEq] at h
    obtain ⟨rfl, rfl⟩ := h
    exact .jumps distance node
  | jumpIfFalse distance node => exact acts_of_condition h
  | halt node reason =>
    simp only [Instruction.act, failAt_apply, Option.some.injEq, Prod.mk.injEq] at h
    obtain ⟨rfl, rfl⟩ := h
    refine .fails _ [] ev.stack.items rfl (Or.inl rfl) (.refl ev) ?_
    cases reason <;> exact nofun

theorem Evaluator.advance_eq (ev : Evaluator) (distance : Nat) :
    ev.advance distance =
      { ev with frames := ev.frames.modifyHead (Frame.advance · distance) } := by
  obtain ⟨context, memo, options, globals, streams, pending, stack, frames⟩ := ev
  cases frames <;> rfl

/-- Instructions change neither what the host has set nor how the pass stands. -/
theorem Acts.rest {ev after : Evaluator} {i : Instruction} {r : Except Exception Unit}
    (h : Acts ev i r after) :
    after = { ev with
      memo := after.memo
      stack := after.stack
      frames := after.frames
      lowered := after.lowered
      nextScope := after.nextScope } := by
  cases h with
  | starts => rfl
  | jumps => rw [Evaluator.advance_eq]
  | holds => rfl
  | skips => rw [Evaluator.advance_eq]; rfl
  | yields values lower mid value he hi hn hb ho hm hv => rw [hm.rest]; rfl
  | idles values lower mid he hi hn hb ho hm => rw [hm.rest]; rfl
  | enters callee inputs values lower hi hc hn hb hs =>
    obtain ⟨mid, frame, hm, -, -⟩ := hs
    rw [hm.rest]
    rfl
  | fails x values lower hi hb hm => rw [hm.rest]; rfl

theorem Acts.outcome {ev after : Evaluator} {i : Instruction} {r : Except Exception Unit}
    (h : Acts ev i r after) : after.outcome = ev.outcome := by
  rw [h.rest]

theorem Acts.options {ev after : Evaluator} {i : Instruction} {r : Except Exception Unit}
    (h : Acts ev i r after) : after.options = ev.options := by
  rw [h.rest]

theorem Acts.context {ev after : Evaluator} {i : Instruction} {r : Except Exception Unit}
    (h : Acts ev i r after) : after.context = ev.context := by
  rw [h.rest]

theorem Evaluator.Evolves.frames_cons {ev after : Evaluator} {frame : Frame} {outer : List Frame}
    (h : ev.Evolves after) (hf : ev.frames = frame :: outer) :
    ∃ bindings, after.frames = { frame with bindings := bindings } :: outer := by
  obtain ⟨bindings, hb⟩ := h.frames
  exact ⟨bindings, by rw [hb, hf]; rfl⟩

/-- Instructions change no frame but the innermost, of which they change the cursor and the
bindings; they may start one frame on top of it. -/
theorem Acts.frames_cons {ev after : Evaluator} {i : Instruction} {r : Except Exception Unit}
    {frame : Frame} {outer : List Frame} (h : Acts ev i r after)
    (hf : ev.frames = frame :: outer) :
    ∃ started cursor bindings, after.frames =
      started ++ { frame with cursor := cursor, bindings := bindings } :: outer := by
  have same : ev.frames =
      [] ++ { frame with cursor := frame.cursor, bindings := frame.bindings } :: outer := hf
  have evolved {mid last : Evaluator} (hm : mid.Evolves last) (hmid : mid.frames = ev.frames) :
      ∃ bindings, last.frames =
        [] ++ { frame with cursor := frame.cursor, bindings := bindings } :: outer :=
    hm.frames_cons (hmid.trans hf)
  have advanced (distance : Nat) :
      ev.frames.modifyHead (Frame.advance · distance) =
        [] ++ { frame with cursor := frame.cursor + distance, bindings := frame.bindings } ::
          outer := by
    rw [hf]
    rfl
  cases h with
  | starts => exact ⟨_, _, _, same⟩
  | holds => exact ⟨_, _, _, same⟩
  | jumps distance =>
    rw [Evaluator.advance_eq]
    exact ⟨_, _, _, advanced distance⟩
  | skips distance =>
    rw [Evaluator.advance_eq]
    exact ⟨_, _, _, advanced (distance + 1)⟩
  | yields values lower mid value he hi hn hb ho hm hv =>
    obtain ⟨bindings, h⟩ := evolved hm rfl
    exact ⟨_, _, _, h⟩
  | idles values lower mid he hi hn hb ho hm =>
    obtain ⟨bindings, h⟩ := evolved hm rfl
    exact ⟨_, _, _, h⟩
  | enters callee inputs values lower hi hc hn hb hs =>
    obtain ⟨mid, new, hm, -, -⟩ := hs
    obtain ⟨bindings, h⟩ := evolved hm rfl
    exact ⟨[{ new with base := mid.stack.height }], _, _, congrArg (_ :: ·) h⟩
  | fails x values lower hi hb hm =>
    obtain ⟨bindings, h⟩ := evolved hm rfl
    exact ⟨_, _, _, h⟩

/-- Instructions take no frame away. -/
theorem Acts.le_length_frames {ev after : Evaluator} {i : Instruction} {r : Except Exception Unit}
    (h : Acts ev i r after) : ev.frames.length ≤ after.frames.length := by
  cases h with
  | starts => exact Nat.le_refl _
  | jumps => simp [Evaluator.advance_eq]
  | holds => exact Nat.le_refl _
  | skips => simp [Evaluator.advance_eq]
  | yields values lower mid value he hi hn hb ho hm hv => exact Nat.le_of_eq hm.length_frames.symm
  | idles values lower mid he hi hn hb ho hm => exact Nat.le_of_eq hm.length_frames.symm
  | enters callee inputs values lower hi hc hn hb hs =>
    obtain ⟨mid, frame, hm, -, -⟩ := hs
    exact Nat.le_succ_of_le (Nat.le_of_eq hm.length_frames.symm)
  | fails x values lower hi hb hm => exact Nat.le_of_eq hm.length_frames.symm

/-! ## Finished frames -/

namespace Evaluator

/-- What becomes of the result of a frame, given the frames below: it is pushed for the next of
them, or ends the pass. -/
def deliver (ev : Evaluator) (value : Value) (outer : List Frame) : Step × Evaluator :=
  match value with
  | .exception x => { ev with frames := outer }.halt x
  | value =>
    match outer with
    | [] => { ev with frames := [] }.finishPass (.produced value)
    | caller :: outer =>
      { ev with frames := caller :: outer, stack := ev.stack.push value }.completeFrames

theorem completeFrames_nil {ev : Evaluator} (hf : ev.frames = []) :
    ev.completeFrames = (.running, ev) := by
  rw [completeFrames, hf, completeAll, ← hf]

theorem completeFrames_active {ev : Evaluator} {frame : Frame} {outer : List Frame}
    (hf : ev.frames = frame :: outer) (hd : frame.isDone = false) :
    ev.completeFrames = (.running, ev) := by
  rw [completeFrames, hf, completeAll, if_neg (by simp [hd]), ← hf]

/-- The result of a frame without instructions: the instance that it has built, or the value on top
of the stack, if it has left one above its base. -/
def result? (ev : Evaluator) (frame : Frame) : Option Value :=
  match frame.kind with
  | .struct definition => some (.struct definition (frame.capture (.captured ev.nextScope)))
  | _ => (ev.stack.popAbove frame.base).map Prod.fst

/-- The evaluator after the result of a frame has been taken: the stack is as high as it was when
the frame started, and an instance has drawn an identity for its scope. -/
def cleared (ev : Evaluator) (frame : Frame) : Evaluator :=
  { ev with
    stack := ev.stack.truncate frame.base
    nextScope :=
      match frame.kind with
      | .struct _ => ev.nextScope + 1
      | _ => ev.nextScope }

/-- Nothing above the base of a frame is looked at when the stack is cut down to the base. -/
theorem truncate_of_popAbove {stack lower : Stack Value} {base : Nat} {value : Value}
    (h : stack.popAbove base = some (value, lower)) :
    lower.truncate base = stack.truncate base := by
  unfold Stack.popAbove at h
  split at h
  · exact nomatch h
  · rename_i top rest hi
    split at h
    · rename_i hlt
      simp only [Option.some.injEq, Prod.mk.injEq] at h
      obtain ⟨rfl, rfl⟩ := h
      have hn : stack.height = rest.length + 1 := by simp [Stack.height, hi]
      have hd : stack.height - base = rest.length - base + 1 := by omega
      simp only [Stack.truncate, hd, hi, List.drop_succ_cons]
      rfl
    · exact nomatch h

/-- A frame without instructions hands its result down. -/
theorem completeFrames_done {ev : Evaluator} {frame : Frame} {outer : List Frame}
    (hf : ev.frames = frame :: outer) (hd : frame.isDone = true) :
    ev.completeFrames =
      match ev.result? frame with
      | some value => (ev.cleared frame).deliver value outer
      | none =>
        { ev with frames := outer }.halt
          { kind := .noValue, node := some frame.node, frame := frame.definition? } := by
  rw [completeFrames, hf, completeAll, if_pos hd]
  cases hk : frame.kind with
  | struct definition =>
    simp only [frameResult, result?, cleared, hk]
    cases outer <;> rfl
  | _ =>
    cases hp : ev.stack.popAbove frame.base with
    | none =>
      simp only [frameResult, result?, hk, hp]
      rfl
    | some popped =>
      obtain ⟨value, lower⟩ := popped
      simp only [frameResult, result?, cleared, hk, hp, truncate_of_popAbove hp, Option.map_some]
      cases value <;> cases outer <;> rfl

theorem deliver_nil {ev : Evaluator} {value : Value} (hv : value.isException = false) :
    ev.deliver value [] = { ev with frames := [] }.finishPass (.produced value) := by
  cases value <;> first | rfl | exact nomatch hv

theorem deliver_cons {ev : Evaluator} {value : Value} {caller : Frame} {outer : List Frame}
    (hv : value.isException = false) :
    ev.deliver value (caller :: outer) =
      { ev with frames := caller :: outer, stack := ev.stack.push value }.completeFrames := by
  cases value <;> first | rfl | exact nomatch hv

/-- The evaluator after the innermost frame has handed a value to the frame that called it. -/
def handDown (ev : Evaluator) (frame : Frame) (value : Value) (outer : List Frame) : Evaluator :=
  { ev.cleared frame with
    frames := outer
    stack := (ev.stack.truncate frame.base).push value }

/-- How finished frames hand their results down: while the innermost frame has no instructions left,
its result goes to the frame that called it. -/
inductive HandsDown : Evaluator → Step × Evaluator → Prop
  | idle {ev : Evaluator} (hf : ev.frames = []) : HandsDown ev (.running, ev)
  | active {ev : Evaluator} {frame : Frame} {outer : List Frame} (hf : ev.frames = frame :: outer)
      (hd : frame.isDone = false) : HandsDown ev (.running, ev)
  | noValue {ev : Evaluator} {frame : Frame} {outer : List Frame} (hf : ev.frames = frame :: outer)
      (hd : frame.isDone = true) (hr : ev.result? frame = none) :
      HandsDown ev ({ ev with frames := outer }.halt
        { kind := .noValue, node := some frame.node, frame := frame.definition? })
  | exception {ev : Evaluator} {frame : Frame} {outer : List Frame} {x : Exception}
      (hf : ev.frames = frame :: outer) (hd : frame.isDone = true)
      (hr : ev.result? frame = some (.exception x)) :
      HandsDown ev ({ ev.cleared frame with frames := outer }.halt x)
  | produces {ev : Evaluator} {frame : Frame} {value : Value} (hf : ev.frames = [frame])
      (hd : frame.isDone = true) (hr : ev.result? frame = some value)
      (hv : value.isException = false) :
      HandsDown ev ({ ev.cleared frame with frames := [] }.finishPass (.produced value))
  | hands {ev : Evaluator} {frame caller : Frame} {outer : List Frame} {value : Value}
      {r : Step × Evaluator} (hf : ev.frames = frame :: caller :: outer)
      (hd : frame.isDone = true) (hr : ev.result? frame = some value)
      (hv : value.isException = false)
      (h : HandsDown (ev.handDown frame value (caller :: outer)) r) : HandsDown ev r

theorem handsDown_completeFrames (ev : Evaluator) : HandsDown ev ev.completeFrames := by
  induction hn : ev.frames.length generalizing ev with
  | zero =>
    have hf := List.length_eq_zero_iff.1 hn
    rw [completeFrames_nil hf]
    exact .idle hf
  | succ n ih =>
    obtain ⟨frame, outer, hf⟩ := List.exists_cons_of_length_eq_add_one hn
    cases hd : frame.isDone with
    | false =>
      rw [completeFrames_active hf hd]
      exact .active hf hd
    | true =>
      rw [completeFrames_done hf hd]
      cases hr : ev.result? frame with
      | none => exact .noValue hf hd hr
      | some value =>
        cases hv : value.isException with
        | true =>
          obtain ⟨x, rfl⟩ := Value.isException_iff.1 hv
          exact .exception hf hd hr
        | false =>
          cases outer with
          | nil =>
            simp only [deliver_nil hv]
            exact .produces hf hd hr hv
          | cons caller outer =>
            simp only [deliver_cons hv]
            have hlen : (caller :: outer).length = n := by simpa [hf] using hn
            exact .hands hf hd hr hv (ih (ev.handDown frame value (caller :: outer)) hlen)

/-- Handing results down comes to nothing else. -/
theorem HandsDown.completeFrames_eq {ev : Evaluator} {r : Step × Evaluator} (h : HandsDown ev r) :
    ev.completeFrames = r := by
  induction h with
  | idle hf => exact completeFrames_nil hf
  | active hf hd => exact completeFrames_active hf hd
  | noValue hf hd hr => rw [completeFrames_done hf hd, hr]
  | exception hf hd hr => rw [completeFrames_done hf hd, hr]; rfl
  | produces hf hd hr hv =>
    rw [completeFrames_done hf hd, hr]
    exact deliver_nil hv
  | hands hf hd hr hv _ ih =>
    rw [completeFrames_done hf hd, hr]
    exact (deliver_cons hv).trans ih

/-! ## Moves -/

/-- The evaluator as the next instruction finds it, with the cursor behind the instruction. -/
def fetch (ev : Evaluator) (frame : Frame) (outer : List Frame) (i : Instruction) : Evaluator :=
  { ev with
    frames := frame.advance 1 :: outer
    steps := ev.steps + 1
    last := some (i.node, i.isBoundary) }

/-- A step lets the next instruction act and settles what has come of it. -/
theorem step_eq (budget : Nat) {ev : Evaluator} {frame : Frame} {outer : List Frame}
    (ho : ev.outcome = none) (hl : ev.reachedLimit? = none) (hf : ev.frames = frame :: outer) :
    ev.step budget =
      match frame.current? with
      | none => some ev.completeFrames
      | some i => (i.act budget (ev.fetch frame outer i)).map settle := by
  have hstep : ev.step budget = stepInstruction budget ev := by simp only [step, ho, hl]
  rw [hstep, stepInstruction, hf]
  dsimp only
  cases frame.current? with
  | none => rfl
  | some i => exact perform_eq budget (ev.fetch frame outer i) i

/-- An exception that ends the pass, with the evaluator that it is raised in. -/
inductive Raises (ev : Evaluator) : Exception → Evaluator → Prop
  /-- An instruction fails. -/
  | act (budget : Nat) {frame : Frame} {outer : List Frame} {i : Instruction} {x : Exception}
      {mid : Evaluator} (hf : ev.frames = frame :: outer) (hc : frame.current? = some i)
      (ha : i.act budget (ev.fetch frame outer i) = some (.error x, mid)) : Raises ev x mid
  /-- The result of a frame is an exception. -/
  | result {frame : Frame} {outer : List Frame} {x : Exception} (hf : ev.frames = frame :: outer)
      (hd : frame.isDone = true) (hr : ev.result? frame = some (.exception x)) :
      Raises ev x { ev.cleared frame with frames := outer }
  /-- A frame has no result. -/
  | noValue {frame : Frame} {outer : List Frame} (hf : ev.frames = frame :: outer)
      (hd : frame.isDone = true) (hr : ev.result? frame = none) :
      Raises ev { kind := .noValue, node := some frame.node, frame := frame.definition? }
        { ev with frames := outer }
  /-- There is nothing to evaluate. -/
  | idle (hf : ev.frames = []) : Raises ev { kind := .noValue } ev
  | limit {limit : Nat} (hl : ev.reachedLimit? = some limit) :
      Raises ev (ev.exception (.stepLimit limit)) ev

/-- The smallest things that happen between one pass and the next. -/
inductive Moves : Evaluator → Evaluator → Prop
  /-- The instruction under the cursor acts. -/
  | acts (budget : Nat) {ev after : Evaluator} {frame : Frame} {outer : List Frame}
      {i : Instruction} (ho : ev.outcome = none) (hf : ev.frames = frame :: outer)
      (hc : frame.current? = some i)
      (ha : i.act budget (ev.fetch frame outer i) = some (.ok (), after)) : Moves ev after
  /-- A frame without instructions hands its result to the frame that called it. -/
  | hands {ev : Evaluator} {frame caller : Frame} {outer : List Frame} {value : Value}
      (ho : ev.outcome = none) (hf : ev.frames = frame :: caller :: outer)
      (hd : frame.isDone = true) (hr : ev.result? frame = some value)
      (hv : value.isException = false) : Moves ev (ev.handDown frame value (caller :: outer))
  /-- The result of the outermost frame is the result of the pass. -/
  | produces {ev : Evaluator} {frame : Frame} {value : Value} (ho : ev.outcome = none)
      (hf : ev.frames = [frame]) (hd : frame.isDone = true) (hr : ev.result? frame = some value)
      (hv : value.isException = false) :
      Moves ev { ev.cleared frame with frames := [], outcome := some (.produced value) }
  | halts {ev mid : Evaluator} {x : Exception} (ho : ev.outcome = none) (hx : ev.Raises x mid) :
      Moves ev { mid with outcome := some (.halted x) }
  | injects (ev : Evaluator) (stream : String) (value : Value) : Moves ev (ev.inject stream value)
  | defines (ev : Evaluator) (name : String) (value : Value) :
      Moves ev (ev.defineGlobal name value)

/-- Any number of moves. -/
abbrev Progresses : Evaluator → Evaluator → Prop :=
  Relation.ReflTransGen Moves

/-- A move of the machine itself, which leaves alone what the host has supplied. -/
structure Works (ev after : Evaluator) : Prop where
  moves : ev.Moves after
  globals : after.globals = ev.globals
  streams : after.streams = ev.streams

/-- Any number of such moves. -/
abbrev Runs : Evaluator → Evaluator → Prop :=
  Relation.ReflTransGen Works

theorem Runs.progresses {ev after : Evaluator} (h : ev.Runs after) : ev.Progresses after := by
  induction h with
  | refl => exact .refl
  | tail _ hw ih => exact ih.tail hw.moves

theorem works_of_act {budget : Nat} {ev after : Evaluator} {frame : Frame} {outer : List Frame}
    {i : Instruction} (ho : ev.outcome = none) (hf : ev.frames = frame :: outer)
    (hc : frame.current? = some i)
    (ha : i.act budget (ev.fetch frame outer i) = some (.ok (), after)) : ev.Works after := by
  have hrest := (act_cases ha).rest
  exact ⟨.acts budget ho hf hc ha, by rw [hrest]; rfl, by rw [hrest]; rfl⟩

theorem Raises.works {ev mid : Evaluator} {x : Exception} (h : ev.Raises x mid)
    (ho : ev.outcome = none) : ev.Works { mid with outcome := some (.halted x) } := by
  have hkeep : mid.globals = ev.globals ∧ mid.streams = ev.streams := by
    cases h with
    | act budget hf hc ha =>
      have hrest := (act_cases ha).rest
      exact ⟨by rw [hrest]; rfl, by rw [hrest]; rfl⟩
    | _ => exact ⟨rfl, rfl⟩
  exact ⟨.halts ho h, hkeep.1, hkeep.2⟩

/-- Finished frames hand their results down in moves. -/
theorem runs_completeFrames (ev : Evaluator) (ho : ev.outcome = none) :
    ev.Runs ev.completeFrames.2 := by
  have h := handsDown_completeFrames ev
  generalize ev.completeFrames = r at h
  induction h with
  | idle | active => exact .refl
  | noValue hf hd hr => exact .single ((Raises.noValue hf hd hr).works ho)
  | exception hf hd hr => exact .single ((Raises.result hf hd hr).works ho)
  | produces hf hd hr hv => exact .single ⟨.produces ho hf hd hr hv, rfl, rfl⟩
  | hands hf hd hr hv _ ih => exact .head ⟨.hands ho hf hd hr hv, rfl, rfl⟩ (ih ho)

/-- A step is a number of moves. -/
theorem runs_of_step {budget : Nat} {ev after : Evaluator} {answer : Step}
    (h : ev.step budget = some (answer, after)) : ev.Runs after := by
  unfold step at h
  split at h
  · simp only [Option.some.injEq, Prod.mk.injEq] at h
    rw [h.2]
  · rename_i ho
    split at h
    · rename_i limit hl
      simp only [Option.some.injEq, halt, finishPass, Prod.mk.injEq] at h
      rw [← h.2]
      exact .single ((Raises.limit hl).works ho)
    · unfold stepInstruction at h
      split at h
      · rename_i hf
        simp only [Option.some.injEq, halt, finishPass, Prod.mk.injEq] at h
        rw [← h.2]
        exact .single ((Raises.idle hf).works ho)
      · rename_i frame outer hf
        split at h
        · have := ev.runs_completeFrames ho
          rwa [Option.some.inj h] at this
        · rename_i i hc
          have h : perform budget (ev.fetch frame outer i) i = some (answer, after) := h
          rw [perform_eq, Option.map_eq_some_iff] at h
          obtain ⟨⟨r, mid⟩, ha, hs⟩ := h
          cases r with
          | error x =>
            obtain rfl : { mid with outcome := some (.halted x) } = after := congrArg Prod.snd hs
            exact .single ((Raises.act budget hf hc ha).works ho)
          | ok =>
            have hmid : mid.outcome = none := (act_cases ha).outcome.trans ho
            have := mid.runs_completeFrames hmid
            rw [show mid.completeFrames = (answer, after) from hs] at this
            exact .head (works_of_act ho hf hc ha) this

/-- An answer of a number of steps is a number of moves. -/
theorem runs_of_stepToBoundary {budget fuel : Nat} {ev after : Evaluator} {answer : Step}
    (h : ev.stepToBoundary budget fuel = some (answer, after)) : ev.Runs after := by
  induction fuel generalizing ev with
  | zero => exact nomatch h
  | succ fuel ih =>
    rw [stepToBoundary] at h
    split at h
    · exact nomatch h
    · rename_i outcome last hs
      simp only [Option.some.injEq, Prod.mk.injEq] at h
      exact h.2 ▸ runs_of_step hs
    · rename_i next hs
      split at h
      · simp only [Option.some.injEq, Prod.mk.injEq] at h
        exact h.2 ▸ runs_of_step hs
      · exact (runs_of_step hs).trans (ih h)

theorem runs_of_run {budget fuel : Nat} {ev after : Evaluator} {outcome : Outcome}
    (h : ev.run budget fuel = some (outcome, after)) : ev.Runs after := by
  induction fuel generalizing ev with
  | zero => exact nomatch h
  | succ fuel ih =>
    rw [run] at h
    split at h
    · exact nomatch h
    · rename_i ended last hs
      simp only [Option.some.injEq, Prod.mk.injEq] at h
      exact h.2 ▸ runs_of_step hs
    · rename_i next hs
      exact (runs_of_step hs).trans (ih h)

theorem outcome_of_completeFrames {ev : Evaluator} {outcome : Outcome}
    (h : ev.completeFrames.1 = .ended outcome) : ev.completeFrames.2.outcome = some outcome := by
  have hdown := handsDown_completeFrames ev
  generalize ev.completeFrames = r at h hdown
  induction hdown with
  | idle | active => exact nomatch h
  | noValue | exception | produces => exact congrArg some (Step.ended.inj h)
  | hands _ _ _ _ _ ih => exact ih h

/-- A step that answers that the pass has ended leaves it ended in this way. -/
theorem outcome_of_step {budget : Nat} {ev after : Evaluator} {outcome : Outcome}
    (h : ev.step budget = some (.ended outcome, after)) : after.outcome = some outcome := by
  unfold step at h
  split at h
  · rename_i ended ho
    simp only [Option.some.injEq, Prod.mk.injEq, Step.ended.injEq] at h
    rw [← h.2, ho, h.1]
  · split at h
    · simp only [Option.some.injEq, halt, finishPass, Prod.mk.injEq, Step.ended.injEq] at h
      rw [← h.2, ← h.1]
    · unfold stepInstruction at h
      split at h
      · simp only [Option.some.injEq, halt, finishPass, Prod.mk.injEq, Step.ended.injEq] at h
        rw [← h.2, ← h.1]
      · rename_i frame outer hf
        split at h
        · have hended : ev.completeFrames.1 = .ended outcome := by rw [Option.some.inj h]
          have := outcome_of_completeFrames hended
          rwa [Option.some.inj h] at this
        · rename_i i hc
          have h : perform budget (ev.fetch frame outer i) i = some (.ended outcome, after) := h
          rw [perform_eq, Option.map_eq_some_iff] at h
          obtain ⟨⟨r, mid⟩, ha, hs⟩ := h
          cases r with
          | error x =>
            obtain ⟨houtcome, rfl⟩ := Prod.mk.inj hs
            exact congrArg some (Step.ended.inj houtcome)
          | ok =>
            have hs : mid.completeFrames = (.ended outcome, after) := hs
            have := outcome_of_completeFrames (congrArg Prod.fst hs)
            rwa [hs] at this

theorem outcome_of_run {budget fuel : Nat} {ev after : Evaluator} {outcome : Outcome}
    (h : ev.run budget fuel = some (outcome, after)) : after.outcome = some outcome := by
  induction fuel generalizing ev with
  | zero => exact nomatch h
  | succ fuel ih =>
    rw [run] at h
    split at h
    · exact nomatch h
    · rename_i ended last hs
      obtain ⟨rfl, rfl⟩ := Prod.mk.inj (Option.some.inj h)
      exact outcome_of_step hs
    · exact ih h

/-! ## Histories -/

/-- What a host can do with an evaluator. -/
inductive Serves (ev after : Evaluator) : Prop
  | beginPass (budget : Nat) (root : Expr) (h : ev.beginPass budget root = some after)
  | step (budget : Nat) (answer : Step) (h : ev.step budget = some (answer, after))
  | stepToBoundary (budget fuel : Nat) (answer : Step)
      (h : ev.stepToBoundary budget fuel = some (answer, after))
  | run (budget fuel : Nat) (outcome : Outcome) (h : ev.run budget fuel = some (outcome, after))
  | inject (stream : String) (value : Value) (h : after = ev.inject stream value)
  | defineGlobal (name : String) (value : Value) (h : after = ev.defineGlobal name value)

/-- The states that a host can bring an evaluator into. -/
abbrev Reaches : Evaluator → Evaluator → Prop :=
  Relation.ReflTransGen Serves

/-- A move, or the start of a pass. -/
inductive Turns (ev after : Evaluator) : Prop
  | begins (budget : Nat) (root : Expr) (h : ev.beginPass budget root = some after)
  | moves (h : ev.Moves after)

/-- The states that an evaluator passes through, those within a step included. -/
abbrev Passes : Evaluator → Evaluator → Prop :=
  Relation.ReflTransGen Turns

variable {ev after : Evaluator}

theorem Progresses.passes (h : ev.Progresses after) : ev.Passes after := by
  induction h with
  | refl => exact .refl
  | tail _ hm ih => exact ih.tail (.moves hm)

/-- Whatever a host does, the evaluator passes from one state to the next in moves. -/
theorem Serves.passes (h : ev.Serves after) : ev.Passes after := by
  cases h with
  | beginPass budget root h => exact .single (.begins budget root h)
  | step budget answer h => exact (runs_of_step h).progresses.passes
  | stepToBoundary budget fuel answer h => exact (runs_of_stepToBoundary h).progresses.passes
  | run budget fuel outcome h => exact (runs_of_run h).progresses.passes
  | inject stream value h => exact h ▸ .single (.moves (.injects ev stream value))
  | defineGlobal name value h => exact h ▸ .single (.moves (.defines ev name value))

theorem Reaches.passes (h : ev.Reaches after) : ev.Passes after := by
  induction h with
  | refl => exact .refl
  | tail _ hs ih => exact ih.trans hs.passes

/-- A pass begins with one frame on an empty stack, which runs the code of the root. -/
theorem beginPass_cases {budget : Nat} {root : Expr} (h : ev.beginPass budget root = some after) :
    ∃ code mid, codeOf budget root ev.reset = some (.ok code, mid) ∧
      after = { mid with
        frames :=
          [{ kind := .program, node := root.id, code := code, bindings := .empty,
             scope := .mk (.captured mid.nextScope) .empty none }]
        nextScope := mid.nextScope + 1 } := by
  unfold beginPass at h
  split at h
  · rename_i code mid hc
    exact ⟨code, mid, hc, (Option.some.inj h).symm⟩
  · rename_i x mid hc
    obtain ⟨code, hr, -⟩ := codeOf_cases hc
    exact nomatch hr
  · exact nomatch h

end Evaluator

end Stepwise

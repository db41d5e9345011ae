import Stepwise.Proofs.Machine.Aside
import Stepwise.Proofs.Machine.Isolation

/-!
# Code that is at hand

An evaluator keeps all the code that it lowers, so what it has done once it can do again without
lowering anything.  More generally, an action does the same where all the code is at hand that it
has in the end (`Action.Replays`), and then neither what has been found out nor what else has been
lowered matters.

This carries over from the code of expressions to instructions (`replays_act`), and from there to
the steps of a frame (`follow_replays`).  Code stays at hand whatever a host does with the evaluator
afterwards (`holds_of_reaches`).
-/

namespace Stepwise

open Stepwise.Action

/-- All the code that the evaluator has lowered is at hand. -/
def Aside.Holds (a : Aside) (ev : Evaluator) : Prop :=
  ∀ id code, ev.lowered.find? id = some code → a.lowered.find? id = some code

theorem Aside.Holds.of_lowered {a : Aside} {ev after : Evaluator} (ha : a.Holds after)
    (h : after.lowered = ev.lowered) : a.Holds ev :=
  fun id code hcode => ha id code (h ▸ hcode)

/-! ## Actions -/

namespace Action

variable {α β : Type}

/-- An action that lowers at most what it keeps, and does the same where this is at hand. -/
structure Replays (m : Action α) : Prop where
  before : ∀ {ev after : Evaluator} {r} {a : Aside}, m ev = some (r, after) → a.Holds after →
    a.Holds ev
  again : ∀ {ev after : Evaluator} {r} {a : Aside}, m ev = some (r, after) → a.Holds after →
    m (ev.withAside a) = some (r, after.withAside a)

theorem Oblivious.replays {m : Action α} (hm : Oblivious m) : Replays m := by
  refine ⟨fun {ev after r a} h hafter => ?_, fun {ev after r a} h _ => ?_⟩
  · have hown := hm.same ev ev.aside
    rw [Evaluator.withAside_aside, h, Option.map_some, Option.some.injEq, Prod.mk.injEq] at hown
    exact hafter.of_lowered (by rw [hown.2]; rfl)
  · rw [hm.same, h, Option.map_some]

theorem Replays.bind {m : Action α} {f : α → Action β} (hm : Replays m)
    (hf : ∀ value, Replays (f value)) : Replays (m >>= f) := by
  refine ⟨fun {ev after r a} h hafter => ?_, fun {ev after r a} h hafter => ?_⟩
  · rcases bind_eq_some h with ⟨value, mid, hfirst, hsecond⟩ | ⟨x, hx, -⟩
    · exact hm.before hfirst ((hf value).before hsecond hafter)
    · exact hm.before hx hafter
  · rw [bind_apply]
    rcases bind_eq_some h with ⟨value, mid, hfirst, hsecond⟩ | ⟨x, hx, rfl⟩
    · rw [hm.again hfirst ((hf value).before hsecond hafter), Option.bind_some, continuing_ok]
      exact (hf value).again hsecond hafter
    · rw [hm.again hx hafter, Option.bind_some, continuing_error]

theorem Replays.blaming {m : Action α} (node : NodeId) (hm : Replays m) :
    Replays (blaming node m) := by
  refine ⟨fun {ev after r a} h hafter => ?_, fun {ev after r a} h hafter => ?_⟩
  · obtain ⟨r', hr, -⟩ := blaming_eq_some h
    exact hm.before hr hafter
  · obtain ⟨r', hr, rfl⟩ := blaming_eq_some h
    rw [blaming_apply, hm.again hr hafter, Option.map_some]

/-- Code that is lowered is kept, so it is at hand afterwards. -/
theorem replays_codeOf (budget : Nat) (e : Expr) : Replays (codeOf budget e) := by
  refine ⟨fun {ev after r a} h hafter => ?_, fun {ev after r a} h hafter => ?_⟩
  · obtain ⟨code, rfl, ⟨-, rfl⟩ | ⟨memo, hnone, -, rfl⟩⟩ := codeOf_cases h
    · exact hafter
    · intro id found hfound
      refine hafter id found ?_
      by_cases hid : id = e.id
      · rw [hid, hnone] at hfound
        cases hfound
      · simpa [Assoc.find?_insert, hid, Ne.symm hid] using hfound
  · obtain ⟨code, rfl, ⟨hfound, rfl⟩ | ⟨memo, -, -, rfl⟩⟩ := codeOf_cases h
    · exact codeOf_of_find? (hafter e.id code hfound)
    · exact codeOf_of_find? (hafter e.id code (by simp [Assoc.find?_insert]))

theorem replays_prepare (budget : Nat) (call : Call) (values : List Value) (callee : Value) :
    Replays (prepare budget call values callee) := by
  have arguments (inputs : List Binder) : Replays (argumentBindings call inputs values) := by
    unfold argumentBindings
    split
    · exact (oblivious_pure _).replays
    · exact (oblivious_throw _).replays
  cases callee with
  | function f scope =>
    refine (arguments f.inputs).bind fun bindings => Replays.blaming call.id ?_
    unfold prepareFunction
    cases f.body with
    | none => exact (oblivious_failWith _).replays
    | some body => exact (replays_codeOf budget body).bind fun _ => (oblivious_pure _).replays
  | structDef s scope =>
    refine (arguments s.inputs).bind fun bindings => Replays.blaming call.id ?_
    have hblock : Replays (blockCode budget s) := by
      rcases blockCode_eq budget s with h | ⟨block, h⟩ <;> rw [h]
      · exact (oblivious_pure _).replays
      · exact replays_codeOf budget block
    exact hblock.bind fun _ => (oblivious_freshScope.bind fun _ => oblivious_pure _).replays
  | _ => exact (oblivious_failAt ..).replays

theorem replays_prepareCall (budget : Nat) (call : Call) : Replays (prepareCall budget call) := by
  refine oblivious_popOperand.replays.bind fun callee => ?_
  cases callee.declaredInputs? with
  | none => exact (oblivious_failAt ..).replays
  | some inputs =>
    exact (oblivious_popOperands _).replays.bind fun values => replays_prepare ..

/-- Calls are the only instructions that lower anything. -/
theorem replays_act (budget : Nat) (i : Instruction) : Replays (i.act budget) := by
  by_cases hi : ∃ call, i = .finish (.call call)
  · obtain ⟨call, rfl⟩ := hi
    rw [act_call, executeCall_eq]
    exact (replays_prepareCall budget call).bind fun frame =>
      ((oblivious_startFrame frame).blaming call.id).replays
  · exact (oblivious_act budget i fun call h => hi ⟨call, h⟩).2.replays

end Action

/-! ## Steps -/

namespace Progress

/-- The evaluator that is come to. -/
def evaluator : Progress → Evaluator
  | .going after => after
  | .returned _ after => after
  | .raised _ after => after

/-- The progress with something else laid aside. -/
def withAside (a : Aside) : Progress → Progress
  | .going after => .going (after.withAside a)
  | .returned value after => .returned value (after.withAside a)
  | .raised x after => .raised x (after.withAside a)

end Progress

/-- The fate with something else laid aside. -/
def Fate.withAside (a : Aside) : Fate → Fate
  | .active ev => .active (ev.withAside a)
  | .returned value => .returned value
  | .raised x => .raised x

namespace Evaluator

variable {ev after last : Evaluator} {a : Aside} {budget depth : Nat}

theorem cleared_withAside (ev : Evaluator) (frame : Frame) (a : Aside) :
    (ev.withAside a).cleared frame = (ev.cleared frame).withAside a := by
  unfold cleared
  cases frame.kind <;> rfl

theorem lowered_cleared (ev : Evaluator) (frame : Frame) :
    (ev.cleared frame).lowered = ev.lowered := by
  unfold cleared
  cases frame.kind <;> rfl

/-- Frames hand their results down, whatever has been laid aside. -/
theorem completeAbove_withAside (ev : Evaluator) (frames : List Frame) :
    (ev.withAside a).completeAbove depth frames =
      (ev.completeAbove depth frames).withAside a := by
  induction frames generalizing ev with
  | nil => rfl
  | cons frame outer ih =>
    cases hd : frame.isDone with
    | false =>
      rw [completeAbove_active hd, completeAbove_active hd]
      rfl
    | true =>
      have hresult : (ev.withAside a).result? frame = ev.result? frame := rfl
      cases hr : ev.result? frame with
      | none =>
        rw [completeAbove_noValue hd hr, completeAbove_noValue hd (hresult.trans hr)]
        rfl
      | some value =>
        cases hv : value.isException with
        | true =>
          obtain ⟨x, rfl⟩ := Value.isException_iff.1 hv
          rw [completeAbove_exception hd hr, completeAbove_exception hd (hresult.trans hr),
            cleared_withAside]
          rfl
        | false =>
          rw [completeAbove_value hd hr hv, completeAbove_value hd (hresult.trans hr) hv]
          by_cases hlast : outer.length = depth
          · rw [if_pos hlast, if_pos hlast, cleared_withAside]
            rfl
          · have hdown : (ev.withAside a).handDown frame value outer =
                (ev.handDown frame value outer).withAside a := by
              unfold handDown
              rw [cleared_withAside]
              rfl
            rw [if_neg hlast, if_neg hlast, hdown]
            exact ih (ev.handDown frame value outer)

/-- Handing results down lowers nothing. -/
theorem lowered_completeAbove (ev : Evaluator) (frames : List Frame) :
    (ev.completeAbove depth frames).evaluator.lowered = ev.lowered := by
  have hown : (ev.withAside ev.aside).completeAbove depth frames = _ :=
    completeAbove_withAside ev frames
  rw [withAside_aside] at hown
  rw [hown]
  cases ev.completeAbove depth frames <;> rfl

/-- An instruction that a frame executes, and what comes of it. -/
theorem progress_of_act {frame : Frame} {outer : List Frame} {i : Instruction}
    (hf : ev.frames = frame :: outer) (hc : frame.current? = some i) :
    ev.progress budget depth = (i.act budget (ev.fetch frame outer i)).map fun done =>
      match done.1 with
      | .ok _ => done.2.completeAbove depth done.2.frames
      | .error x => .raised x done.2 := by
  unfold progress
  rw [hf]
  simp only [hc]
  rcases i.act budget (ev.fetch frame outer i) with _ | ⟨_ | _, mid⟩ <;> rfl

/-- The frames above some others make the same progress where the code is at hand. -/
theorem progress_replays {p : Progress} (h : ev.progress budget depth = some p)
    (ha : a.Holds p.evaluator) : (ev.withAside a).progress budget depth = some (p.withAside a) := by
  cases hf : ev.frames with
  | nil =>
    have hf' : (ev.withAside a).frames = [] := hf
    unfold progress at h ⊢
    rw [hf] at h
    rw [hf']
    rw [← Option.some.inj h]
    rfl
  | cons frame outer =>
    have hf' : (ev.withAside a).frames = frame :: outer := hf
    cases hc : frame.current? with
    | none =>
      unfold progress at h ⊢
      rw [hf'] at ⊢
      simp only [hf, hc, Option.some.injEq] at h
      simp only [hc, ← h]
      exact congrArg some (completeAbove_withAside ev _)
    | some i =>
      rw [progress_of_act hf hc, Option.map_eq_some_iff] at h
      obtain ⟨⟨r, mid⟩, hact, rfl⟩ := h
      have hagain (hmid : a.Holds mid) :
          i.act budget ((ev.withAside a).fetch frame outer i) = some (r, mid.withAside a) :=
        (replays_act budget i).again hact hmid
      rw [progress_of_act hf' hc]
      cases r with
      | error x => rw [hagain ha, Option.map_some]; rfl
      | ok =>
        rw [hagain (ha.of_lowered (lowered_completeAbove mid mid.frames)), Option.map_some]
        exact congrArg some (completeAbove_withAside mid mid.frames)

/-- A step that no limit refuses is not refused where the code is at hand. -/
theorem not_atLimit_withAside {p : Progress} (hl : ¬ev.AtLimit budget)
    (h : ev.progress budget depth = some p) (ha : a.Holds p.evaluator) :
    ¬(ev.withAside a).AtLimit budget := by
  rintro (hlimit | ⟨hfull, frame, outer, call, made, mid, hf, hc, hp⟩)
  · exact hl (.inl hlimit)
  · have hf' : ev.frames = frame :: outer := hf
    rw [progress_of_act hf' hc, act_call, executeCall_eq, Option.map_eq_some_iff] at h
    obtain ⟨⟨r, last⟩, hact, rfl⟩ := h
    have hlast : a.Holds last := by
      cases r with
      | error x => exact ha
      | ok => exact ha.of_lowered (lowered_completeAbove last last.frames)
    have hstart (new : Frame) : Replays (blaming call.id (startFrame new)) :=
      ((oblivious_startFrame new).blaming call.id).replays
    rcases bind_eq_some hact with ⟨new, prepared, hprepare, hnew⟩ | ⟨x, hprepare, -⟩
    · exact hl (.inr ⟨hfull, frame, outer, call, new, prepared, hf', hc, hprepare⟩)
    · have hagain := (replays_prepareCall budget call).again hprepare hlast
      have hsame := hagain.symm.trans hp
      cases hsame

/-! ## Following a frame -/

/-- The evaluator after a number of steps. -/
def afterSteps (budget : Nat) : Nat → Evaluator → Option Evaluator
  | 0, ev => some ev
  | n + 1, ev => (ev.step budget).bind fun done => done.2.afterSteps budget n

theorem holds_of_act {frame : Frame} {outer : List Frame} {i : Instruction}
    {r : Except Exception Unit} (h : i.act budget (ev.fetch frame outer i) = some (r, after))
    (ha : a.Holds after) : a.Holds ev :=
  ((replays_act budget i).before h ha).of_lowered rfl

/-- Code stays at hand from one move to the next. -/
theorem holds_of_moves (h : ev.Moves after) (ha : a.Holds after) : a.Holds ev := by
  cases h with
  | acts budget ho hf hc hact => exact holds_of_act hact ha
  | @hands _ frame _ _ _ ho hf hd hr hv => exact ha.of_lowered (lowered_cleared ev frame)
  | @produces _ frame _ ho hf hd hr hv => exact ha.of_lowered (lowered_cleared ev frame)
  | halts ho hx =>
    cases hx with
    | act budget hf hc hact => exact holds_of_act hact ha
    | @result frame _ _ hf hd hr => exact ha.of_lowered (lowered_cleared ev frame)
    | _ => exact ha
  | _ => exact ha

/-- Code stays at hand whatever a host does. -/
theorem holds_of_passes (h : ev.Passes after) (ha : a.Holds after) : a.Holds ev := by
  induction h with
  | refl => exact ha
  | tail _ hturn ih =>
    refine ih ?_
    cases hturn with
    | moves hmoves => exact holds_of_moves hmoves ha
    | begins budget root hbegin =>
      obtain ⟨code, mid, hcode, rfl⟩ := beginPass_cases hbegin
      have hmid : a.Holds mid := ha
      exact ((replays_codeOf budget root).before hcode hmid).of_lowered rfl

theorem holds_of_step {answer : Step} (h : ev.step budget = some (answer, after))
    (ha : a.Holds after) : a.Holds ev :=
  holds_of_passes (runs_of_step h).progresses.passes ha

theorem holds_of_afterSteps {n : Nat} (h : ev.afterSteps budget n = some last)
    (ha : a.Holds last) : a.Holds ev := by
  induction n generalizing ev with
  | zero => exact Option.some.inj h ▸ ha
  | succ n ih =>
    obtain ⟨⟨answer, next⟩, hstep, hnext⟩ := Option.bind_eq_some_iff.1 h
    exact holds_of_step hstep (ih hnext)

/-- Going on beneath a frame lowers nothing. -/
theorem lowered_resume (outer : List Frame) (p : Progress) :
    (resume outer p).2.lowered = p.evaluator.lowered := by
  cases p with
  | going after => rfl
  | raised x after => rfl
  | returned value after =>
    cases hv : value.isException with
    | true =>
      obtain ⟨x, rfl⟩ := Value.isException_iff.1 hv
      rfl
    | false =>
      cases outer with
      | nil => rw [resume, deliver_nil hv]; rfl
      | cons caller outer =>
        rw [resume, deliver_cons hv]
        exact congrArg Aside.lowered (aside_completeFrames _)

/-- The frames above some others do the same in a number of steps, where the code is at hand that
the evaluator has lowered by the end of these steps. -/
theorem follow_replays {outer : List Frame} {n : Nat} (hacc : ev.Accounts budget outer n)
    (hl : ev.Unlimited budget outer.length n) (hlast : ev.afterSteps budget n = some last)
    (ha : a.Holds last) :
    (ev.withAside a).Unlimited budget outer.length n ∧
      ∃ executed fate, ev.follow budget outer.length n = some (executed, fate) ∧
        (ev.withAside a).follow budget outer.length n = some (executed, fate.withAside a) := by
  induction n generalizing ev with
  | zero => exact ⟨trivial, [], .active ev, rfl, rfl⟩
  | succ n ih =>
    obtain ⟨⟨answer, next⟩, hstep, hnext⟩ := Option.bind_eq_some_iff.1 hlast
    obtain ⟨p, hp, hresume⟩ := Option.map_eq_some_iff.1 (hacc.1.symm.trans hstep)
    have hholds : a.Holds p.evaluator := by
      have hkept := lowered_resume outer p
      rw [hresume] at hkept
      exact (holds_of_afterSteps hnext ha).of_lowered hkept
    have hp' := progress_replays hp hholds
    have hlimit := not_atLimit_withAside hl.1 hp hholds
    have hsame : (ev.withAside a).next? = ev.next? := rfl
    cases p with
    | returned value after =>
      refine ⟨⟨hlimit, fun other h => ?_⟩, [ev.next?], .returned value, ?_, ?_⟩
      · rw [hp'] at h
        cases h
      · simp only [follow, hp]
      · simp only [follow, hp', Progress.withAside, hsame]
        rfl
    | raised x after =>
      refine ⟨⟨hlimit, fun other h => ?_⟩, [ev.next?], .raised x, ?_, ?_⟩
      · rw [hp'] at h
        cases h
      · simp only [follow, hp]
      · simp only [follow, hp', Progress.withAside, hsame]
        rfl
    | going after =>
      obtain rfl : after = next := (Prod.mk.inj hresume).2
      obtain ⟨hafter, executed, fate, hfollow, hfollow'⟩ :=
        ih (hacc.2 after hp) (hl.2 after hp) hnext
      refine ⟨⟨hlimit, fun other h => ?_⟩, ev.next? :: executed, fate, ?_, ?_⟩
      · rw [hp'] at h
        obtain rfl := Progress.going.inj (Option.some.inj h)
        exact hafter
      · simp only [follow, hp, hfollow, Option.map_some]
      · simp only [follow, hp', Progress.withAside, hfollow', hsame, Option.map_some]

end Evaluator

end Stepwise

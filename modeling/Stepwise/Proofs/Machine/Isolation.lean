import Stepwise.Proofs.Machine.Transfer
import Stepwise.Proofs.Sample

/-!
# Isolation of frames

A frame of a function or of a structure can be told apart from its callers: whatever waits beneath
it, frames and values, has no influence on what it executes and hands down.

`Evaluator.progress` is what a step does as far as the frames above some others are concerned, and
`step_eq_resume` says that the step does nothing else before it goes on beneath.  `Evaluator.follow`
repeats this until the frame is gone.  `frame_isolation` compares two evaluators that agree on
everything but what lies beneath.
-/

namespace Stepwise

open Stepwise.Action

/-! ## Steps of a frame -/

/-- What a step does, as far as the frames above a number of frames are concerned. -/
inductive Progress where
  | going (after : Evaluator)
  /-- The lowest of these frames hands down its result. -/
  | returned (value : Value) (after : Evaluator)
  | raised (x : Exception) (after : Evaluator)

namespace Evaluator

/-- Hands results down as `completeFrames` does, but not into the lowest `depth` frames. -/
def completeAbove (ev : Evaluator) (depth : Nat) : List Frame → Progress
  | [] => .going { ev with frames := [] }
  | frame :: outer =>
    if frame.isDone then
      match ev.result? frame with
      | none =>
        .raised { kind := .noValue, node := some frame.node, frame := frame.definition? }
          { ev with frames := outer }
      | some (.exception x) => .raised x { ev.cleared frame with frames := outer }
      | some value =>
        if outer.length = depth then .returned value (ev.cleared frame)
        else (ev.handDown frame value outer).completeAbove depth outer
    else .going { ev with frames := frame :: outer }

/-- Executes an instruction of the frames above the lowest `depth`. -/
def progress (budget depth : Nat) (ev : Evaluator) : Option Progress :=
  match ev.frames with
  | [] => some (.raised { kind := .noValue } ev)
  | frame :: outer =>
    match frame.current? with
    | none => some (ev.completeAbove depth ev.frames)
    | some i =>
      match i.act budget (ev.fetch frame outer i) with
      | none => none
      | some (.ok _, mid) => some (mid.completeAbove depth mid.frames)
      | some (.error x, mid) => some (.raised x mid)

/-- How a step goes on beneath the frames above `outer`. -/
def resume (outer : List Frame) : Progress → Step × Evaluator
  | .going after => (.running, after)
  | .returned value after => after.deliver value outer
  | .raised x after => after.halt x

section Equations

variable {ev : Evaluator} {depth : Nat} {frame : Frame} {outer : List Frame}

theorem completeAbove_active (hd : frame.isDone = false) :
    ev.completeAbove depth (frame :: outer) = .going { ev with frames := frame :: outer } := by
  rw [completeAbove, if_neg (by simp [hd])]

theorem completeAbove_noValue (hd : frame.isDone = true) (hr : ev.result? frame = none) :
    ev.completeAbove depth (frame :: outer) =
      .raised { kind := .noValue, node := some frame.node, frame := frame.definition? }
        { ev with frames := outer } := by
  rw [completeAbove, if_pos hd, hr]

theorem completeAbove_exception {x : Exception} (hd : frame.isDone = true)
    (hr : ev.result? frame = some (.exception x)) :
    ev.completeAbove depth (frame :: outer) =
      .raised x { ev.cleared frame with frames := outer } := by
  rw [completeAbove, if_pos hd, hr]

theorem completeAbove_value {value : Value} (hd : frame.isDone = true)
    (hr : ev.result? frame = some value) (hv : value.isException = false) :
    ev.completeAbove depth (frame :: outer) =
      if outer.length = depth then .returned value (ev.cleared frame)
      else (ev.handDown frame value outer).completeAbove depth outer := by
  rw [completeAbove, if_pos hd, hr]
  cases value <;> first | rfl | exact nomatch hv

end Equations

theorem completeFrames_eq_resume {ev : Evaluator} (inner outer : List Frame) (hne : inner ≠ [])
    (hf : ev.frames = inner ++ outer) :
    ev.completeFrames = resume outer (ev.completeAbove outer.length ev.frames) := by
  induction inner generalizing ev with
  | nil => exact absurd rfl hne
  | cons frame rest ih =>
    rw [List.cons_append] at hf
    cases hd : frame.isDone with
    | false => rw [completeFrames_active hf hd, hf, completeAbove_active hd, resume, ← hf]
    | true =>
      rw [completeFrames_done hf hd, hf]
      cases hr : ev.result? frame with
      | none =>
        rw [completeAbove_noValue hd hr]
        rfl
      | some value =>
        cases hv : value.isException with
        | true =>
          obtain ⟨x, rfl⟩ := Value.isException_iff.1 hv
          rw [completeAbove_exception hd hr]
          rfl
        | false =>
          rw [completeAbove_value hd hr hv]
          cases rest with
          | nil => rw [List.nil_append, if_pos rfl, resume]
          | cons caller rest =>
            rw [if_neg (by simp only [List.length_append, List.length_cons]; omega)]
            simp only [List.cons_append, deliver_cons hv]
            have hlist : caller :: (rest ++ outer) = (caller :: rest) ++ outer := rfl
            rw [hlist]
            exact ih (by simp) rfl

/-- A step does what the frames above `outer` do, and goes on beneath them if their lowest has a
result. -/
theorem step_eq_resume (budget : Nat) {ev : Evaluator} {inner outer : List Frame}
    (hne : inner ≠ []) (hf : ev.frames = inner ++ outer) (ho : ev.outcome = none)
    (hl : ev.reachedLimit? = none) :
    ev.step budget = (ev.progress budget outer.length).map (resume outer) := by
  obtain ⟨frame, rest, rfl⟩ := List.exists_cons_of_ne_nil hne
  rw [List.cons_append] at hf
  rw [step_eq budget ho hl hf]
  unfold progress
  rw [hf]
  cases hc : frame.current? with
  | none =>
    simp only [hc, Option.map_some, Option.some.injEq]
    rw [← hf]
    exact completeFrames_eq_resume (frame :: rest) outer hne hf
  | some i =>
    cases ha : i.act budget (ev.fetch frame (rest ++ outer) i) with
    | none => simp only [hc, ha, Option.map_none]
    | some answer =>
      obtain ⟨r, mid⟩ := answer
      simp only [hc, ha, Option.map_some]
      cases r with
      | error x => rfl
      | ok =>
        obtain ⟨started, cursor, bindings, hmid⟩ := (act_cases ha).frames_cons rfl
        rw [← List.cons_append, ← List.append_assoc] at hmid
        exact congrArg some (completeFrames_eq_resume _ outer (by simp) hmid)

end Evaluator

/-! ## Following a frame -/

/-- What has become of a frame. -/
inductive Fate where
  /-- It is still active, perhaps beneath frames that it has started. -/
  | active (ev : Evaluator)
  /-- It has handed down its result. -/
  | returned (value : Value)
  /-- An exception has ended the pass. -/
  | raised (x : Exception)

namespace Evaluator

/-- The instruction under the cursor, if there is one. -/
def next? (ev : Evaluator) : Option Instruction :=
  ev.currentFrame?.bind Frame.current?

/-- What a number of steps execute and what becomes of the lowest of the frames above `depth`
others.  It has no result if lowering runs out of budget. -/
def follow (budget depth : Nat) : Nat → Evaluator → Option (List (Option Instruction) × Fate)
  | 0, ev => some ([], .active ev)
  | n + 1, ev =>
    match ev.progress budget depth with
    | none => none
    | some (.going after) =>
      (follow budget depth n after).map fun found => (ev.next? :: found.1, found.2)
    | some (.returned value _) => some ([ev.next?], .returned value)
    | some (.raised x _) => some ([ev.next?], .raised x)

/-- What is followed are the steps of the machine: each of them does what `progress` says and goes
on beneath. -/
def Accounts (budget : Nat) (outer : List Frame) : Nat → Evaluator → Prop
  | 0, _ => True
  | n + 1, ev =>
    ev.step budget = (ev.progress budget outer.length).map (resume outer) ∧
      ∀ after, ev.progress budget outer.length = some (.going after) →
        Accounts budget outer n after

/-- The next step is refused: the pass has executed all the instructions that it may, or a call has
made its frame and there are as many frames as there may be. -/
def AtLimit (budget : Nat) (ev : Evaluator) : Prop :=
  ev.reachedLimit?.isSome ∨
    ev.options.maxDepth ≤ ev.frames.length ∧
      ∃ frame outer call made mid, ev.frames = frame :: outer ∧
        frame.current? = some (.finish (.call call)) ∧
        prepareCall budget call (ev.fetch frame outer (.finish (.call call))) =
          some (.ok made, mid)

/-- None of a number of steps is refused, as long as the frame above `depth` others is active. -/
def Unlimited (budget depth : Nat) : Nat → Evaluator → Prop
  | 0, _ => True
  | n + 1, ev =>
    ¬ev.AtLimit budget ∧
      ∀ after, ev.progress budget depth = some (.going after) → Unlimited budget depth n after

/-- As long as a frame has not handed down its result, it stands on the frames beneath it. -/
theorem going_of_completeAbove {ev after : Evaluator} {inner outer : List Frame} (hne : inner ≠ [])
    (h : ev.completeAbove outer.length (inner ++ outer) = .going after) :
    after.outcome = ev.outcome ∧ ∃ left, left ≠ [] ∧ after.frames = left ++ outer := by
  induction inner generalizing ev with
  | nil => exact absurd rfl hne
  | cons frame rest ih =>
    rw [List.cons_append] at h
    cases hd : frame.isDone with
    | false =>
      rw [completeAbove_active hd, Progress.going.injEq] at h
      rw [← h]
      exact ⟨rfl, frame :: rest, hne, rfl⟩
    | true =>
      cases hr : ev.result? frame with
      | none => exact nomatch (completeAbove_noValue hd hr).symm.trans h
      | some value =>
        cases hv : value.isException with
        | true =>
          obtain ⟨x, rfl⟩ := Value.isException_iff.1 hv
          exact nomatch (completeAbove_exception hd hr).symm.trans h
        | false =>
          rw [completeAbove_value hd hr hv] at h
          cases rest with
          | nil => exact nomatch (if_pos rfl).symm.trans h
          | cons caller rest =>
            rw [if_neg (by simp only [List.length_append, List.length_cons]; omega)] at h
            have hgoing := ih (List.cons_ne_nil caller rest) h
            exact hgoing

theorem going_of_progress {budget : Nat} {ev after : Evaluator} {inner outer : List Frame}
    (hne : inner ≠ []) (hf : ev.frames = inner ++ outer)
    (h : ev.progress budget outer.length = some (.going after)) :
    after.outcome = ev.outcome ∧ ∃ left, left ≠ [] ∧ after.frames = left ++ outer := by
  obtain ⟨frame, rest, rfl⟩ := List.exists_cons_of_ne_nil hne
  unfold progress at h
  rw [hf, List.cons_append] at h
  dsimp only at h
  split at h
  · exact going_of_completeAbove hne (Option.some.inj h)
  · split at h
    · exact nomatch h
    · rename_i mid ha
      obtain ⟨started, cursor, bindings, hmid⟩ := (act_cases ha).frames_cons rfl
      rw [← List.cons_append, ← List.append_assoc] at hmid
      rw [hmid] at h
      obtain ⟨hout, hleft⟩ := going_of_completeAbove (by simp) (Option.some.inj h)
      exact ⟨hout.trans (act_cases ha).outcome, hleft⟩
    · exact nomatch h

/-- Frames that hand down their results leave the options alone and no frames behind but those
beneath them. -/
theorem room_of_completeAbove {ev after : Evaluator} {depth : Nat} {frames : List Frame}
    (h : ev.completeAbove depth frames = .going after) :
    after.options = ev.options ∧ after.frames.length ≤ frames.length := by
  induction frames generalizing ev with
  | nil =>
    cases h
    exact ⟨rfl, Nat.le_refl _⟩
  | cons frame outer ih =>
    cases hd : frame.isDone with
    | false =>
      rw [completeAbove_active hd, Progress.going.injEq] at h
      rw [← h]
      exact ⟨rfl, Nat.le_refl _⟩
    | true =>
      cases hr : ev.result? frame with
      | none => exact nomatch (completeAbove_noValue hd hr).symm.trans h
      | some value =>
        cases hv : value.isException with
        | true =>
          obtain ⟨x, rfl⟩ := Value.isException_iff.1 hv
          exact nomatch (completeAbove_exception hd hr).symm.trans h
        | false =>
          rw [completeAbove_value hd hr hv] at h
          by_cases hdepth : outer.length = depth
          · rw [if_pos hdepth] at h
            cases h
          · rw [if_neg hdepth] at h
            obtain ⟨hoptions, hlength⟩ := ih h
            exact ⟨hoptions, Nat.le_succ_of_le hlength⟩

/-- An instruction starts one frame at most. -/
theorem length_frames_le_of_acts {ev after : Evaluator} {i : Instruction}
    {r : Except Exception Unit} (h : Acts ev i r after) :
    after.frames.length ≤ ev.frames.length + 1 := by
  cases h with
  | starts => exact Nat.le_succ _
  | jumps => simp [Evaluator.advance_eq]
  | holds => exact Nat.le_succ _
  | skips => simp [Evaluator.advance_eq]
  | yields values lower mid value he hi hn hb ho hm hv =>
    exact Nat.le_succ_of_le (Nat.le_of_eq hm.length_frames)
  | idles values lower mid he hi hn hb ho hm =>
    exact Nat.le_succ_of_le (Nat.le_of_eq hm.length_frames)
  | enters callee inputs values lower hi hc hn hb hs =>
    obtain ⟨mid, frame, hm, -, -⟩ := hs
    exact Nat.succ_le_succ (Nat.le_of_eq hm.length_frames)
  | fails x values lower hi hb hm => exact Nat.le_succ_of_le (Nat.le_of_eq hm.length_frames)

/-- A step starts one frame at most. -/
theorem room_of_progress {budget depth : Nat} {ev after : Evaluator}
    (h : ev.progress budget depth = some (.going after)) :
    after.options = ev.options ∧ after.frames.length ≤ ev.frames.length + 1 := by
  unfold progress at h
  split at h
  · cases h
  · rename_i frame outer hf
    split at h
    · obtain ⟨hoptions, hlength⟩ := room_of_completeAbove (Option.some.inj h)
      exact ⟨hoptions, Nat.le_succ_of_le hlength⟩
    · rename_i i hc
      split at h
      · cases h
      · rename_i mid ha
        obtain ⟨hoptions, hlength⟩ := room_of_completeAbove (Option.some.inj h)
        refine ⟨hoptions.trans (act_cases ha).options, Nat.le_trans hlength ?_⟩
        have hmid := length_frames_le_of_acts (act_cases ha)
        rwa [show (ev.fetch frame outer i).frames.length = ev.frames.length by
          simp [fetch, hf]] at hmid
      · cases h

/-- Nothing is refused in a pass that may execute any number of instructions, while there is room
for a frame more in every step. -/
theorem unlimited_of_room {budget depth : Nat} {ev : Evaluator} {n : Nat}
    (hsteps : ev.options.maxSteps = none) (hroom : ev.frames.length + n ≤ ev.options.maxDepth) :
    ev.Unlimited budget depth n := by
  induction n generalizing ev with
  | zero => trivial
  | succ n ih =>
    refine ⟨?_, fun after h => ?_⟩
    · rintro (hlimit | ⟨hfull, -⟩)
      · rw [reachedLimit?, hsteps] at hlimit
        cases hlimit
      · omega
    · obtain ⟨hoptions, hlength⟩ := room_of_progress h
      refine ih (hoptions ▸ hsteps) ?_
      rw [hoptions]
      omega

end Evaluator

/-! ## The same steps -/

namespace Transfer

variable {τ : Transfer} {ev₁ ev₂ : Evaluator}

/-- The same progress, up to the place. -/
inductive Progresses (τ : Transfer) : Progress → Progress → Prop
  | going {after₁ after₂ : Evaluator} (h : τ.Matches after₁ after₂) :
      Progresses τ (.going after₁) (.going after₂)
  | returned (value : Value) {after₁ after₂ : Evaluator} :
      Progresses τ (.returned value after₁) (.returned (τ.value value) after₂)
  | raised (x : Exception) {after₁ after₂ : Evaluator} :
      Progresses τ (.raised x after₁) (.raised x after₂)

theorem Matches.completeAbove (h : τ.Matches ev₁ ev₂) :
    Progresses τ (ev₁.completeAbove τ.source.frames.length ev₁.frames)
      (ev₂.completeAbove τ.target.frames.length ev₂.frames) := by
  obtain ⟨inner, hne, habove, hf₁, hf₂⟩ := h.frames
  induction inner generalizing ev₁ ev₂ with
  | nil => exact absurd rfl hne
  | cons frame rest ih =>
    have hframe := habove frame (by simp)
    have hresult := h.result? hframe
    have hdone : (τ.frame frame).isDone = frame.isDone := rfl
    have hdefinition : (τ.frame frame).definition? = frame.definition? := rfl
    rw [hf₁, hf₂, List.map_cons, List.cons_append, List.cons_append]
    cases hd : frame.isDone with
    | false =>
      rw [Evaluator.completeAbove_active hd, Evaluator.completeAbove_active (hdone.trans hd)]
      refine .going ⟨⟨h.context, h.memo, h.lowered, h.globals, h.streams, h.identities⟩, ?_,
        h.items⟩
      exact ⟨frame :: rest, hne, habove, rfl, rfl⟩
    | true =>
      have hd' : (τ.frame frame).isDone = true := hdone.trans hd
      cases hr : ev₁.result? frame with
      | none =>
        rw [hr, Option.map_none] at hresult
        rw [Evaluator.completeAbove_noValue hd hr, Evaluator.completeAbove_noValue hd' hresult,
          hdefinition]
        exact .raised _
      | some value =>
        rw [hr, Option.map_some] at hresult
        cases hv : value.isException with
        | true =>
          obtain ⟨x, rfl⟩ := Value.isException_iff.1 hv
          rw [Evaluator.completeAbove_exception hd hr,
            Evaluator.completeAbove_exception hd' hresult]
          exact .raised x
        | false =>
          have hv' : (τ.value value).isException = false := (Value.isException_rename ..).trans hv
          rw [Evaluator.completeAbove_value hd hr hv,
            Evaluator.completeAbove_value hd' hresult hv']
          cases rest with
          | nil =>
            rw [List.nil_append, List.map_nil, List.nil_append, if_pos rfl, if_pos rfl]
            exact .returned value
          | cons caller rest =>
            rw [if_neg (by simp only [List.length_append, List.length_cons]; omega),
              if_neg (by simp only [List.length_append, List.length_map, List.length_cons]; omega)]
            have hdown := h.handDown (List.cons_ne_nil caller rest) habove value
            exact ih hdown (by simp)
              (fun member hmem => habove member (List.mem_cons_of_mem _ hmem)) rfl rfl

/-- The frames of calls that are not refused find room. -/
theorem room_of_not_atLimit {budget : Nat} {ev : Evaluator} {frame : Frame} {outer : List Frame}
    {i : Instruction} (hf : ev.frames = frame :: outer) (hc : frame.current? = some i)
    (hl : ¬ev.AtLimit budget) :
    ∀ call made mid, i = .finish (.call call) →
      prepareCall budget call (ev.fetch frame outer i) = some (.ok made, mid) →
      (ev.fetch frame outer i).frames.length < (ev.fetch frame outer i).options.maxDepth := by
  rintro call made mid rfl hp
  have hlen : (ev.fetch frame outer (.finish (.call call))).frames.length = ev.frames.length := by
    rw [hf]
    rfl
  rw [hlen]
  refine Nat.lt_of_not_le fun hfull => hl (Or.inr ⟨hfull, ?_⟩)
  exact ⟨frame, outer, call, made, mid, hf, hc, hp⟩

/-- One step does the same in both. -/
theorem Matches.progress {budget : Nat} (h : τ.Matches ev₁ ev₂) (h₁ : ¬ev₁.AtLimit budget)
    (h₂ : ¬ev₂.AtLimit budget) :
    ev₂.next? = ev₁.next? ∧
      ((ev₁.progress budget τ.source.frames.length = none ∧
          ev₂.progress budget τ.target.frames.length = none) ∨
        ∃ p₁ p₂, ev₁.progress budget τ.source.frames.length = some p₁ ∧
          ev₂.progress budget τ.target.frames.length = some p₂ ∧ Progresses τ p₁ p₂) := by
  obtain ⟨inner, hne, habove, hf₁, hf₂⟩ := h.frames
  obtain ⟨frame, rest, rfl⟩ := List.exists_cons_of_ne_nil hne
  have hcurrent : (τ.frame frame).current? = frame.current? := rfl
  rw [List.map_cons, List.cons_append] at hf₂
  rw [List.cons_append] at hf₁
  refine ⟨?_, ?_⟩
  · unfold Evaluator.next? Evaluator.currentFrame?
    rw [hf₁, hf₂]
    exact hcurrent
  · unfold Evaluator.progress
    rw [hf₁, hf₂]
    simp only [hcurrent]
    cases hc : frame.current? with
    | none =>
      refine Or.inr ⟨_, _, rfl, rfl, ?_⟩
      rw [← hf₁, ← hf₂]
      exact h.completeAbove
    | some i =>
      have hfetch : τ.Matches (ev₁.fetch frame (rest ++ τ.source.frames) i)
          (ev₂.fetch (τ.frame frame) (rest.map τ.frame ++ τ.target.frames) i) := by
        refine ⟨⟨h.context, h.memo, h.lowered, h.globals, h.streams, h.identities⟩, ?_, h.items⟩
        refine ⟨frame.advance 1 :: rest, by simp, fun member hmem => ?_, rfl, rfl⟩
        rcases List.mem_cons.1 hmem with rfl | hmem
        · exact ⟨(habove frame (by simp)).definition, (habove frame (by simp)).le_base⟩
        · exact habove member (List.mem_cons_of_mem _ hmem)
      have hact := (carried_act hfetch (room_of_not_atLimit hf₁ hc h₁)
        (room_of_not_atLimit hf₂ (hcurrent.trans hc) h₂)).cases
      rcases hact with ⟨ha₁, ha₂⟩ | ⟨r, after₁, after₂, ha₁, ha₂, hafter⟩
      · exact Or.inl (by simp only [ha₁, ha₂, and_self])
      · refine Or.inr ?_
        simp only [ha₁, ha₂]
        cases r with
        | ok => exact ⟨_, _, rfl, rfl, hafter.completeAbove⟩
        | error x => exact ⟨_, _, rfl, rfl, .raised x⟩

/-- The same instructions and the same fate, up to the place. -/
inductive Follows (τ : Transfer) : Option (List (Option Instruction) × Fate) →
    Option (List (Option Instruction) × Fate) → Prop
  | unlaid : Follows τ none none
  | active (executed : List (Option Instruction)) {after₁ after₂ : Evaluator}
      (h : τ.Matches after₁ after₂) :
      Follows τ (some (executed, .active after₁)) (some (executed, .active after₂))
  | returned (executed : List (Option Instruction)) (value : Value) :
      Follows τ (some (executed, .returned value)) (some (executed, .returned (τ.value value)))
  | raised (executed : List (Option Instruction)) (x : Exception) :
      Follows τ (some (executed, .raised x)) (some (executed, .raised x))

theorem Follows.cons {r₁ r₂ : Option (List (Option Instruction) × Fate)} (h : Follows τ r₁ r₂)
    (i : Option Instruction) :
    Follows τ (r₁.map fun found => (i :: found.1, found.2))
      (r₂.map fun found => (i :: found.1, found.2)) := by
  cases h with
  | unlaid => exact .unlaid
  | active executed h => exact .active (i :: executed) h
  | returned executed value => exact .returned (i :: executed) value
  | raised executed x => exact .raised (i :: executed) x

theorem Matches.follow {budget : Nat} (h : τ.Matches ev₁ ev₂) (n : Nat)
    (h₁ : ev₁.Unlimited budget τ.source.frames.length n)
    (h₂ : ev₂.Unlimited budget τ.target.frames.length n) :
    Follows τ (ev₁.follow budget τ.source.frames.length n)
      (ev₂.follow budget τ.target.frames.length n) := by
  induction n generalizing ev₁ ev₂ with
  | zero => exact .active [] h
  | succ n ih =>
    obtain ⟨hnext, hprogress⟩ := h.progress h₁.1 h₂.1
    unfold Evaluator.follow
    rcases hprogress with ⟨hp₁, hp₂⟩ | ⟨p₁, p₂, hp₁, hp₂, hp⟩
    · rw [hp₁, hp₂]
      exact .unlaid
    · rw [hp₁, hp₂, hnext]
      cases hp with
      | going hafter => exact (ih hafter (h₁.2 _ hp₁) (h₂.2 _ hp₂)).cons _
      | returned value => exact .returned _ value
      | raised x => exact .raised _ x

/-! ## Isolation -/

/-- A limit that is not reached refuses no step, and following a frame follows the machine. -/
theorem accounts_of_unlimited {budget : Nat} {ev : Evaluator} {outer : List Frame} (n : Nat)
    (ho : ev.outcome = none) (hf : ∃ inner, inner ≠ [] ∧ ev.frames = inner ++ outer)
    (hl : ev.Unlimited budget outer.length n) : ev.Accounts budget outer n := by
  induction n generalizing ev with
  | zero => trivial
  | succ n ih =>
    obtain ⟨inner, hne, hinner⟩ := hf
    have hlimit : ev.reachedLimit? = none := by
      cases hr : ev.reachedLimit? with
      | none => rfl
      | some limit => exact absurd (Or.inl (by rw [hr]; rfl)) hl.1
    refine ⟨Evaluator.step_eq_resume budget hne hinner ho hlimit, fun after hp => ?_⟩
    obtain ⟨hout, hleft⟩ := Evaluator.going_of_progress hne hinner hp
    exact ih (hout.trans ho) hleft (hl.2 after hp)

/-- Two evaluators whose innermost frames are the same frame of a function or of a structure, at two
places: the same kind, code and cursor, and the same bindings, scope and values above the base, up
to the identities of scopes. -/
structure Twins (τ : Transfer) (ev₁ ev₂ : Evaluator) : Prop extends τ.Shares ev₁ ev₂ where
  outcome₁ : ev₁.outcome = none
  outcome₂ : ev₂.outcome = none
  frames : ∃ frame₁ frame₂ : Frame, ev₁.frames = frame₁ :: τ.source.frames ∧
    ev₂.frames = frame₂ :: τ.target.frames ∧ frame₁.definition?.isSome ∧
    frame₂.kind = frame₁.kind ∧ frame₂.node = frame₁.node ∧ frame₂.code = frame₁.code ∧
    frame₂.cursor = frame₁.cursor ∧ frame₂.bindings = τ.bindings frame₁.bindings ∧
    frame₂.scope = frame₁.scope.rename τ.rename ∧
    frame₁.base = τ.source.items.length ∧ frame₂.base = τ.target.items.length
  items : ∃ upper, ev₁.stack.items = upper ++ τ.source.items ∧
    ev₂.stack.items = upper.map τ.value ++ τ.target.items

theorem Twins.matches (h : τ.Twins ev₁ ev₂) : τ.Matches ev₁ ev₂ := by
  obtain ⟨frame₁, frame₂, hf₁, hf₂, hdef, hkind, hnode, hcode, hcursor, hbindings, hscope, hb₁,
    hb₂⟩ := h.frames
  refine ⟨h.toShares, ⟨[frame₁], by simp, fun member hmem => ?_, hf₁, ?_⟩, h.items⟩
  · obtain rfl := List.mem_singleton.1 hmem
    exact ⟨hdef, Nat.le_of_eq hb₁.symm⟩
  · have hframe : frame₂ = τ.frame frame₁ := by
      obtain ⟨kind, node, code, cursor, bindings, scope, base⟩ := frame₂
      simp only at hkind hnode hcode hcursor hbindings hscope hb₂
      simp only [Transfer.frame, made, hkind, hnode, hcode, hcursor, hbindings, hscope, hb₁, hb₂,
        Nat.sub_self, Nat.zero_add]
    rw [hf₂, hframe]
    rfl

/-- Frame isolation.  Whatever lies beneath a frame of a function or of a structure: in any number
of steps that no limit refuses, it executes the same instructions and is still active, has handed
down the same value, or has ended the pass with the same exception. -/
theorem frame_isolation (h : τ.Twins ev₁ ev₂) (budget n : Nat)
    (h₁ : ev₁.Unlimited budget τ.source.frames.length n)
    (h₂ : ev₂.Unlimited budget τ.target.frames.length n) :
    Follows τ (ev₁.follow budget τ.source.frames.length n)
        (ev₂.follow budget τ.target.frames.length n) ∧
      ev₁.Accounts budget τ.source.frames n ∧ ev₂.Accounts budget τ.target.frames n := by
  obtain ⟨frame₁, frame₂, hf₁, hf₂, -⟩ := h.frames
  refine ⟨h.matches.follow n h₁ h₂, ?_, ?_⟩
  · exact accounts_of_unlimited n h.outcome₁ ⟨[frame₁], by simp, hf₁⟩ h₁
  · exact accounts_of_unlimited n h.outcome₂ ⟨[frame₂], by simp, hf₂⟩ h₂

/-- Draws identities one later than before. -/
def later : ScopeId → ScopeId
  | .host index => .host index
  | .captured index => .captured (index + 1)

theorem later_injective : Function.Injective later := by
  intro a b h
  cases a <;> cases b <;> simp_all [later]

/-- A function that refers to a closure, once called by a program that has laid out a value and once
beneath nothing: it hands down the closure in one step. -/
theorem frame_isolation_closure :
    let f : FunctionDef := ⟨⟨0⟩, [], [], [], none, none⟩
    let scope : Scope := .mk (.captured 0) .empty none
    let body := referenceOf 1 "g"
    let frame : Frame :=
      { kind := .function f, node := ⟨1⟩, code := [.finish body],
        bindings := ⟨[("g", .function f scope)]⟩, scope := scope, base := 1 }
    let program : Frame :=
      { kind := .program, node := ⟨3⟩, code := [], bindings := .empty, scope := scope }
    let τ : Transfer := ⟨later, later_injective, ⟨[program], [.boolean true]⟩, ⟨[], []⟩⟩
    let start := Evaluator.new { lexicon := .empty } .empty {}
    let ev₁ : Evaluator :=
      { start with frames := [frame, program], stack := ⟨[.boolean true], 0⟩, nextScope := 1 }
    let ev₂ : Evaluator := { start with frames := [τ.frame frame], nextScope := 2 }
    τ.Twins ev₁ ev₂ ∧ ev₁.Unlimited 0 1 1 ∧ ev₂.Unlimited 0 0 1 ∧
      ev₁.follow 0 1 1 = some ([some (.finish body)], .returned (.function f scope)) ∧
      Follows τ (ev₁.follow 0 1 1) (ev₂.follow 0 0 1) := by
  intro f scope body frame program τ start ev₁ ev₂
  have htwins : τ.Twins ev₁ ev₂ := by
    refine ⟨⟨rfl, rfl, rfl, rfl, rfl, fun k => ?_⟩, rfl, rfl, ?_, [], rfl, rfl⟩
    · show ScopeId.captured (1 + k + 1) = .captured (2 + k)
      rw [show 1 + k + 1 = 2 + k by omega]
    · exact ⟨frame, τ.frame frame, rfl, rfl, rfl, rfl, rfl, rfl, rfl, rfl, rfl, rfl, rfl⟩
  have unlimited {ev : Evaluator} {depth : Nat} (hl : ev.reachedLimit? = none)
      (hnext : ev.next? = some (.finish body)) : ev.Unlimited 0 depth 1 := by
    refine ⟨?_, fun _ _ => trivial⟩
    rintro (hlimit | ⟨-, member, outer, call, made, mid, hf, hc, -⟩)
    · rw [hl] at hlimit
      exact nomatch hlimit
    · have hcall : ev.next? = some (.finish (.call call)) := by
        unfold Evaluator.next? Evaluator.currentFrame?
        rw [hf]
        exact hc
      have hsame := hnext.symm.trans hcall
      simp [body, referenceOf] at hsame
  have h₁ : ev₁.Unlimited 0 1 1 := unlimited rfl rfl
  have h₂ : ev₂.Unlimited 0 0 1 := unlimited rfl rfl
  exact ⟨htwins, h₁, h₂, rfl, (frame_isolation htwins 0 1 h₁ h₂).1⟩

end Transfer

end Stepwise

import Stepwise.Proofs.Machine.Levels
import Stepwise.Proofs.Typing.Repeatable

/-!
# Running passes

This module says what holds of a pass while it runs, under any options and whatever the host has
supplied.

A pass begins with an instruction to fetch, and a step after which it is still running has left it
with another one (`going_of_step`).  So there is nothing in between: in every state that a host can
bring an evaluator into, a pass has ended, has an instruction to fetch, or has not begun
(`going_of_reaches`).

The budget bounds how deeply lowering is nested, and nothing else.  With more of it an action has
every answer that it has with less (`Action.LessDefined`), and so have steps and runs.  Two runs
from one state therefore end in the same way, whatever budget and fuel they have been given
(`EndsWith.unique`).
-/

namespace Stepwise

open Stepwise.Action

/-! ## More budget -/

namespace Action

variable {α β : Type} {budget budget' : Nat}

/-- Wherever `m` has an answer, `m'` has the same one. -/
structure LessDefined (m m' : Action α) : Prop where
  same : ∀ {ev answer}, m ev = some answer → m' ev = some answer

theorem LessDefined.refl (m : Action α) : LessDefined m m :=
  ⟨id⟩

theorem LessDefined.bind {m m' : Action α} {f f' : α → Action β} (hm : LessDefined m m')
    (hf : ∀ a, LessDefined (f a) (f' a)) : LessDefined (m >>= f) (m' >>= f') := by
  refine ⟨fun {ev answer} h => ?_⟩
  rw [bind_apply] at h ⊢
  obtain ⟨⟨r, mid⟩, hfirst, hr⟩ := Option.bind_eq_some_iff.1 h
  rw [hm.same hfirst, Option.bind_some]
  cases r with
  | ok a => exact (hf a).same hr
  | error x => exact hr

theorem LessDefined.blaming {m m' : Action α} (node : NodeId) (hm : LessDefined m m') :
    LessDefined (blaming node m) (blaming node m') := by
  refine ⟨fun {ev answer} h => ?_⟩
  rw [blaming_apply] at h ⊢
  obtain ⟨r, hr, rfl⟩ := Option.map_eq_some_iff.1 h
  rw [hm.same hr, Option.map_some]

/-- Code that has been lowered is there. -/
theorem codeOf_of_find? {ev : Evaluator} {e : Expr} {code : Code}
    (h : ev.lowered.find? e.id = some code) : codeOf budget e ev = some (.ok code, ev) := by
  unfold codeOf
  rw [bind_apply, get_apply, Option.bind_some, continuing_ok, h]
  rfl

/-- Code that has not been lowered is lowered now. -/
theorem codeOf_of_lower {ev : Evaluator} {e : Expr} {code : Code} {memo : Memo}
    (hnone : ev.lowered.find? e.id = none)
    (h : e.lower budget ev.context ev.memo = some (code, memo)) :
    codeOf budget e ev =
      some (.ok code, { ev with memo := memo, lowered := ev.lowered.insert e.id code }) := by
  unfold codeOf
  rw [bind_apply, get_apply, Option.bind_some, continuing_ok, hnone]
  simp only [h]
  rfl

section Instructions

variable (hle : budget ≤ budget')

include hle

/-- Only here the budget is looked at. -/
theorem lessDefined_codeOf (e : Expr) : LessDefined (codeOf budget e) (codeOf budget' e) := by
  refine ⟨fun {ev answer} h => ?_⟩
  obtain ⟨r, after⟩ := answer
  obtain ⟨code, rfl, ⟨hfound, rfl⟩ | ⟨memo, hnone, hlower, rfl⟩⟩ := codeOf_cases h
  · exact codeOf_of_find? hfound
  · exact codeOf_of_lower hnone ((settles_lower hle e).same hlower)

theorem lessDefined_prepare (call : Call) (values : List Value) (callee : Value) :
    LessDefined (prepare budget call values callee) (prepare budget' call values callee) := by
  cases callee with
  | function f scope =>
    refine (LessDefined.refl _).bind fun bindings => LessDefined.blaming call.id ?_
    unfold prepareFunction
    split
    · exact .refl _
    · exact (lessDefined_codeOf hle _).bind fun code => .refl _
  | structDef s scope =>
    refine (LessDefined.refl _).bind fun bindings => LessDefined.blaming call.id ?_
    unfold prepareStruct blockCode
    split
    · exact .refl _
    · exact .refl _
    · exact (lessDefined_codeOf hle _).bind fun code => .refl _
  | _ => exact .refl _

theorem lessDefined_act (i : Instruction) : LessDefined (i.act budget) (i.act budget') := by
  cases i with
  | finish e =>
    cases he : e.isCall with
    | true =>
      cases e with
      | call call =>
        rw [act_call, act_call, executeCall_eq, executeCall_eq]
        refine LessDefined.bind ?_ fun frame => .refl _
        refine (LessDefined.refl _).bind fun callee => ?_
        split
        · exact .refl _
        · exact (LessDefined.refl _).bind fun values => lessDefined_prepare hle ..
      | _ => exact nomatch he
    | false =>
      have hsame : e.execute budget = e.execute budget' :=
        (execute_eq budget he).trans (execute_eq budget' he).symm
      rw [Instruction.act, Instruction.act, hsame]
      exact .refl _
  | _ => exact .refl _

end Instructions

end Action

/-- Lowered code has an instruction. -/
theorem Lowers.ne_nil {ctx : Context} {code : Code} (h : Lowers ctx code) : code ≠ [] := by
  obtain ⟨budget, e, memo, after, hlower⟩ := h
  obtain ⟨layout, -, rfl, hformed⟩ := exists_layout_of_lower hlower
  intro hnil
  have hshape := (laysOne_code hformed).shape (List.cons_ne_nil (⟨none, 0⟩ : Level) [])
  rw [hnil, shapeAfter_nil] at hshape
  exact nomatch hshape

namespace Evaluator

variable {budget budget' fuel fuel' : Nat} {ev after last : Evaluator} {answer : Step}
  {outcome : Outcome}

/-! ## Steps -/

/-- An ended pass stays as it is. -/
theorem step_of_outcome (h : ev.outcome = some outcome) :
    ev.step budget = some (.ended outcome, ev) := by
  simp only [step, h]

/-- At its limit a pass ends. -/
theorem step_of_reachedLimit {limit : Nat} (hgoing : ev.outcome = none)
    (hl : ev.reachedLimit? = some limit) :
    ev.step budget = some (.ended (.halted (ev.exception (.stepLimit limit))),
      { ev with outcome := some (.halted (ev.exception (.stepLimit limit))) }) := by
  simp only [step, hgoing, hl]
  rfl

/-- There is nothing to evaluate. -/
theorem step_of_idle (hgoing : ev.outcome = none) (hl : ev.reachedLimit? = none)
    (hf : ev.frames = []) : ev.step budget = some (ev.halt { kind := .noValue }) := by
  simp only [step, hgoing, hl, stepInstruction, hf]

theorem reachedLimit?_eq_none :
    ev.reachedLimit? = none ↔ ∀ limit, ev.options.maxSteps = some limit → ev.steps < limit := by
  simp [reachedLimit?, Option.filter_eq_none_iff]

/-- More budget makes no difference to a step that has an answer. -/
theorem step_more (hle : budget ≤ budget') (h : ev.step budget = some (answer, after)) :
    ev.step budget' = some (answer, after) := by
  cases ho : ev.outcome with
  | some outcome => rwa [step_of_outcome ho] at h ⊢
  | none =>
    cases hl : ev.reachedLimit? with
    | some limit => rwa [step_of_reachedLimit ho hl] at h ⊢
    | none =>
      cases hf : ev.frames with
      | nil => rwa [step_of_idle ho hl hf] at h ⊢
      | cons frame outer =>
        rw [step_eq budget ho hl hf] at h
        rw [step_eq budget' ho hl hf]
        cases hc : frame.current? with
        | none => rwa [hc] at h
        | some i =>
          rw [hc] at h
          obtain ⟨r, ha, hs⟩ := Option.map_eq_some_iff.1 h
          dsimp only
          rw [(lessDefined_act hle i).same ha, Option.map_some, hs]

/-! ## Runs -/

/-- A run ends with its first step or goes on after it. -/
theorem run_succ :
    ev.run budget (fuel + 1) = some (outcome, last) ↔
      ev.step budget = some (.ended outcome, last) ∨
        ∃ mid, ev.step budget = some (.running, mid) ∧
          mid.run budget fuel = some (outcome, last) := by
  rw [run]
  rcases ev.step budget with _ | ⟨answer, after⟩
  · simp
  · cases answer <;> simp

/-- Stepping to a boundary ends with its first step, or goes on after it unless that is a
boundary. -/
theorem stepToBoundary_succ :
    ev.stepToBoundary budget (fuel + 1) = some (answer, after) ↔
      (∃ outcome, ev.step budget = some (.ended outcome, after) ∧ answer = .ended outcome) ∨
        ∃ mid, ev.step budget = some (.running, mid) ∧
          (mid.atBoundary = true ∧ answer = .running ∧ after = mid ∨
            mid.atBoundary = false ∧ mid.stepToBoundary budget fuel = some (answer, after)) := by
  rw [stepToBoundary]
  rcases ev.step budget with _ | ⟨_ | outcome, mid⟩
  · simp
  · cases hb : mid.atBoundary <;> simp [hb, @eq_comm _ mid after, @eq_comm _ Step.running answer]
  · simp [and_comm, @eq_comm _ (Step.ended outcome) answer]

/-- More budget and more fuel make no difference to a run that ends. -/
theorem run_more (hle : budget ≤ budget') (hfuel : fuel ≤ fuel')
    (h : ev.run budget fuel = some (outcome, last)) :
    ev.run budget' fuel' = some (outcome, last) := by
  induction fuel generalizing ev fuel' with
  | zero => exact nomatch h
  | succ fuel ih =>
    obtain ⟨more, rfl⟩ : ∃ more, fuel' = more + 1 := ⟨fuel' - 1, by omega⟩
    have hmore : fuel ≤ more := Nat.le_of_succ_le_succ hfuel
    rw [run_succ] at h ⊢
    rcases h with hs | ⟨mid, hs, h⟩
    · exact .inl (step_more hle hs)
    · exact .inr ⟨mid, step_more hle hs, ih hmore h⟩

/-- The pass ends, with enough budget and fuel. -/
def EndsWith (ev : Evaluator) (outcome : Outcome) (last : Evaluator) : Prop :=
  ∃ budget fuel, ev.run budget fuel = some (outcome, last)

/-- A pass ends in one way. -/
theorem EndsWith.unique {outcome' : Outcome} {last' : Evaluator} (h : ev.EndsWith outcome last)
    (h' : ev.EndsWith outcome' last') : outcome' = outcome ∧ last' = last := by
  obtain ⟨budget, fuel, h⟩ := h
  obtain ⟨budget', fuel', h'⟩ := h'
  have hfirst := run_more (Nat.le_max_left budget budget') (Nat.le_max_left fuel fuel') h
  have hsecond := run_more (Nat.le_max_right budget budget') (Nat.le_max_right fuel fuel') h'
  exact Prod.mk.inj (Option.some.inj (hsecond.symm.trans hfirst))

theorem endsWith_of_outcome (h : ev.outcome = some outcome) : ev.EndsWith outcome ev :=
  ⟨0, 1, run_succ.2 (.inl (step_of_outcome h))⟩

/-- A pass ends as it does after its next step. -/
theorem EndsWith.of_step (hs : ev.step budget = some (answer, after))
    (h : after.EndsWith outcome last) : ev.EndsWith outcome last := by
  cases answer with
  | ended ended =>
    obtain ⟨rfl, rfl⟩ := (endsWith_of_outcome (outcome_of_step hs)).unique h
    exact ⟨budget, 1, run_succ.2 (.inl hs)⟩
  | running =>
    obtain ⟨budget', fuel, hrun⟩ := h
    exact ⟨max budget budget', fuel + 1, run_succ.2 (.inr ⟨after,
      step_more (Nat.le_max_left budget budget') hs,
      run_more (Nat.le_max_right budget budget') (Nat.le_refl fuel) hrun⟩)⟩

/-! ## Instructions to fetch -/

/-- A pass that has not ended, with an instruction to fetch. -/
structure Going (ev : Evaluator) : Prop where
  outcome : ev.outcome = none
  fetches : ∃ frame outer i, ev.frames = frame :: outer ∧ frame.current? = some i

theorem current?_of_isDone {frame : Frame} (h : frame.isDone = false) :
    ∃ i, frame.current? = some i := by
  have hlt : frame.cursor < frame.code.length := by simpa [Frame.isDone] using h
  exact ⟨_, List.getElem?_eq_getElem hlt⟩

/-- Finished frames hand their results down until there is one with an instruction. -/
theorem going_of_completeFrames (ho : ev.outcome = none) (hf : ev.frames ≠ [])
    (h : ev.completeFrames = (.running, after)) : after.Going := by
  have hdown := handsDown_completeFrames ev
  rw [h] at hdown
  generalize hr : (Step.running, after) = r at hdown
  clear h
  induction hdown with
  | idle hnone => exact absurd hnone hf
  | active hframes hd =>
    obtain ⟨i, hi⟩ := current?_of_isDone hd
    obtain rfl := (Prod.mk.inj hr).2
    exact ⟨ho, _, _, i, hframes, hi⟩
  | noValue | exception | produces => exact nomatch hr
  | hands _ _ _ _ _ ih => exact ih ho (List.cons_ne_nil _ _) hr

/-- A step after which a pass is still running has left it with an instruction. -/
theorem going_of_step (hg : ev.Going) (h : ev.step budget = some (.running, after)) :
    after.Going := by
  cases hl : ev.reachedLimit? with
  | some limit =>
    rw [step_of_reachedLimit hg.outcome hl] at h
    exact nomatch h
  | none =>
    obtain ⟨frame, outer, i, hf, hc⟩ := hg.fetches
    rw [step_eq budget hg.outcome hl hf, hc] at h
    obtain ⟨⟨r, mid⟩, ha, hs⟩ := Option.map_eq_some_iff.1 h
    have hacts := act_cases ha
    cases r with
    | error x => exact nomatch hs
    | ok =>
      have hmid : mid.outcome = none := hacts.outcome.trans hg.outcome
      have hframes : mid.frames ≠ [] := by
        intro hnil
        have hle := hacts.le_length_frames
        rw [hnil] at hle
        exact Nat.not_succ_le_zero _ hle
      exact going_of_completeFrames hmid hframes hs

/-- A pass begins with an instruction to fetch. -/
theorem going_of_beginPass {root : Expr} (hlowered : ev.Faithful)
    (h : ev.beginPass budget root = some after) : after.Going := by
  have hfaithful := faithful_of_beginPass h hlowered
  obtain ⟨code, mid, hc, rfl⟩ := beginPass_cases h
  have hfind : mid.lowered.find? root.id = some code := find?_of_codeOf hc
  have hlowers : Lowers mid.context code := hfaithful root.id code hfind
  obtain ⟨i, rest, rfl⟩ := List.exists_cons_of_ne_nil hlowers.ne_nil
  exact ⟨((evolving_codeOf budget root).evolves hc).outcome, _, [], i, rfl, rfl⟩

/-- A pass that has not ended has an instruction to fetch, once it has begun. -/
def Alert (ev : Evaluator) : Prop :=
  ev.outcome = none → ev.frames = [] ∨ ev.Going

theorem Alert.of_step (h : ev.Alert) (hs : ev.step budget = some (answer, after)) :
    after.Alert := by
  intro hafter
  cases answer with
  | ended outcome => exact nomatch (outcome_of_step hs).symm.trans hafter
  | running =>
    cases ho : ev.outcome with
    | some outcome =>
      rw [step_of_outcome ho] at hs
      exact nomatch hs
    | none =>
      rcases h ho with hf | hg
      · cases hl : ev.reachedLimit? with
        | some limit =>
          rw [step_of_reachedLimit ho hl] at hs
          exact nomatch hs
        | none =>
          rw [step_of_idle ho hl hf] at hs
          exact nomatch hs
      · exact .inr (going_of_step hg hs)

theorem Alert.of_stepToBoundary (h : ev.Alert)
    (hs : ev.stepToBoundary budget fuel = some (answer, after)) : after.Alert := by
  induction fuel generalizing ev with
  | zero => exact nomatch hs
  | succ fuel ih =>
    rcases stepToBoundary_succ.1 hs with ⟨outcome, hstep, -⟩ |
      ⟨mid, hstep, ⟨-, -, rfl⟩ | ⟨-, hlater⟩⟩
    · exact h.of_step hstep
    · exact h.of_step hstep
    · exact ih (h.of_step hstep) hlater

theorem alert_of_run (hs : ev.run budget fuel = some (outcome, after)) : after.Alert :=
  fun hafter => nomatch (outcome_of_run hs).symm.trans hafter

/-- In whatever state a host has brought an evaluator, a pass has ended, has an instruction to
fetch, or has not begun. -/
theorem going_of_reaches {ctx : Context} {memo : Memo} {options : Options}
    (h : (new ctx memo options).Reaches ev) : ev.Alert := by
  induction h with
  | refl => exact fun _ => .inl rfl
  | @tail mid after hreaches hs ih =>
    cases hs with
    | beginPass budget root hb =>
      exact fun _ => .inr (going_of_beginPass (faithful_of_passes (Reaches.passes hreaches)) hb)
    | step budget answer hs => exact ih.of_step hs
    | stepToBoundary budget fuel answer hs => exact ih.of_stepToBoundary hs
    | run budget fuel outcome hs => exact alert_of_run hs
    | inject stream value hs =>
      subst hs
      exact fun ho => (ih ho).imp_right fun hg => ⟨hg.outcome, hg.fetches⟩
    | defineGlobal name value hs =>
      subst hs
      exact fun ho => (ih ho).imp_right fun hg => ⟨hg.outcome, hg.fetches⟩

end Evaluator

end Stepwise

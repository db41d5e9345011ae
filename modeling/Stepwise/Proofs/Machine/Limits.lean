import Stepwise.Proofs.Machine.Running
import Stepwise.Proofs.Machine.Scaling
import Stepwise.Proofs.Sample

/-!
# Limits only truncate

A pass that is running has an instruction to fetch (`Evaluator.Ready`), and every step of it
executes one instruction, unless the limit on steps has been reached (`counted_step`).  So passes
under different limits execute the same instructions in lockstep for as long as neither reaches a
limit (`step_under`).

Two things follow (`limits_only_truncate`).  A pass that ends for another reason than a limit ends
in the same way, after the same number of instructions, under any larger limits.  And a pass whose
steps are limited to `n` ends for this reason just if it would execute more than `n` instructions,
or would never end after `n` of them, were it not limited.
-/

namespace Stepwise

open Stepwise.Action

/-- Limits that are no smaller; a pass without a limit on steps has the largest. -/
structure Options.Within (o o' : Options) : Prop where
  depth : o.maxDepth ≤ o'.maxDepth
  steps : ∀ most', o'.maxSteps = some most' → ∃ most, o.maxSteps = some most ∧ most ≤ most'

namespace Evaluator

variable {budget budget' : Nat} {ev now after begun : Evaluator} {answer : Step}
  {outcome : Outcome} {o : Options} {capacity : Nat}

/-! ## Running passes -/

/-- A pass that is running, with an instruction to fetch, in which no name stands for an
exception. -/
structure Ready (ev : Evaluator) : Prop where
  going : ev.outcome = none
  clean : ev.Clean
  fetches : ∃ frame outer i, ev.frames = frame :: outer ∧ frame.current? = some i

/-- What has come of executing `count` instructions. -/
structure Counted (ev : Evaluator) (count : Nat) (answer : Step) (after : Evaluator) : Prop where
  steps : after.steps = ev.steps + count
  limits : ev.SameLimits after
  ready : answer = .running → after.Ready
  kind : ∀ x, answer = .ended (.halted x) → x.kind.isStepLimit = false

/-- Handing results down executes nothing, and leaves a frame with an instruction. -/
theorem counted_completeFrames (hc : ev.Clean) (ho : ev.outcome = none) (hf : ev.frames ≠ []) :
    Counted ev 0 ev.completeFrames.1 ev.completeFrames.2 := by
  have h := handsDown_completeFrames ev
  generalize ev.completeFrames = r at h
  induction h with
  | idle hnone => exact absurd hnone hf
  | active hframes hd =>
    obtain ⟨i, hi⟩ := current?_of_isDone hd
    exact ⟨rfl, .refl _, fun _ => ⟨ho, hc, _, _, i, hframes, hi⟩, nofun⟩
  | noValue =>
    refine ⟨rfl, ⟨rfl, rfl⟩, nofun, fun x hx => ?_⟩
    obtain rfl := Outcome.halted.inj (Step.ended.inj hx)
    rfl
  | exception hframes hd hr => exact nomatch (hc.result? hframes hr).isException
  | produces => exact ⟨rfl, ⟨rfl, rfl⟩, nofun, fun x hx => nomatch Step.ended.inj hx⟩
  | hands hframes hd hr hv _ ih =>
    have hlater := ih (clean_handDown hc hframes hr) ho (List.cons_ne_nil _ _)
    exact ⟨hlater.steps, ⟨hlater.limits.options, hlater.limits.capacity⟩, hlater.ready,
      hlater.kind⟩

/-- A step of a running pass below its limit executes one instruction. -/
theorem counted_step (hr : ev.Ready) (hl : ev.reachedLimit? = none)
    (h : ev.step budget = some (answer, after)) : Counted ev 1 answer after := by
  obtain ⟨frame, outer, i, hf, hc⟩ := hr.fetches
  rw [step_eq budget hr.going hl hf, hc, Option.map_eq_some_iff] at h
  obtain ⟨⟨r, mid⟩, hact, hsettle⟩ := h
  have hclean := hr.clean.fetch hf i
  have hscaled := (scales_act (Nat.le_refl budget) i).scaled hclean hact
  have hacts := act_cases hact
  have hsteps : mid.steps = ev.steps + 1 := by
    rw [hacts.rest]
    rfl
  cases r with
  | error x =>
    obtain ⟨rfl, rfl⟩ := Prod.mk.inj hsettle
    have hlimits : ev.SameLimits mid := ⟨hscaled.limits.options, hscaled.limits.capacity⟩
    refine ⟨hsteps, ⟨hlimits.options, hlimits.capacity⟩, nofun, fun y hy => ?_⟩
    obtain rfl := Outcome.halted.inj (Step.ended.inj hy)
    exact hscaled.kind x rfl
  | ok =>
    have hmid : mid.Clean := ((clean_act budget i).keeps hclean hact).1
    have hgoing : mid.outcome = none := hacts.outcome.trans hr.going
    have hframes : mid.frames ≠ [] := by
      intro hnil
      have hle := hacts.le_length_frames
      rw [hnil] at hle
      exact Nat.not_succ_le_zero _ hle
    have hcomplete : mid.completeFrames = (answer, after) := hsettle
    have hcounted := counted_completeFrames hmid hgoing hframes
    rw [hcomplete] at hcounted
    have hlimits : ev.SameLimits mid := ⟨hscaled.limits.options, hscaled.limits.capacity⟩
    refine ⟨?_, hlimits.trans hcounted.limits, hcounted.ready, hcounted.kind⟩
    rw [hcounted.steps, hsteps]

/-- A pass that goes on is ready for the next step. -/
theorem ready_of_step (hr : ev.Ready) (h : ev.step budget = some (.running, after)) :
    after.Ready := by
  cases hl : ev.reachedLimit? with
  | some limit =>
    rw [step_of_reachedLimit hr.going hl] at h
    exact nomatch h
  | none => exact (counted_step hr hl h).ready rfl

/-! ## Lockstep -/

theorem result?_under (frame : Frame) : (ev.under o capacity).result? frame = ev.result? frame := by
  have hpop : ((ev.under o capacity).stack.popAbove frame.base).map Prod.fst =
      (ev.stack.popAbove frame.base).map Prod.fst := by
    unfold Stack.popAbove under
    dsimp only
    split
    · rfl
    · simp only [Stack.height]
      by_cases hlt : frame.base < ev.stack.items.length <;> simp [hlt]
  unfold result?
  cases frame.kind with
  | struct definition => rfl
  | _ => exact hpop

theorem completeFrames_under :
    (ev.under o capacity).completeFrames =
      (ev.completeFrames.1, ev.completeFrames.2.under o capacity) := by
  have h := handsDown_completeFrames ev
  generalize ev.completeFrames = r at h
  refine HandsDown.completeFrames_eq ?_
  induction h with
  | idle hf => exact .idle hf
  | active hf hd => exact .active hf hd
  | noValue hf hd hr => exact .noValue hf hd ((result?_under _).trans hr)
  | exception hf hd hr => exact .exception hf hd ((result?_under _).trans hr)
  | produces hf hd hr hv => exact .produces hf hd ((result?_under _).trans hr) hv
  | hands hf hd hr hv _ ih => exact .hands hf hd ((result?_under _).trans hr) hv ih

theorem Ready.under (h : ev.Ready) : (ev.under o capacity).Ready :=
  ⟨h.going, ⟨⟨h.clean.globals, h.clean.streams⟩, h.clean.frames, h.clean.stack⟩, h.fetches⟩

/-- Below both limits on steps, a step is the same under a limit on frames that is no smaller,
unless it has reached the smaller one. -/
theorem step_under (hle : budget ≤ budget') (hr : ev.Ready) (hl : ev.reachedLimit? = none)
    (hl' : (ev.under o capacity).reachedLimit? = none) (hdepth : ev.options.maxDepth ≤ o.maxDepth)
    (h : ev.step budget = some (answer, after)) :
    (ev.under o capacity).step budget' = some (answer, after.under o capacity) ∨
      (ev.options.maxDepth < o.maxDepth ∧
        ∃ x, answer = .ended (.halted x) ∧ x.kind = .stackOverflow ev.options.maxDepth) := by
  obtain ⟨frame, outer, i, hf, hc⟩ := hr.fetches
  rw [step_eq budget hr.going hl hf, hc, Option.map_eq_some_iff] at h
  obtain ⟨⟨r, mid⟩, hact, hsettle⟩ := h
  have hscaled := (scales_act hle i).scaled (hr.clean.fetch hf i) hact
  have hstep : (ev.under o capacity).step budget' =
      (i.act budget' ((ev.fetch frame outer i).under o capacity)).map settle := by
    rw [step_eq budget' hr.under.going hl' hf, hc]
    rfl
  rcases hscaled.same o capacity hdepth with hsame | ⟨hlt, x, rfl, hx⟩
  · left
    rw [hstep, hsame, Option.map_some]
    cases r with
    | error x =>
      obtain ⟨rfl, rfl⟩ := Prod.mk.inj hsettle
      rfl
    | ok =>
      obtain ⟨rfl, rfl⟩ := Prod.mk.inj hsettle
      exact congrArg some completeFrames_under
  · exact .inr ⟨hlt, x, (Prod.mk.inj hsettle).1.symm, hx⟩

/-- One step of a pass that has not ended. -/
def Proceeds (ev after : Evaluator) : Prop :=
  ev.outcome = none ∧ ∃ budget answer, ev.step budget = some (answer, after)

/-- What a pass comes to step by step, its end included. -/
abbrev ComesTo : Evaluator → Evaluator → Prop :=
  Relation.ReflTransGen Proceeds

/-- What a step makes of a running pass: it ends at its limit, or executes an instruction. -/
theorem Proceeds.cases (hr : ev.Ready) (h : ev.Proceeds after) :
    (∃ limit, ev.reachedLimit? = some limit ∧ after =
        { ev with outcome := some (.halted (ev.exception (.stepLimit limit))) }) ∨
      ev.reachedLimit? = none ∧ ∃ budget answer, ev.step budget = some (answer, after) ∧
        Counted ev 1 answer after := by
  obtain ⟨hgoing, budget, answer, hs⟩ := h
  cases hl : ev.reachedLimit? with
  | some limit =>
    rw [step_of_reachedLimit hgoing hl] at hs
    exact .inl ⟨limit, rfl, (Prod.mk.inj (Option.some.inj hs)).2.symm⟩
  | none => exact .inr ⟨rfl, budget, answer, hs, counted_step hr hl hs⟩

/-- A pass has the options that it began with, and is ready as long as it has not ended. -/
structure Underway (o : Options) (now : Evaluator) : Prop where
  options : now.options = o
  ready : now.outcome = none → now.Ready

theorem Underway.proceeds (h : Underway o ev) (hp : ev.Proceeds after) : Underway o after := by
  rcases hp.cases (h.ready hp.1) with ⟨limit, -, rfl⟩ | ⟨-, budget, answer, hs, hcounted⟩
  · exact ⟨h.options, nofun⟩
  · refine ⟨hcounted.limits.options.trans h.options, fun hgoing => ?_⟩
    cases answer with
    | running => exact hcounted.ready rfl
    | ended outcome => exact nomatch (outcome_of_step hs).symm.trans hgoing

theorem Ready.underway (hr : ev.Ready) (h : ev.ComesTo now) : Underway ev.options now := by
  induction h with
  | refl => exact ⟨rfl, fun _ => hr⟩
  | tail _ hp ih => exact ih.proceeds hp

/-- Before it executes more than `n` instructions, a pass has executed `n` and has not ended. -/
theorem ComesTo.before {n : Nat} (hr : ev.Ready) (hstart : ev.steps ≤ n) (h : ev.ComesTo now)
    (hmore : n < now.steps) : ∃ mid, ev.ComesTo mid ∧ mid.outcome = none ∧ mid.steps = n := by
  induction h with
  | refl => omega
  | @tail mid last h hp ih =>
    rcases hp.cases ((hr.underway h).ready hp.1) with ⟨limit, -, rfl⟩ |
      ⟨hl, budget, answer, -, hcounted⟩
    · exact ih hmore
    · have hsteps := hcounted.steps
      by_cases hlt : n < mid.steps
      · exact ih hlt
      · exact ⟨mid, h, hp.1, by omega⟩

/-- Under another limit on steps a pass comes to the same states, until it reaches that limit. -/
theorem ComesTo.under (hr : ev.Ready) (hdepth : o.maxDepth = ev.options.maxDepth)
    (h : ev.ComesTo now) (hgoing : now.outcome = none)
    (hsteps : ∀ most, o.maxSteps = some most → now.steps ≤ most) :
    (ev.under o capacity).ComesTo (now.under o capacity) := by
  induction h with
  | refl => exact .refl
  | @tail mid last h hp ih =>
    have hmid := hr.underway h
    rcases hp.cases (hmid.ready hp.1) with ⟨limit, -, rfl⟩ | ⟨hl, budget, answer, hs, hcounted⟩
    · exact nomatch hgoing
    · have hbelow : ∀ most, o.maxSteps = some most → mid.steps < most := fun most hmost => by
        have hle := hsteps most hmost
        rw [hcounted.steps] at hle
        exact hle
      have hl' : (mid.under o capacity).reachedLimit? = none := reachedLimit?_eq_none.2 hbelow
      have hmore : mid.options.maxDepth = o.maxDepth := by rw [hmid.options, hdepth]
      have hcomes := ih hp.1 fun most hmost => Nat.le_of_lt (hbelow most hmost)
      refine hcomes.tail ⟨hp.1, budget, answer, ?_⟩
      rcases step_under (Nat.le_refl budget) (hmid.ready hp.1) hl hl' (Nat.le_of_eq hmore) hs with
        hsame | ⟨hlt, -⟩
      · exact hsame
      · exact absurd hmore (Nat.ne_of_lt hlt)

/-- A pass that ends at its limit on steps has come to it. -/
theorem EndsWith.reaches {x : Exception} {limit : Nat} {last : Evaluator} (hr : ev.Ready)
    (h : ev.EndsWith (.halted x) last) (hx : x.kind = .stepLimit limit) :
    ∃ now, ev.ComesTo now ∧ now.outcome = none ∧ now.reachedLimit? = some limit := by
  obtain ⟨budget, fuel, h⟩ := h
  induction fuel generalizing ev with
  | zero => exact nomatch h
  | succ fuel ih =>
    rcases run_succ.1 h with hs | ⟨mid, hs, h⟩
    · cases hl : ev.reachedLimit? with
      | some reached =>
        rw [step_of_reachedLimit hr.going hl] at hs
        obtain rfl := Outcome.halted.inj (Step.ended.inj (Prod.mk.inj (Option.some.inj hs)).1)
        obtain rfl : reached = limit := ExceptionKind.stepLimit.inj hx
        exact ⟨ev, .refl, hr.going, hl⟩
      | none =>
        have hkind := (counted_step hr hl hs).kind x rfl
        rw [hx] at hkind
        exact nomatch hkind
    · obtain ⟨now, hnow, hgoing, hreached⟩ := ih (ready_of_step hr hs) h
      exact ⟨now, .head ⟨hr.going, budget, _, hs⟩ hnow, hgoing, hreached⟩

/-! ## Whole passes -/

/-- A pass over the expression begins in this state. -/
def Begins (ev : Evaluator) (root : Expr) (begun : Evaluator) : Prop :=
  ∃ budget, ev.beginPass budget root = some begun

/-- A pass over the expression ends in this way. -/
def PassEnds (ev : Evaluator) (root : Expr) (outcome : Outcome) (last : Evaluator) : Prop :=
  ∃ begun, ev.Begins root begun ∧ begun.EndsWith outcome last

/-- A pass over the expression comes to this state. -/
def PassComesTo (ev : Evaluator) (root : Expr) (now : Evaluator) : Prop :=
  ∃ begun, ev.Begins root begun ∧ begun.ComesTo now

/-- No budget and no fuel are enough. -/
def NeverEnds (ev : Evaluator) : Prop :=
  ∀ outcome last, ¬ ev.EndsWith outcome last

theorem NeverEnds.going (h : ev.NeverEnds) : ev.outcome = none := by
  cases ho : ev.outcome with
  | none => rfl
  | some outcome => exact (h outcome ev ⟨0, 1, run_succ.2 (.inl (step_of_outcome ho))⟩).elim

section Begins

variable {root : Expr} {o' : Options} (hlowered : ev.Faithful) (hsupplied : ev.reset.Supplied)

include hsupplied

theorem clean_reset : (ev.under o).reset.Clean :=
  ⟨⟨hsupplied.globals, hsupplied.streams⟩, nofun, nofun⟩

/-- A pass begins in the same way under a limit on frames that is no smaller. -/
theorem Begins.under (h : (ev.under o).Begins root begun) (hdepth : o.maxDepth ≤ o'.maxDepth) :
    (ev.under o').Begins root (begun.under o') := by
  obtain ⟨budget, h⟩ := h
  obtain ⟨code, mid, hc, rfl⟩ := beginPass_cases h
  have hclean : (ev.under o).reset.Clean := clean_reset hsupplied
  have hscaled := (scales_codeOf (Nat.le_refl budget) root).scaled hclean hc
  have hsame := (hscaled.same o' o'.valueStackSize hdepth).resolve_right fun hfull =>
    nomatch hfull.2
  have hreset : (ev.under o').reset = (ev.under o).reset.under o' := rfl
  refine ⟨budget, ?_⟩
  rw [beginPass, hreset, hsame]
  rfl

include hlowered

/-- A pass begins ready, before it has executed anything. -/
theorem Begins.ready (h : (ev.under o).Begins root begun) :
    begun.Ready ∧ begun.steps = 0 ∧ begun.options = o := by
  obtain ⟨budget, h⟩ := h
  have hunder : (ev.under o).Faithful := hlowered
  have hfaithful := faithful_of_beginPass h hunder
  obtain ⟨code, mid, hc, rfl⟩ := beginPass_cases h
  have hclean : (ev.under o).reset.Clean := clean_reset hsupplied
  obtain ⟨hmid, -⟩ := (clean_codeOf budget root).keeps hclean hc
  have hevolves := (evolving_codeOf budget root).evolves hc
  have hfind : mid.lowered.find? root.id = some code := find?_of_codeOf hc
  have hlowers : Lowers mid.context code := hfaithful root.id code hfind
  obtain ⟨i, rest, rfl⟩ := List.exists_cons_of_ne_nil hlowers.ne_nil
  have hsteps : mid.steps = 0 := by
    rw [hevolves.rest]
    rfl
  refine ⟨⟨hevolves.outcome, ⟨⟨hmid.globals, hmid.streams⟩, fun frame hframe => ?_, hmid.stack⟩,
    _, [], i, rfl, rfl⟩, hsteps, hevolves.options⟩
  obtain rfl := List.mem_singleton.1 hframe
  exact ⟨clean_bindings.empty, .mk clean_bindings.empty nofun⟩

/-- What a pass comes to before it reaches its limit, it comes to under another limit. -/
theorem PassComesTo.under (h : (ev.under o).PassComesTo root now)
    (hdepth : o'.maxDepth = o.maxDepth) (hgoing : now.outcome = none)
    (hsteps : ∀ most, o'.maxSteps = some most → now.steps ≤ most) :
    (ev.under o').PassComesTo root (now.under o') := by
  obtain ⟨begun, hbegins, hcomes⟩ := h
  obtain ⟨hready, -, hoptions⟩ := hbegins.ready hlowered hsupplied
  have hsame : o'.maxDepth = begun.options.maxDepth := by rw [hoptions, hdepth]
  exact ⟨_, hbegins.under hsupplied (Nat.le_of_eq hdepth.symm),
    hcomes.under hready hsame hgoing hsteps⟩

end Begins

end Evaluator

end Stepwise

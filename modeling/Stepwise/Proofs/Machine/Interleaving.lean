import Stepwise.Proofs.Machine.Aside
import Stepwise.Proofs.Sample

/-!
# Interleavings of steps

While a pass runs, a host may make single steps, step to boundaries, run to the end and queue
values, in any order.  None of this can be told from running the pass in one go.

`Evaluator.upcoming?` is the instruction that the next step executes, from which a log is kept of
what each operation executes (`Operation.perform`).  A log is that of a number of steps, however
they have been asked for (`Executes`), so a pass that has ended has executed what a single run
executes (`Executes.run`).  Queued values are laid aside until the next pass, so leaving the
queueing out makes no difference to anything else (`performAll_advances`).
-/

namespace Stepwise

open Stepwise.Action

/-- What a host can do while a pass is running. -/
inductive Operation where
  | step (budget : Nat)
  | stepToBoundary (budget fuel : Nat)
  | run (budget fuel : Nat)
  | inject (stream : String) (value : Value)

/-- Whether the operation asks for instructions to be executed. -/
def Operation.advances : Operation → Bool
  | inject .. => false
  | _ => true

/-- What the operation queues. -/
def Operation.queues : Operation → Option (String × Value)
  | inject stream value => some (stream, value)
  | _ => none

/-- What has come of operations. -/
structure Record where
  /-- The answers, of the operations that answer anything. -/
  answers : List Step
  /-- The instructions executed. -/
  executed : List Instruction
  after : Evaluator

namespace Evaluator

/-- The instruction that the next step executes, if it executes one. -/
def upcoming? (ev : Evaluator) : Option Instruction :=
  match ev.outcome, ev.reachedLimit?, ev.frames with
  | none, none, frame :: _ => frame.current?
  | _, _, _ => none

/-- The instructions that a run executes. -/
def executedByRun (budget : Nat) : Nat → Evaluator → List Instruction
  | 0, _ => []
  | fuel + 1, ev =>
    ev.upcoming?.toList ++
      match ev.step budget with
      | some (.running, after) => executedByRun budget fuel after
      | _ => []

/-- The instructions that are executed up to the next boundary. -/
def executedToBoundary (budget : Nat) : Nat → Evaluator → List Instruction
  | 0, _ => []
  | fuel + 1, ev =>
    ev.upcoming?.toList ++
      match ev.step budget with
      | some (.running, after) =>
        if after.atBoundary then [] else executedToBoundary budget fuel after
      | _ => []

end Evaluator

/-- Performs the operation, and records what has come of it. -/
def Operation.perform (ev : Evaluator) : Operation → Option Record
  | step budget =>
    (ev.step budget).map fun done => ⟨[done.1], ev.upcoming?.toList, done.2⟩
  | stepToBoundary budget fuel =>
    (ev.stepToBoundary budget fuel).map fun done =>
      ⟨[done.1], ev.executedToBoundary budget fuel, done.2⟩
  | run budget fuel =>
    (ev.run budget fuel).map fun done =>
      ⟨[.ended done.1], ev.executedByRun budget fuel, done.2⟩
  | inject stream value => some ⟨[], [], ev.inject stream value⟩

namespace Evaluator

/-- Performs operations one after the other. -/
def performAll : Evaluator → List Operation → Option Record
  | ev, [] => some ⟨[], [], ev⟩
  | ev, op :: ops => do
    let first ← op.perform ev
    let rest ← performAll first.after ops
    pure ⟨first.answers ++ rest.answers, first.executed ++ rest.executed, rest.after⟩

variable {budget budget' fuel fuel' : Nat} {ev mid after last : Evaluator} {answer : Step}
  {outcome : Outcome} {log more : List Instruction}

/-! ## The next instruction -/

theorem upcoming?_of_outcome (h : ev.outcome = some outcome) : ev.upcoming? = none := by
  simp only [upcoming?, h]

/-- A pass that is running executes an instruction next, unless it has reached its limit. -/
theorem Going.upcoming? (hg : ev.Going) (hl : ev.reachedLimit? = none) :
    ∃ i, ev.upcoming? = some i := by
  obtain ⟨frame, outer, i, hf, hc⟩ := hg.fetches
  exact ⟨i, by simp only [Evaluator.upcoming?, hg.outcome, hl, hf, hc]⟩

/-! ## Logs -/

/-- A number of steps executes these instructions. -/
inductive Executes : Evaluator → List Instruction → Evaluator → Prop
  | refl (ev : Evaluator) : Executes ev [] ev
  | step {budget : Nat} {ev mid after : Evaluator} {answer : Step} {log : List Instruction}
      (hs : ev.step budget = some (answer, mid)) (h : Executes mid log after) :
      Executes ev (ev.upcoming?.toList ++ log) after

theorem Executes.single (hs : ev.step budget = some (answer, after)) :
    ev.Executes ev.upcoming?.toList after := by
  simpa using Executes.step hs (.refl after)

theorem Executes.trans (h : ev.Executes log mid) (h' : mid.Executes more after) :
    ev.Executes (log ++ more) after := by
  induction h with
  | refl => exact h'
  | step hs _ ih =>
    rw [List.append_assoc]
    exact .step hs (ih h')

theorem executes_of_run (h : ev.run budget fuel = some (outcome, last)) :
    ev.Executes (ev.executedByRun budget fuel) last := by
  induction fuel generalizing ev with
  | zero => exact nomatch h
  | succ fuel ih =>
    rw [executedByRun]
    rcases run_succ.1 h with hs | ⟨mid, hs, h⟩
    · rw [hs]
      exact .step hs (.refl last)
    · rw [hs]
      exact .step hs (ih h)

theorem executes_of_stepToBoundary
    (h : ev.stepToBoundary budget fuel = some (answer, after)) :
    ev.Executes (ev.executedToBoundary budget fuel) after := by
  induction fuel generalizing ev with
  | zero => exact nomatch h
  | succ fuel ih =>
    rw [executedToBoundary]
    rcases stepToBoundary_succ.1 h with ⟨outcome, hs, -⟩ |
      ⟨mid, hs, ⟨hb, -, rfl⟩ | ⟨hb, hlater⟩⟩ <;> rw [hs]
    · exact .step hs (.refl after)
    · simp only [hb, if_true]
      exact .step hs (.refl after)
    · simp only [hb, Bool.false_eq_true, if_false]
      exact .step hs (ih hlater)

/-- A pass that has ended executes nothing. -/
theorem executedByRun_of_outcome (h : ev.outcome = some outcome) :
    ev.executedByRun budget fuel = [] := by
  cases fuel with
  | zero => rfl
  | succ fuel =>
    rw [executedByRun, step_of_outcome h, upcoming?_of_outcome h]
    rfl

/-- A run that ends executes the same with more budget and fuel. -/
theorem executedByRun_more (hle : budget ≤ budget') (hfuel : fuel ≤ fuel')
    (h : ev.run budget fuel = some (outcome, last)) :
    ev.executedByRun budget' fuel' = ev.executedByRun budget fuel := by
  induction fuel generalizing ev fuel' with
  | zero => exact nomatch h
  | succ fuel ih =>
    obtain ⟨more, rfl⟩ : ∃ more, fuel' = more + 1 := ⟨fuel' - 1, by omega⟩
    rw [executedByRun, executedByRun]
    rcases run_succ.1 h with hs | ⟨mid, hs, h⟩
    · rw [hs, step_more hle hs]
    · rw [hs, step_more hle hs]
      exact congrArg _ (ih (Nat.le_of_succ_le_succ hfuel) h)

/-- Two runs that end have executed the same. -/
theorem executedByRun_unique {outcome' : Outcome} {last' : Evaluator}
    (h : ev.run budget fuel = some (outcome, last))
    (h' : ev.run budget' fuel' = some (outcome', last')) :
    ev.executedByRun budget' fuel' = ev.executedByRun budget fuel := by
  rw [← executedByRun_more (Nat.le_max_left budget budget') (Nat.le_max_left fuel fuel') h,
    ← executedByRun_more (Nat.le_max_right budget budget') (Nat.le_max_right fuel fuel') h']

/-- A pass that steps have brought to its end is brought there by a single run, which executes the
same instructions. -/
theorem Executes.run (h : ev.Executes log after) (ho : after.outcome = some outcome) :
    ∃ budget fuel, ev.run budget fuel = some (outcome, after) ∧
      ev.executedByRun budget fuel = log := by
  induction h with
  | refl ev => exact ⟨0, 1, run_succ.2 (.inl (step_of_outcome ho)), executedByRun_of_outcome ho⟩
  | @step budget ev mid after answer log hs _ ih =>
    obtain ⟨budget', fuel, hrun, hlog⟩ := ih ho
    cases answer with
    | ended ended =>
      have hended := outcome_of_step hs
      rw [executedByRun_of_outcome hended] at hlog
      obtain ⟨rfl, rfl⟩ := (endsWith_of_outcome hended).unique ⟨budget', fuel, hrun⟩
      refine ⟨budget, 1, run_succ.2 (.inl hs), ?_⟩
      rw [executedByRun, hs, hlog]
    | running =>
      have hs' := step_more (Nat.le_max_left budget budget') hs
      have hle := Nat.le_max_right budget budget'
      refine ⟨max budget budget', fuel + 1, run_succ.2 (.inr ⟨mid, hs',
        run_more hle (Nat.le_refl fuel) hrun⟩), ?_⟩
      rw [executedByRun, hs', ← hlog]
      exact congrArg _ (executedByRun_more hle (Nat.le_refl fuel) hrun)

/-- As long as it has not ended, a pass has an instruction to fetch. -/
theorem Executes.going (h : ev.Executes log after) (hg : ev.outcome = none → ev.Going) :
    after.outcome = none → after.Going := by
  induction h with
  | refl => exact hg
  | @step budget ev mid after answer log hs _ ih =>
    refine ih fun hmid => ?_
    cases answer with
    | ended outcome => exact nomatch (outcome_of_step hs).symm.trans hmid
    | running =>
      cases ho : ev.outcome with
      | none => exact going_of_step (hg ho) hs
      | some outcome =>
        rw [step_of_outcome ho] at hs
        exact nomatch hs

/-! ## Queued values -/

/-- The evaluator with other values queued. -/
def withPending (ev : Evaluator) (pending : List (String × Value)) : Evaluator :=
  { ev with pending := pending }

section Pending

variable {pending : List (String × Value)}

/-- Lowering does not look at what has been queued. -/
theorem reflects_withPending (budget : Nat) (pending : List (String × Value)) :
    Reflects (fun a a' => a' = { a with pending := pending }) (fun _ => True) budget
      fun _ => budget := by
  refine fun e _ ev => ⟨fun {r after a} hR h => ?_⟩
  subst hR
  refine ⟨_, rfl, 0, fun _ _ => ?_⟩
  obtain ⟨code, rfl, ⟨hfound, rfl⟩ | ⟨memo, hnone, hlower, rfl⟩⟩ := codeOf_cases h
  · exact codeOf_of_find? hfound
  · exact codeOf_of_lower hnone hlower

/-- A step does the same whatever has been queued. -/
theorem step_withPending (ev : Evaluator) (pending : List (String × Value)) :
    (ev.withPending pending).step budget =
      (ev.step budget).map fun done => (done.1, done.2.withPending pending) := by
  have same {ev after : Evaluator} {answer : Step} (pending : List (String × Value))
      (h : ev.step budget = some (answer, after)) :
      (ev.withPending pending).step budget = some (answer, after.withPending pending) := by
    obtain ⟨a', rfl, least, hsame⟩ :=
      step_mirrored (reflects_withPending budget pending) (fun _ _ => trivial) rfl h
    exact hsame least (Nat.le_refl least)
  cases h : ev.step budget with
  | some done => exact same pending h
  | none =>
    cases h' : (ev.withPending pending).step budget with
    | none => rfl
    | some done =>
      have hback : ev.step budget = some (done.1, done.2.withPending ev.pending) :=
        @same (ev.withPending pending) _ _ ev.pending h'
      exact nomatch h.symm.trans hback

theorem pending_of_step (h : ev.step budget = some (answer, after)) :
    after.pending = ev.pending := by
  have hown : ev.step budget = (ev.step budget).map fun done =>
      (done.1, done.2.withPending ev.pending) := step_withPending ev ev.pending
  rw [h, Option.map_some] at hown
  exact congrArg (fun done => done.2.pending) (Option.some.inj hown)

theorem Executes.pending_eq (h : ev.Executes log after) : after.pending = ev.pending := by
  induction h with
  | refl => rfl
  | step hs _ ih => exact ih.trans (pending_of_step hs)

theorem run_withPending (ev : Evaluator) (pending : List (String × Value)) :
    (ev.withPending pending).run budget fuel =
        (ev.run budget fuel).map (fun done => (done.1, done.2.withPending pending)) ∧
      (ev.withPending pending).executedByRun budget fuel = ev.executedByRun budget fuel := by
  induction fuel generalizing ev with
  | zero => exact ⟨rfl, rfl⟩
  | succ fuel ih =>
    rw [Evaluator.run, Evaluator.run, executedByRun, executedByRun, step_withPending]
    rcases ev.step budget with _ | ⟨_ | outcome, mid⟩
    · exact ⟨rfl, rfl⟩
    · exact ⟨(ih mid).1, congrArg _ (ih mid).2⟩
    · exact ⟨rfl, rfl⟩

theorem stepToBoundary_withPending (ev : Evaluator) (pending : List (String × Value)) :
    (ev.withPending pending).stepToBoundary budget fuel =
        (ev.stepToBoundary budget fuel).map (fun done => (done.1, done.2.withPending pending)) ∧
      (ev.withPending pending).executedToBoundary budget fuel =
        ev.executedToBoundary budget fuel := by
  induction fuel generalizing ev with
  | zero => exact ⟨rfl, rfl⟩
  | succ fuel ih =>
    rw [stepToBoundary, stepToBoundary, executedToBoundary, executedToBoundary, step_withPending]
    rcases ev.step budget with _ | ⟨_ | outcome, mid⟩
    · exact ⟨rfl, rfl⟩
    · have hboundary : (mid.withPending pending).atBoundary = mid.atBoundary := rfl
      simp only [Option.map_some, hboundary]
      split
      · exact ⟨rfl, rfl⟩
      · exact ⟨(ih mid).1, congrArg _ (ih mid).2⟩
    · exact ⟨rfl, rfl⟩

end Pending

theorem Runs.streams_eq (h : ev.Runs after) : after.streams = ev.streams := by
  induction h with
  | refl => rfl
  | tail _ hw ih => exact hw.streams.trans ih

/-- What is executed leaves the streams as they are. -/
theorem Executes.streams_eq (h : ev.Executes log after) : after.streams = ev.streams := by
  induction h with
  | refl => rfl
  | step hs _ ih => exact ih.trans (runs_of_step hs).streams_eq

/-! ## Operations -/

section Operations

variable {pending : List (String × Value)} {op : Operation} {ops : List Operation} {r : Record}

/-- What is asked for is a number of steps. -/
theorem executes_of_perform (ha : op.advances = true) (h : op.perform ev = some r) :
    ev.Executes r.executed r.after := by
  cases op with
  | inject stream value => exact nomatch ha
  | step budget =>
    obtain ⟨done, hs, rfl⟩ := Option.map_eq_some_iff.1 h
    exact .single hs
  | stepToBoundary budget fuel =>
    obtain ⟨done, hs, rfl⟩ := Option.map_eq_some_iff.1 h
    exact executes_of_stepToBoundary hs
  | run budget fuel =>
    obtain ⟨done, hs, rfl⟩ := Option.map_eq_some_iff.1 h
    exact executes_of_run hs

theorem perform_withPending (ha : op.advances = true) (ev : Evaluator)
    (pending : List (String × Value)) :
    op.perform (ev.withPending pending) =
      (op.perform ev).map fun r => { r with after := r.after.withPending pending } := by
  cases op with
  | inject stream value => exact nomatch ha
  | step budget =>
    simp only [Operation.perform, step_withPending, Option.map_map]
    rfl
  | stepToBoundary budget fuel =>
    obtain ⟨hsame, hlog⟩ := @stepToBoundary_withPending budget fuel ev pending
    simp only [Operation.perform, hsame, hlog, Option.map_map]
    rfl
  | run budget fuel =>
    obtain ⟨hsame, hlog⟩ := @run_withPending budget fuel ev pending
    simp only [Operation.perform, hsame, hlog, Option.map_map]
    rfl

theorem performAll_cons :
    ev.performAll (op :: ops) = some r ↔ ∃ first rest, op.perform ev = some first ∧
      first.after.performAll ops = some rest ∧
      r = ⟨first.answers ++ rest.answers, first.executed ++ rest.executed, rest.after⟩ := by
  simp only [performAll, Option.bind_eq_bind, Option.bind_eq_some_iff, Option.pure_def,
    Option.some.injEq]
  constructor
  · rintro ⟨first, hfirst, rest, hrest, rfl⟩
    exact ⟨first, rest, hfirst, hrest, rfl⟩
  · rintro ⟨first, rest, hfirst, hrest, rfl⟩
    exact ⟨first, hfirst, rest, hrest, rfl⟩

/-- Without the operations that queue values everything else is the same. -/
theorem performAll_advances (h : ev.performAll ops = some r) :
    (ev.withPending pending).performAll (ops.filter Operation.advances) =
      some { r with after := r.after.withPending pending } := by
  induction ops generalizing ev r with
  | nil =>
    obtain rfl := Option.some.inj h
    rfl
  | cons op ops ih =>
    obtain ⟨first, rest, hfirst, hrest, rfl⟩ := performAll_cons.1 h
    cases ha : op.advances with
    | true =>
      rw [List.filter_cons_of_pos ha]
      exact performAll_cons.2 ⟨_, _, by rw [perform_withPending ha, hfirst]; rfl, ih hrest, rfl⟩
    | false =>
      rw [List.filter_cons_of_neg (by simp [ha])]
      cases op with
      | inject stream value =>
        obtain rfl := Option.some.inj hfirst
        exact @ih (ev.inject stream value) rest hrest
      | _ => exact nomatch ha

/-- All operations together are a number of steps, and values queued. -/
theorem executes_of_performAll (h : ev.performAll ops = some r) :
    (ev.withPending pending).Executes r.executed (r.after.withPending pending) := by
  induction ops generalizing ev r with
  | nil =>
    obtain rfl := Option.some.inj h
    exact .refl _
  | cons op ops ih =>
    obtain ⟨first, rest, hfirst, hrest, rfl⟩ := performAll_cons.1 h
    have hlater := ih hrest
    cases ha : op.advances with
    | true =>
      have hsame := perform_withPending ha ev pending
      rw [hfirst, Option.map_some] at hsame
      exact (executes_of_perform ha hsame).trans hlater
    | false =>
      cases op with
      | inject stream value =>
        obtain rfl := Option.some.inj hfirst
        exact hlater
      | _ => exact nomatch ha

theorem pending_of_performAll (h : ev.performAll ops = some r) :
    r.after.pending = ev.pending ++ ops.filterMap Operation.queues := by
  induction ops generalizing ev r with
  | nil =>
    obtain rfl := Option.some.inj h
    exact (List.append_nil _).symm
  | cons op ops ih =>
    obtain ⟨first, rest, hfirst, hrest, rfl⟩ := performAll_cons.1 h
    rw [ih hrest]
    cases op with
    | inject stream value =>
      obtain rfl := Option.some.inj hfirst
      exact List.append_assoc ..
    | _ =>
      rw [(executes_of_perform rfl hfirst).pending_eq]
      rfl

/-- At its limit a pass ends, whichever operation is performed. -/
theorem outcome_of_perform {limit : Nat} (ho : ev.outcome = none)
    (hl : ev.reachedLimit? = some limit) (ha : op.advances = true) (h : op.perform ev = some r) :
    r.after.outcome = some (.halted (ev.exception (.stepLimit limit))) := by
  have hends (budget : Nat) := @step_of_reachedLimit budget ev limit ho hl
  cases op with
  | inject stream value => cases ha
  | step budget =>
    obtain ⟨done, hs, rfl⟩ := Option.map_eq_some_iff.1 h
    cases (hends budget).symm.trans hs
    rfl
  | stepToBoundary budget fuel =>
    obtain ⟨done, hs, rfl⟩ := Option.map_eq_some_iff.1 h
    cases fuel with
    | zero => cases hs
    | succ fuel =>
      cases (stepToBoundary_succ.2 (.inl ⟨_, hends budget, rfl⟩)).symm.trans hs
      rfl
  | run budget fuel =>
    obtain ⟨done, hs, rfl⟩ := Option.map_eq_some_iff.1 h
    cases fuel with
    | zero => cases hs
    | succ fuel =>
      cases (run_succ.2 (.inl (hends budget))).symm.trans hs
      rfl

/-- An operation that asks for instructions executes one, unless the pass has reached its limit. -/
theorem executed_of_perform (hg : ev.Going) (hl : ev.reachedLimit? = none)
    (ha : op.advances = true) (h : op.perform ev = some r) : r.executed ≠ [] := by
  obtain ⟨i, hi⟩ := hg.upcoming? hl
  cases op with
  | inject stream value => cases ha
  | step budget =>
    obtain ⟨done, hs, rfl⟩ := Option.map_eq_some_iff.1 h
    simp [hi]
  | stepToBoundary budget fuel =>
    obtain ⟨done, hs, rfl⟩ := Option.map_eq_some_iff.1 h
    cases fuel with
    | zero => cases hs
    | succ fuel => simp [executedToBoundary, hi]
  | run budget fuel =>
    obtain ⟨done, hs, rfl⟩ := Option.map_eq_some_iff.1 h
    cases fuel with
    | zero => cases hs
    | succ fuel => simp [executedByRun, hi]

end Operations

/-- A pass begins with the queued values applied, and none queued. -/
theorem streams_of_beginPass {root : Expr} (h : ev.beginPass budget root = some after) :
    after.streams = ev.streams.insertAll ev.pending ∧ after.pending = [] := by
  obtain ⟨code, mid, hc, rfl⟩ := beginPass_cases h
  have hrest := ((evolving_codeOf budget root).evolves hc).rest
  exact ⟨congrArg Evaluator.streams hrest, congrArg Evaluator.pending hrest⟩

/-- How a pass is stepped through cannot be told from what it does.

If any steps, steps to boundaries and runs, among which values are queued, bring a pass to its end,
then so does a single run, which executes the same instructions, and every run that ends does.  As
long as the pass is running, each of them executes an instruction, unless the pass has reached its
limit on steps, which ends it.  Once it has ended, each of them answers how and leaves the evaluator
as it is.

Leaving out what queues values changes nothing but what has been queued, and the streams stay as
they are.  The next pass begins with the last value that has been queued for each stream. -/
theorem interleavings_invisible {ctx : Context} {memo : Memo} {options : Options}
    {ev begun : Evaluator} {budget : Nat} {root : Expr} {ops : List Operation} {r : Record}
    (hreaches : (new ctx memo options).Reaches ev)
    (hbegin : ev.beginPass budget root = some begun) (hops : begun.performAll ops = some r) :
    (∀ outcome, r.after.outcome = some outcome →
      (∃ budget fuel last, begun.run budget fuel = some (outcome, last)) ∧
      ∀ budget fuel outcome' last, begun.run budget fuel = some (outcome', last) →
        outcome' = outcome ∧ last = { r.after with pending := [] } ∧
        begun.executedByRun budget fuel = r.executed) ∧
    (r.after.outcome = none → ∀ (op : Operation) (next : Record), op.advances = true →
      op.perform r.after = some next →
      next.executed ≠ [] ∨ ∃ limit, r.after.reachedLimit? = some limit ∧
        next.after.outcome = some (.halted (r.after.exception (.stepLimit limit)))) ∧
    (∀ outcome, r.after.outcome = some outcome → ∀ budget fuel,
      r.after.step budget = some (.ended outcome, r.after) ∧
      r.after.stepToBoundary budget (fuel + 1) = some (.ended outcome, r.after) ∧
      r.after.run budget (fuel + 1) = some (outcome, r.after)) ∧
    begun.performAll (ops.filter Operation.advances) =
      some { r with after := { r.after with pending := [] } } ∧
    r.after.streams = begun.streams ∧
    ∀ budget root next, r.after.beginPass budget root = some next →
      next.pending = [] ∧ ∀ stream, next.streams.find? stream =
        ((ops.filterMap Operation.queues).reverse.lookup stream).or
          (begun.streams.find? stream) := by
  obtain ⟨-, hpending⟩ := streams_of_beginPass hbegin
  have hstart : begun.withPending [] = begun := by
    rw [withPending, ← hpending]
  have hexecutes : begun.Executes r.executed (r.after.withPending []) :=
    hstart ▸ executes_of_performAll hops
  have hgoing : r.after.outcome = none → r.after.Going := fun ho => by
    have hbegun := going_of_beginPass (faithful_of_passes (Reaches.passes hreaches)) hbegin
    have hafter := hexecutes.going (fun _ => hbegun) ho
    exact ⟨ho, hafter.fetches⟩
  have hstreams : r.after.streams = begun.streams := hexecutes.streams_eq
  refine ⟨fun outcome ho => ?_, fun ho op next ha h => ?_, fun outcome ho budget fuel => ?_,
    hstart ▸ performAll_advances hops, hstreams, fun budget root next hnext => ?_⟩
  · have hended : (r.after.withPending []).outcome = some outcome := ho
    obtain ⟨budget, fuel, hrun, hlog⟩ := hexecutes.run hended
    refine ⟨⟨budget, fuel, _, hrun⟩, fun budget' fuel' outcome' last hrun' => ?_⟩
    obtain ⟨rfl, rfl⟩ := EndsWith.unique ⟨budget, fuel, hrun⟩ ⟨budget', fuel', hrun'⟩
    exact ⟨rfl, rfl, (executedByRun_unique hrun hrun').trans hlog⟩
  · cases hl : r.after.reachedLimit? with
    | none => exact .inl (executed_of_perform (hgoing ho) hl ha h)
    | some limit => exact .inr ⟨limit, rfl, outcome_of_perform ho hl ha h⟩
  · have hs : r.after.step budget = some (.ended outcome, r.after) := step_of_outcome ho
    exact ⟨hs, stepToBoundary_succ.2 (.inl ⟨outcome, hs, rfl⟩), run_succ.2 (.inl hs)⟩
  · obtain ⟨hnext, hnone⟩ := streams_of_beginPass hnext
    refine ⟨hnone, fun stream => ?_⟩
    rw [hnext, Assoc.find?_insertAll, pending_of_performAll hops, hpending, hstreams,
      List.nil_append]

/-- The list `⎡s⎦`, where `s` is a stream. -/
def streamed : Expr :=
  listOf 0 [referenceOf 1 "s"]

/-- Whether operations have ended a pass with the list `⎡⊤⎦` in three instructions, and another pass
can begin. -/
def listsTruth (r : Record) : Bool :=
  match r.after.outcome with
  | some (.produced (.list [.boolean true])) =>
    r.executed.length == 3 && (r.after.beginPass 2 streamed).isSome
  | _ => false

theorem listsTruth_iff {r : Record} :
    listsTruth r = true ↔ r.after.outcome = some (.produced (.list [.boolean true])) ∧
      r.executed.length = 3 ∧ (r.after.beginPass 2 streamed).isSome = true := by
  unfold listsTruth
  split
  · rename_i h
    simp [h]
  · rename_i h
    simp only [Bool.false_eq_true, false_iff, not_and]
    exact fun heq => (h heq).elim

/-- Two values are queued while a pass is stepped through, which sees neither of them.  The next
pass sees the second. -/
theorem interleavings_invisible_streamed :
    let ev := (new { lexicon := .empty } .empty {}).inject "s" (.boolean true)
    let ops : List Operation := [.inject "s" (.text ⟨"a", none⟩), .step 2,
      .inject "s" (.boolean false), .stepToBoundary 2 2, .run 2 2, .step 2]
    ∃ begun r, ev.beginPass 2 streamed = some begun ∧ begun.performAll ops = some r ∧
      r.executed.length = 3 ∧
      (∃ budget fuel last,
        begun.run budget fuel = some (.produced (.list [.boolean true]), last)) ∧
      ∃ next, r.after.beginPass 2 streamed = some next ∧
        next.streams.find? "s" = some (.boolean false) := by
  intro ev ops
  have hperformed : ((ev.beginPass 2 streamed).bind (·.performAll ops)).any listsTruth = true := by
    decide +kernel
  obtain ⟨r, hr, hlists⟩ := (Option.any_eq_true _ _).1 hperformed
  obtain ⟨begun, hbegin, hops⟩ := Option.bind_eq_some_iff.1 hr
  obtain ⟨houtcome, hlength, hnext⟩ := listsTruth_iff.1 hlists
  obtain ⟨next, hnext⟩ := Option.isSome_iff_exists.1 hnext
  have hreaches : (new { lexicon := .empty } .empty {}).Reaches ev :=
    .single (.inject "s" (.boolean true) rfl)
  obtain ⟨hruns, -, -, -, -, hlater⟩ := interleavings_invisible hreaches hbegin hops
  refine ⟨begun, r, hbegin, hops, hlength, (hruns _ houtcome).1, next, hnext, ?_⟩
  rw [(hlater 2 streamed next hnext).2 "s"]
  rfl

end Evaluator

end Stepwise

import Stepwise.Proofs.Machine.Levels
import Stepwise.Proofs.Reference.Mirror

/-!
# What lies ahead of a pass

How a pass ends is said here without the number of steps that this takes: every step can then be
undone (`Evaluator.leads_act`), and a frame that has finished can be taken off
(`Evaluator.leads_handDown`).  The states that the pass comes to are kept as well, since a call that
does not agree with what has been laid out for it is met in one of them.

A prospect realizes an evaluation (`Realizes`) when it leads to where the evaluation gets, or ends
as its fault says.
-/

namespace Stepwise

open Stepwise.Action

/-- How a pass ends, and the states that it comes to. -/
structure Prospect where
  ends : Outcome → Prop
  comes : Evaluator → Prop

/-- One prospect is that of an earlier state than the other. -/
structure Prospect.Leads (before later : Prospect) : Prop where
  ends : ∀ outcome, before.ends outcome ↔ later.ends outcome
  comes : ∀ now, later.comes now → before.comes now

namespace Prospect

variable {before later last : Prospect}

theorem Leads.refl (prospect : Prospect) : prospect.Leads prospect :=
  ⟨fun _ => Iff.rfl, fun _ h => h⟩

theorem Leads.trans (h : before.Leads later) (h' : later.Leads last) : before.Leads last := by
  constructor
  · intro outcome
    exact (h.ends outcome).trans (h'.ends outcome)
  · intro now hnow
    exact h.comes now (h'.comes now hnow)

end Prospect

namespace Evaluator

/-- What a pass comes to step by step, for as long as it goes on. -/
abbrev Steps (budget : Nat) : Evaluator → Evaluator → Prop :=
  Relation.ReflTransGen fun now next => now.step budget = some (.running, next)

/-- How the pass ends after an answer of a step. -/
def Answers (budget : Nat) (r : Step × Evaluator) (outcome : Outcome) : Prop :=
  match r with
  | (.ended ended, _) => outcome = ended
  | (.running, after) => ∃ fuel last, after.run budget fuel = some (outcome, last)

/-- What lies ahead when the pass is run. -/
def running (budget : Nat) (ev : Evaluator) : Prospect where
  ends outcome := ∃ fuel last, ev.run budget fuel = some (outcome, last)
  comes := ev.Steps budget

/-- What lies ahead once finished frames have handed their results down. -/
def prospect (budget : Nat) (ev : Evaluator) : Prospect where
  ends := Answers budget ev.completeFrames
  comes now := ∃ mid, ev.completeFrames = (.running, mid) ∧ mid.Steps budget now

/-- What lies ahead after what an instruction does. -/
def prospectAfter (budget : Nat) (r : Option (Except Exception Unit × Evaluator)) : Prospect where
  ends outcome :=
    match r with
    | none => False
    | some (.ok _, mid) => (mid.prospect budget).ends outcome
    | some (.error x, _) => outcome = .halted x
  comes now := ∃ mid, r = some (.ok (), mid) ∧ (mid.prospect budget).comes now

variable {budget : Nat} {ev : Evaluator} {frame : Frame} {outer : List Frame} {outcome : Outcome}

/-- A run begins with a step and goes on as this step answers. -/
theorem exists_run_iff :
    (∃ fuel last, ev.run budget fuel = some (outcome, last)) ↔
      ∃ r, ev.step budget = some r ∧ Answers budget r outcome := by
  constructor
  · rintro ⟨fuel, last, h⟩
    cases fuel with
    | zero => simp [run] at h
    | succ fuel =>
      rw [run] at h
      split at h
      · simp at h
      · rename_i ended after hs
        have hended : outcome = ended := (Prod.mk.inj (Option.some.inj h)).1.symm
        exact ⟨_, hs, hended⟩
      · rename_i after hs
        exact ⟨_, hs, fuel, last, h⟩
  · rintro ⟨⟨answer, after⟩, hs, h⟩
    cases answer with
    | ended ended =>
      obtain rfl : outcome = ended := h
      have hrun : ev.run budget 1 = some (outcome, after) := by rw [run, hs]
      exact ⟨1, after, hrun⟩
    | running =>
      obtain ⟨fuel, last, h⟩ := h
      have hrun : ev.run budget (fuel + 1) = some (outcome, last) := by
        rw [run, hs]
        exact h
      exact ⟨fuel + 1, last, hrun⟩

/-- Whether finished frames hand their results down at once or in the next step is all the same. -/
theorem leads_running (ho : ev.outcome = none) (hl : ev.reachedLimit? = none)
    (hf : ev.frames = frame :: outer) : (ev.running budget).Leads (ev.prospect budget) := by
  cases hd : frame.isDone with
  | false =>
    have hcomplete : ev.completeFrames = (.running, ev) := completeFrames_active hf hd
    constructor
    · intro outcome
      show _ ↔ Answers budget ev.completeFrames outcome
      rw [hcomplete]
      exact Iff.rfl
    · rintro now ⟨mid, hmid, hnow⟩
      obtain rfl : ev = mid := (Prod.mk.inj (hcomplete.symm.trans hmid)).2
      exact hnow
  | true =>
    have hcurrent : frame.current? = none := by
      rw [Frame.current?, List.getElem?_eq_none_iff]
      simpa [Frame.isDone] using hd
    have hstep : ev.step budget = some ev.completeFrames := by
      rw [step_eq budget ho hl hf, hcurrent]
    constructor
    · intro outcome
      show (∃ fuel last, ev.run budget fuel = some (outcome, last)) ↔ _
      rw [exists_run_iff, hstep]
      simp [prospect]
    · rintro now ⟨mid, hmid, hnow⟩
      have hnext : ev.step budget = some (.running, mid) := by rw [hstep, hmid]
      exact .head hnext hnow

/-- The instruction under the cursor acts. -/
theorem leads_act {i : Instruction} (ho : ev.outcome = none) (hl : ev.reachedLimit? = none)
    (hf : ev.frames = frame :: outer) (hc : frame.current? = some i) :
    (ev.prospect budget).Leads
      (prospectAfter budget (i.act budget (ev.fetch frame outer i))) := by
  have hd : frame.isDone = false := by
    obtain ⟨hlt, -⟩ := List.getElem?_eq_some_iff.1 hc
    simpa [Frame.isDone] using hlt
  have hcomplete : ev.completeFrames = (.running, ev) := completeFrames_active hf hd
  have hstep : ev.step budget = (i.act budget (ev.fetch frame outer i)).map settle := by
    rw [step_eq budget ho hl hf, hc]
  constructor
  · intro outcome
    show Answers budget ev.completeFrames outcome ↔ _
    rw [hcomplete]
    show (∃ fuel last, ev.run budget fuel = some (outcome, last)) ↔ _
    rw [exists_run_iff, hstep]
    rcases i.act budget (ev.fetch frame outer i) with _ | ⟨x | u, mid⟩
    · simp [prospectAfter]
    · simp [prospectAfter, settle, halt, finishPass, Answers]
    · simp [prospectAfter, settle, prospect]
  · rintro now ⟨mid, ha, next, hnext, hnow⟩
    have hfirst : ev.step budget = some (.running, next) := by
      rw [hstep, ha, ← hnext]
      rfl
    exact ⟨ev, hcomplete, .head hfirst hnow⟩

/-- A finished frame hands its result down. -/
theorem leads_handDown {caller : Frame} {value : Value} (hf : ev.frames = frame :: caller :: outer)
    (hd : frame.isDone = true) (hr : ev.result? frame = some value)
    (hv : value.isException = false) :
    (ev.prospect budget).Leads
      ((ev.handDown frame value (caller :: outer)).prospect budget) := by
  have hcomplete : ev.completeFrames =
      (ev.handDown frame value (caller :: outer)).completeFrames := by
    rw [completeFrames_done hf hd, hr]
    exact deliver_cons hv
  constructor
  · intro outcome
    show Answers budget ev.completeFrames outcome ↔ _
    rw [hcomplete]
    exact Iff.rfl
  · rintro now ⟨mid, hmid, hnow⟩
    exact ⟨mid, hcomplete.trans hmid, hnow⟩

/-- A pass comes to where it goes on from. -/
theorem comes_self (hf : ev.frames = frame :: outer) (hd : frame.isDone = false) :
    (ev.prospect budget).comes ev :=
  ⟨ev, completeFrames_active hf hd, .refl⟩

/-- The pass goes on behind an instruction that succeeds. -/
theorem leads_of_act {r : Option (Except Exception Unit × Evaluator)} {mid : Evaluator}
    (h : r = some (.ok (), mid)) : (prospectAfter budget r).Leads (mid.prospect budget) := by
  subst h
  refine ⟨fun _ => Iff.rfl, ?_⟩
  intro now hnow
  exact ⟨mid, rfl, hnow⟩

/-- The pass ends with the result of its last frame. -/
theorem ends_iff_produced {value : Value} (hf : ev.frames = [frame]) (hd : frame.isDone = true)
    (hr : ev.result? frame = some value) (hv : value.isException = false) :
    (ev.prospect budget).ends outcome ↔ outcome = .produced value := by
  show Answers budget ev.completeFrames outcome ↔ _
  rw [completeFrames_done hf hd, hr]
  dsimp only
  rw [deliver_nil hv]
  exact Iff.rfl

end Evaluator

/-! ## Realizing -/

namespace Reference

open Evaluator

variable {α β γ : Type} {budget : Nat} {before later : Prospect} {store : Store}
  {R : α → Store → Evaluator → Prop} {S : β → Store → Evaluator → Prop}

/-- What lies ahead of a pass in which there is a fault.  A call that does not match is one that the
pass comes to. -/
def Fault.Decides (fault : Fault) (prospect : Prospect) : Prop :=
  match fault with
  | .raised x => ∀ outcome, prospect.ends outcome ↔ outcome = .halted x
  | .tooDeep => ∃ x limit, x.kind = .stackOverflow limit ∧
      ∀ outcome, prospect.ends outcome ↔ outcome = .halted x
  | .unlaid => ∀ outcome, ¬prospect.ends outcome
  | .mismatched => ∃ now, prospect.comes now ∧ ¬now.Agrees

/-- A pass gets to where an evaluation gets, or ends as its fault says. -/
def Realizes (budget : Nat) (prospect : Prospect) (result : Except Fault (α × Store))
    (R : α → Store → Evaluator → Prop) : Prop :=
  match result with
  | .ok (a, store) => ∃ after, R a store after ∧ prospect.Leads (after.prospect budget)
  | .error fault => fault.Decides prospect

theorem Fault.Decides.of_leads {fault : Fault} (h : fault.Decides later)
    (hl : before.Leads later) : fault.Decides before := by
  cases fault with
  | raised x =>
    intro outcome
    exact (hl.ends outcome).trans (h outcome)
  | tooDeep =>
    obtain ⟨x, limit, hx, h⟩ := h
    exact ⟨x, limit, hx, fun outcome => (hl.ends outcome).trans (h outcome)⟩
  | unlaid =>
    intro outcome hends
    exact h outcome ((hl.ends outcome).1 hends)
  | mismatched =>
    obtain ⟨now, hnow, hagrees⟩ := h
    exact ⟨now, hl.comes now hnow, hagrees⟩

theorem Realizes.of_leads {result : Except Fault (α × Store)} (h : Realizes budget later result R)
    (hl : before.Leads later) : Realizes budget before result R := by
  match result with
  | .error fault => exact Fault.Decides.of_leads h hl
  | .ok (a, mid) =>
    obtain ⟨after, hafter, hlater⟩ := h
    exact ⟨after, hafter, hl.trans hlater⟩

/-- A sequence is realized part by part. -/
theorem Realizes.bind {m : Evaluation α} {f : α → Evaluation β}
    (h : Realizes budget before (m store) R)
    (hf : ∀ a mid after, R a mid after → Realizes budget (after.prospect budget) (f a mid) S) :
    Realizes budget before ((m >>= f) store) S := by
  cases hm : m store with
  | error fault =>
    rw [hm] at h
    rw [bind_error hm]
    exact h
  | ok r =>
    obtain ⟨a, mid⟩ := r
    rw [hm] at h
    obtain ⟨after, hr, hl⟩ := h
    rw [bind_ok hm]
    exact (hf a mid after hr).of_leads hl

/-- The machine may go on from where it gets. -/
theorem Realizes.onward {result : Except Fault (α × Store)} {T : α → Store → Evaluator → Prop}
    (h : Realizes budget before result R)
    (hr : ∀ a mid after, R a mid after →
      ∃ done, T a mid done ∧ (after.prospect budget).Leads (done.prospect budget)) :
    Realizes budget before result T := by
  match result with
  | .error fault => exact h
  | .ok (a, mid) =>
    obtain ⟨after, hafter, hl⟩ := h
    obtain ⟨done, hdone, hl'⟩ := hr a mid after hafter
    exact ⟨done, hdone, hl.trans hl'⟩

theorem Realizes.and_eq {result : Except Fault (α × Store)} (h : Realizes budget before result R) :
    Realizes budget before result fun a mid after => R a mid after ∧ result = .ok (a, mid) := by
  match result with
  | .error fault => exact h
  | .ok (a, mid) =>
    obtain ⟨after, hafter, hl⟩ := h
    exact ⟨after, ⟨hafter, rfl⟩, hl⟩

theorem Fault.Stops.decides {fault : Fault} {r : Option (Except Exception Unit × Evaluator)}
    (h : fault.Stops r) : fault.Decides (prospectAfter budget r) := by
  cases fault with
  | raised x =>
    obtain ⟨after, rfl⟩ := h
    intro outcome
    exact Iff.rfl
  | tooDeep =>
    obtain ⟨x, limit, after, rfl, hx⟩ := h
    exact ⟨x, limit, hx, fun _ => Iff.rfl⟩
  | unlaid =>
    obtain rfl : r = none := h
    intro outcome hends
    exact hends
  | mismatched => exact h.elim

/-- What mirrors an evaluation realizes it. -/
theorem Mirrors.realizes {r : Option (Except Exception Unit × Evaluator)}
    {result : Except Fault (α × Store)} {M : Unit → Evaluator → α → Store → Prop}
    (h : Mirrors r result M) (hr : ∀ after a mid, M () after a mid → R a mid after) :
    Realizes budget (prospectAfter budget r) result R := by
  match result with
  | .error fault => exact Fault.Stops.decides h
  | .ok (a, mid) =>
    obtain ⟨⟨⟩, after, rfl, hm⟩ := h
    exact ⟨after, hr after a mid hm, leads_of_act rfl⟩

/-- A sequence realizes an evaluation when its first part mirrors the first part. -/
theorem Mirrors.bind_realizes {m : Action γ} {f : γ → Action Unit} {m' : Evaluation α}
    {f' : α → Evaluation β} {ev : Evaluator} {M : γ → Evaluator → α → Store → Prop}
    (h : Mirrors (m ev) (m' store) M)
    (hf : ∀ c after a mid, M c after a mid →
      Realizes budget (prospectAfter budget (f c after)) (f' a mid) S) :
    Realizes budget (prospectAfter budget ((m >>= f) ev)) ((m' >>= f') store) S := by
  cases hm : m' store with
  | error fault =>
    rw [hm] at h
    rw [bind_error hm]
    exact (Fault.Stops.bind f h).decides
  | ok r =>
    obtain ⟨a, mid⟩ := r
    rw [hm] at h
    obtain ⟨c, after, hc, hr⟩ := h
    rw [bind_ok hm, bind_apply, hc]
    exact hf c after a mid hr

end Reference

end Stepwise

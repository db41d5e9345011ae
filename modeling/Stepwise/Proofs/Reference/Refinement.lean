import Stepwise.Program
import Stepwise.Proofs.Assoc
import Stepwise.Proofs.Machine.Independence
import Stepwise.Proofs.Reference.Depth
import Stepwise.Proofs.Reference.Simulation
import Stepwise.Proofs.Sample

/-!
# Passes refine the reference evaluation

A pass runs the code of its root expression in a frame of its own, at a place with no frames below
(`Place.root`).  With no limit on steps it ends in exactly the way in which the reference evaluation
ends (`refines_reference`), as long as the limit on frames is not hit and each call agrees with what
has been laid out for it.

Whether the calls of a run agree can be found out by running (`agrees_of_steps`).  The layouts that
the reference evaluation starts with are those of the code that has been lowered in earlier passes;
every evaluator that a host can come to has such layouts (`exists_covers`).  A new evaluator has
none, and as long as identities tell expressions apart the layout that is kept for a body is its own
(`refines_reference_new`).
-/

namespace Stepwise

/-! ## Runs -/

namespace Evaluator

variable {budget : Nat} {ev now : Evaluator}

/-- A run ends in one way only. -/
theorem run_unique {fuel fuel' : Nat} {r r' : Outcome × Evaluator}
    (h : ev.run budget fuel = some r) (h' : ev.run budget fuel' = some r') : r = r' := by
  induction fuel generalizing ev fuel' with
  | zero => simp [run] at h
  | succ fuel ih =>
    cases fuel' with
    | zero => simp [run] at h'
    | succ fuel' =>
      rw [run] at h h'
      rcases hs : ev.step budget with _ | ⟨answer, after⟩
      · simp [hs] at h
      · rw [hs] at h h'
        cases answer with
        | ended outcome => exact Option.some.inj (h.symm.trans h')
        | running => exact ih h h'

/-- Whether a pass ends within so many steps, and all calls that it comes to agree. -/
def agreesWithin (budget : Nat) : Nat → Evaluator → Bool
  | 0, _ => false
  | fuel + 1, ev =>
    ev.agreesNow &&
      match ev.step budget with
      | some (.running, next) => next.agreesWithin budget fuel
      | _ => true

/-- By induction on the number of steps, as the state that is come to is the present one or comes
after the next. -/
theorem agrees_of_steps {fuel : Nat} (h : ev.agreesWithin budget fuel = true)
    (hs : ev.Steps budget now) : now.Agrees := by
  induction fuel generalizing ev with
  | zero => simp [agreesWithin] at h
  | succ fuel ih =>
    rw [agreesWithin, Bool.and_eq_true] at h
    obtain ⟨hnow, hnext⟩ := h
    rcases hs.cases_head with rfl | ⟨next, hstep, hs⟩
    · exact agreesNow_iff.1 hnow
    · rw [hstep] at hnext
      exact ih hnext hs

end Evaluator

namespace Reference

open Stepwise.Evaluator

/-! ## Layouts of lowered code -/

/-- Nothing has been lowered in the beginning. -/
theorem covers_empty (ctx : Context) : Covers ctx .empty .empty :=
  ⟨fun _ => rfl, fun _ _ h => by simp at h⟩

/-- Code can be taken for that of any layout that it is the code of. -/
theorem Covers.replace {ctx : Context} {layouts : Assoc NodeId Layout} {lowered : Assoc NodeId Code}
    (h : Covers ctx layouts lowered) {id : NodeId} {found : Layout} (hf : found.Formed ctx)
    (hcode : lowered.find? id = some found.code) :
    Covers ctx (layouts.insert id found) lowered := by
  refine ⟨fun other => ?_, (h.insert id hf).formed⟩
  rw [Assoc.find?_insert]
  split
  · rename_i hid
    rw [eq_of_beq hid, hcode]
    rfl
  · exact h.code other

/-- Whatever a host has done, the code that has been lowered is that of some layouts. -/
theorem exists_covers {ctx : Context} {memo : Memo} {options : Options} {ev : Evaluator}
    (h : (new ctx memo options).Passes ev) : ∃ layouts, Covers ev.context layouts ev.lowered := by
  have hfaithful := faithful_of_passes h
  have hread (code : Code) : ∃ found : Layout, Lowers ev.context code →
      found.code = code ∧ found.Formed ev.context := by
    by_cases hlowers : Lowers ev.context code
    · obtain ⟨budget, e, memo, after, hlower⟩ := hlowers
      obtain ⟨found, -, hcode, hformed⟩ := exists_layout_of_lower hlower
      exact ⟨found, fun _ => ⟨hcode, hformed⟩⟩
    · exact ⟨.halt ⟨0⟩ .unparsable, fun hl => absurd hl hlowers⟩
  obtain ⟨read, hread⟩ := Classical.axiomOfChoice hread
  refine ⟨ev.lowered.map read, ?_, ?_⟩
  · intro id
    rw [Assoc.find?_map]
    cases hf : ev.lowered.find? id with
    | none => rfl
    | some code => exact congrArg some (hread code (hfaithful id code hf)).1.symm
  · intro id found hfound
    rw [Assoc.find?_map] at hfound
    obtain ⟨code, hf, rfl⟩ := Option.map_eq_some_iff.1 hfound
    exact (hread code (hfaithful id code hf)).2

/-! ## Passes -/

/-- The place of the root expression. -/
def Place.root (ev : Evaluator) (budget : Nat) (node : NodeId) (code : Code)
    (hsteps : ev.options.maxSteps = none) : Place where
  env := Env.ofPass ev budget
  options := ev.options
  frame :=
    { kind := .program, node := node, code := code, bindings := .empty,
      scope := .mk (.captured ev.nextScope) .empty none }
  outer := []
  scope := rfl
  definition := rfl
  unlimited := hsteps

section Passes

variable {ev begun : Evaluator} {budget : Nat} {layouts : Assoc NodeId Layout} {root : Expr}

/-- A pass begins where the reference evaluation does. -/
theorem holds_of_beginPass (hsteps : ev.options.maxSteps = none)
    (hc : Covers ev.context layouts ev.lowered) (hbegin : ev.beginPass budget root = some begun) :
    ∃ layout store, (Env.ofPass ev budget).layoutOf root (Store.ofPass ev layouts) =
        .ok (layout, store) ∧ layout.Formed ev.context ∧
      (Place.root ev budget root.id layout.code hsteps).Holds 0 store [] begun := by
  obtain ⟨code, mid, hcode, rfl⟩ := beginPass_cases hbegin
  have hctx : ev.reset.context = (Env.ofPass ev budget).context := rfl
  have hmemo : ev.reset.memo = (Store.ofPass ev layouts).memo := rfl
  have hfound := mirrors_codeOf root hctx hmemo hc
  have hbudget : (Env.ofPass ev budget).budget = budget := rfl
  rw [hbudget, hcode] at hfound
  cases hl : (Env.ofPass ev budget).layoutOf root (Store.ofPass ev layouts) with
  | error fault =>
    obtain rfl := fault_of_layoutOf hl
    rw [hl] at hfound
    exact nomatch hfound
  | ok r =>
    obtain ⟨layout, store⟩ := r
    rw [hl] at hfound
    obtain ⟨found, after, heq, rfl, hformed, hlearnt⟩ := hfound
    simp only [Option.some.injEq, Prod.mk.injEq, Except.ok.injEq] at heq
    obtain ⟨rfl, rfl⟩ := heq
    refine ⟨layout, store, rfl, hformed, ?_⟩
    obtain ⟨hcovers, hmid, hstore⟩ := hlearnt
    have hnext : store.nextScope = ev.nextScope + 1 := by rw [hstore]; rfl
    have hbindings : store.bindings = .empty := by rw [hstore]; rfl
    generalize mid.lowered = lowered at hcovers hmid
    subst hmid
    exact
      { context := rfl, globals := rfl, streams := rfl, options := rfl, memo := rfl
        nextScope := hnext.symm
        covers := hcovers
        running := rfl
        frames := by rw [Place.frameAt, hbindings]; rfl
        stack := rfl
        base := Nat.le_refl 0 }

/-- A pass ends as the reference evaluation says, if that may enter as many frames as the pass. -/
theorem decides_pass (hsteps : ev.options.maxSteps = none)
    (hc : Covers ev.context layouts ev.lowered) (hbegin : ev.beginPass budget root = some begun) :
    match evaluatePass ev budget (ev.options.maxDepth - 1) layouts root with
    | .ok value => ∀ outcome, (begun.running budget).ends outcome ↔ outcome = .produced value
    | .error fault => fault.Decides (begun.running budget) := by
  obtain ⟨layout, store, hlayout, hformed, hbegun⟩ := holds_of_beginPass hsteps hc hbegin
  have hlimit : begun.reachedLimit? = none := by
    rw [Evaluator.reachedLimit?, hbegun.options]
    show Option.filter _ ev.options.maxSteps = none
    rw [hsteps, Option.filter_none]
  have hdrop : layout.code.drop 0 = layout.code ++ [] := by rw [List.drop_zero, List.append_nil]
  have hpass := ((realizable _ _ layout rfl hformed).realizes hbegun hdrop).of_leads
    (leads_running hbegun.running hlimit hbegun.frames)
  have heq : evaluatePass ev budget (ev.options.maxDepth - 1) layouts root =
      (evaluateAt (ev.options.maxDepth - 1) (Env.ofPass ev budget) layout store).map Prod.fst := by
    show (((Env.ofPass ev budget).layoutOf root >>= _) (Store.ofPass ev layouts)).map _ = _
    rw [bind_ok hlayout]
  rw [heq]
  change Realizes budget (begun.running budget)
    (evaluateAt (ev.options.maxDepth - 1) (Env.ofPass ev budget) layout store) _ at hpass
  cases hr : evaluateAt (ev.options.maxDepth - 1) (Env.ofPass ev budget) layout store with
  | error fault =>
    rw [hr] at hpass
    exact hpass
  | ok r =>
    obtain ⟨value, last⟩ := r
    rw [hr] at hpass
    obtain ⟨after, ⟨hafter, hv⟩, hleads⟩ := hpass
    have hdone : ((Place.root ev budget root.id layout.code hsteps).frameAt
        (0 + layout.code.length) last).isDone = true := by
      simp [Frame.isDone, Place.frameAt, Place.root]
    have hresult : after.result? ((Place.root ev budget root.id layout.code hsteps).frameAt
        (0 + layout.code.length) last) = some value :=
      result?_of_items (by simp [Place.frameAt, Place.root]) hafter.stack (Nat.zero_le _)
    intro outcome
    exact (hleads.ends outcome).trans
      (ends_iff_produced hafter.frames hdone hresult (hv value (by simp)))

/-- The ends of a pass that has frames and values enough are the results of the reference evaluation
that may enter as many frames, and these are enough. -/
theorem ends_iff_evaluates (hsteps : ev.options.maxSteps = none)
    (hc : Covers ev.context layouts ev.lowered) (hbegin : ev.beginPass budget root = some begun)
    (hdepth : ∀ fuel x after limit, begun.run budget fuel = some (.halted x, after) →
      x.kind ≠ .stackOverflow limit)
    (hplans : ∀ now, begun.Steps budget now → now.Agrees) :
    evaluatePass ev budget (ev.options.maxDepth - 1) layouts root ≠ .error .tooDeep ∧
      ∀ outcome, (begun.running budget).ends outcome ↔
        evaluatePass ev budget (ev.options.maxDepth - 1) layouts root = resultOf outcome := by
  have hpass := decides_pass hsteps hc hbegin
  have hdeep : evaluatePass ev budget (ev.options.maxDepth - 1) layouts root ≠
      .error .tooDeep := by
    intro hdeep
    rw [hdeep] at hpass
    obtain ⟨x, limit, hkind, hends⟩ := hpass
    obtain ⟨fuel, after, hrun⟩ := (hends (.halted x)).2 rfl
    exact hdepth fuel x after limit hrun hkind
  refine ⟨hdeep, fun outcome => ?_⟩
  match hr : evaluatePass ev budget (ev.options.maxDepth - 1) layouts root with
  | .ok value =>
    rw [hr] at hpass
    rw [hpass outcome]
    cases outcome <;> simp [resultOf, eq_comm]
  | .error (.raised x) =>
    rw [hr] at hpass
    have hends : (begun.running budget).ends outcome ↔ outcome = .halted x := hpass outcome
    rw [hends]
    cases outcome <;> simp [resultOf, eq_comm]
  | .error .unlaid =>
    rw [hr] at hpass
    have hends : ¬(begun.running budget).ends outcome := hpass outcome
    cases outcome <;> simp [resultOf, hends]
  | .error .mismatched =>
    rw [hr] at hpass
    obtain ⟨now, hnow, hagrees⟩ := hpass
    exact absurd (hplans now hnow) hagrees
  | .error .tooDeep => exact absurd hr hdeep

/-- Take a pass with no limit on steps that does not halt for want of frames, and in which each call
that is executed agrees with what has been laid out for it.  It ends in a way, which is a value or
an exception, if and only if the reference evaluation of its root expression does. -/
theorem refines_reference (hsteps : ev.options.maxSteps = none)
    (hc : Covers ev.context layouts ev.lowered) (hbegin : ev.beginPass budget root = some begun)
    (hdepth : ∀ fuel x after limit, begun.run budget fuel = some (.halted x, after) →
      x.kind ≠ .stackOverflow limit)
    (hplans : ∀ now, begun.Steps budget now → now.Agrees) (outcome : Outcome) :
    (∃ fuel after, begun.run budget fuel = some (outcome, after)) ↔
      Means ev budget layouts root outcome := by
  obtain ⟨hdeep, hends⟩ := ends_iff_evaluates hsteps hc hbegin hdepth hplans
  rw [means_iff hdeep]
  exact hends outcome

/-- A function that negates its input, and a call of it with `⊥`. -/
def negation : Program :=
  let body := choiceOf 4 (referenceOf 5 "x") (booleanOf 6 false) (booleanOf 7 true)
  let f := functionOf 1 "f" [binderOf 2 "x" (some .boolean) none] none (some body)
  ⟨.block ⟨0⟩ [.function f, .call (callWith 8 (referenceOf 9 "f") [booleanOf 10 false])]⟩

/-- Whether a pass has produced `⊤`. -/
def isTop : Outcome → Bool
  | .produced (.boolean b) => b
  | _ => false

theorem isTop_iff {outcome : Outcome} :
    isTop outcome = true ↔ outcome = .produced (.boolean true) := by
  constructor
  · intro h
    unfold isTop at h
    split at h
    · rw [h]
    · exact absurd h Bool.false_ne_true
  · intro h
    rw [h]
    rfl

/-- The reference evaluation of this program has the value that the pass over it produces. -/
theorem refines_reference_negation :
    let start := Evaluator.new { lexicon := negation.lexicon } .empty {}
    ∃ begun fuel after, start.beginPass 20 negation.root = some begun ∧
      begun.run 20 fuel = some (.produced (.boolean true), after) ∧
      Means start 20 .empty negation.root (.produced (.boolean true)) := by
  intro start
  have hproduces : ((start.beginPass 20 negation.root).bind (run 20 100)).any
      (fun found => isTop found.1) = true := by decide +kernel
  have hagrees : (start.beginPass 20 negation.root).any (agreesWithin 20 100) = true := by
    decide +kernel
  obtain ⟨⟨outcome, after⟩, hrun, hvalue⟩ := (Option.any_eq_true _ _).1 hproduces
  obtain ⟨begun, hbegin, hrun⟩ := Option.bind_eq_some_iff.1 hrun
  obtain rfl : outcome = .produced (.boolean true) := isTop_iff.1 hvalue
  have hagrees : begun.agreesWithin 20 100 = true := by simpa [hbegin] using hagrees
  have hdepth : ∀ fuel x last limit, begun.run 20 fuel = some (.halted x, last) →
      x.kind ≠ .stackOverflow limit := by
    intro fuel x last limit hhalted
    have hsame := congrArg Prod.fst (run_unique hrun hhalted)
    simp at hsame
  have hplans : ∀ now, begun.Steps 20 now → now.Agrees := by
    intro now hnow
    exact agrees_of_steps hagrees hnow
  have hmeans := (refines_reference rfl (covers_empty _) hbegin hdepth hplans _).1
    ⟨100, after, hrun⟩
  exact ⟨begun, 100, after, hbegin, hrun, hmeans⟩

/-- The same for a new evaluator, which has no layouts to start with.  If no two of the expressions
that the pass asks for their code share an identity, then the code that is kept under an identity is
throughout the pass that of a layout of the expression itself. -/
theorem refines_reference_new {U : Expr → Prop} {ctx : Context} {memo : Memo} {options : Options}
    (hids : ∀ e e', U e → U e' → e.id = e'.id → e = e') (hroot : U root)
    (hsteps : options.maxSteps = none)
    (hbegin : (new ctx memo options).beginPass budget root = some begun) (hasks : begun.AsksOnly U)
    (hdepth : ∀ fuel x after limit, begun.run budget fuel = some (.halted x, after) →
      x.kind ≠ .stackOverflow limit)
    (hplans : ∀ now, begun.Steps budget now → now.Agrees) :
    (∀ outcome, (∃ fuel after, begun.run budget fuel = some (outcome, after)) ↔
      Means (new ctx memo options) budget .empty root outcome) ∧
    ∀ now, begun.ComesTo now → ∀ e code, U e → now.lowered.find? e.id = some code →
      ∃ n known found later, e.layout n now.context known = some (found, later) ∧
        found.code = code := by
  constructor
  · intro outcome
    have hcovers : Covers ctx .empty (new ctx memo options).lowered := covers_empty ctx
    obtain ⟨hdeep, hends⟩ := ends_iff_evaluates hsteps hcovers hbegin hdepth hplans
    rw [means_iff hdeep]
    exact hends outcome
  · intro now hnow e code he hcode
    have hhistory : History U (new ctx memo options) now :=
      .head (.beginPass budget root hroot hbegin) (History.of_comesTo hasks hnow)
    obtain ⟨n, known, later, hlower⟩ :=
      hhistory.kept.own (fun other hother hid => hids other e hother he hid) hcode
    obtain ⟨found, hlayout, hfound, -⟩ := exists_layout_of_lower hlower
    exact ⟨n, known, found, later, hlayout, hfound⟩

end Passes

end Reference

end Stepwise

import Mathlib
import Stepwise.Program
import Stepwise.Proofs.Machine.Replay
import Stepwise.Proofs.Sample
import Stepwise.Proofs.Typing.Termination

/-!
# What a call depends on

A call takes its callee and the values that have been laid out for it, among them the values of the
defaults that it falls back on, and starts a frame.  Making this frame looks neither at the frames
that are active nor at what else lies on the stack (`Agrees`), and a frame that has been started is
isolated from what lies beneath it.  So two calls of the same value with the same values come to the
same, whatever is bound where they are made (`calls_agree`).

The values of defaults are no exception, but they are not the callee's: the code of a default is
laid out in the frame of the caller, and the names in it are looked up there.  Two calls that give
no arguments at all can differ for that reason (`Captured.calls_differ`).
-/

namespace Stepwise

open Stepwise.Action

/-- The next instruction is a call.  The value called lies on top of the stack, and beneath it the
values that have been laid out for the call, as many as the inputs of the callee ask for. -/
structure Evaluator.Calls (ev : Evaluator) (call : Call) (callee : Value) (values : List Value) :
    Prop where
  going : ev.outcome = none
  frames : ∃ frame outer, ev.frames = frame :: outer ∧
    frame.current? = some (.finish (.call call))
  items : ∃ lower, ev.stack.items = callee :: (values.reverse ++ lower) ∧ ev.base ≤ lower.length
  inputs : ∃ inputs, callee.declaredInputs? = some inputs ∧
    values.length = valueCount (plan inputs call.inputs)
  plain : ∀ value ∈ values, value.isException = false

/-! ## Actions that do the same anywhere -/

/-- The frames and the values are the same as before. -/
structure Evaluator.Spares (ev after : Evaluator) : Prop where
  frames : after.frames = ev.frames
  stack : after.stack = ev.stack

theorem Evaluator.Spares.refl (ev : Evaluator) : ev.Spares ev := ⟨rfl, rfl⟩

theorem Evaluator.Spares.trans {ev mid after : Evaluator} (h : ev.Spares mid)
    (h' : mid.Spares after) : ev.Spares after :=
  ⟨h'.frames.trans h.frames, h'.stack.trans h.stack⟩

namespace Transfer

variable {τ : Transfer} {ev₁ ev₂ : Evaluator} {α β γ δ : Type} {f : α → β} {g : γ → δ}

/-- Both draw an identity. -/
theorem Shares.draw (h : τ.Shares ev₁ ev₂) :
    τ.Shares { ev₁ with nextScope := ev₁.nextScope + 1 }
      { ev₂ with nextScope := ev₂.nextScope + 1 } := by
  refine ⟨h.context, h.memo, h.lowered, h.globals, h.streams, fun k => ?_⟩
  have := h.identities (1 + k)
  rwa [← Nat.add_assoc, ← Nat.add_assoc] at this

/-- Two results that are the same but for the blame of failures, and leave the frames and values of
both evaluators alone. -/
inductive Agreed (τ : Transfer) (f : α → β) (ev₁ ev₂ : Evaluator) :
    Option (Except Exception α × Evaluator) → Option (Except Exception β × Evaluator) → Prop
  | unlaid : Agreed τ f ev₁ ev₂ none none
  | done (a : α) {after₁ after₂ : Evaluator} (h : τ.Shares after₁ after₂)
      (h₁ : ev₁.Spares after₁) (h₂ : ev₂.Spares after₂) :
      Agreed τ f ev₁ ev₂ (some (.ok a, after₁)) (some (.ok (f a), after₂))
  | failed {x₁ x₂ : Exception} {after₁ after₂ : Evaluator} (hk : x₂.kind = x₁.kind) :
      Agreed τ f ev₁ ev₂ (some (.error x₁, after₁)) (some (.error x₂, after₂))

theorem Agreed.cases {r₁ : Option (Except Exception α × Evaluator)}
    {r₂ : Option (Except Exception β × Evaluator)} (h : Agreed τ f ev₁ ev₂ r₁ r₂) :
    (r₁ = none ∧ r₂ = none) ∨
      (∃ a after₁ after₂, r₁ = some (.ok a, after₁) ∧ r₂ = some (.ok (f a), after₂) ∧
        τ.Shares after₁ after₂ ∧ ev₁.Spares after₁ ∧ ev₂.Spares after₂) ∨
      ∃ x₁ x₂ after₁ after₂, r₁ = some (.error x₁, after₁) ∧ r₂ = some (.error x₂, after₂) ∧
        x₂.kind = x₁.kind := by
  cases h with
  | unlaid => exact .inl ⟨rfl, rfl⟩
  | done a h h₁ h₂ => exact .inr (.inl ⟨a, _, _, rfl, rfl, h, h₁, h₂⟩)
  | failed hk => exact .inr (.inr ⟨_, _, _, _, rfl, rfl, hk⟩)

/-- Two actions that do the same in evaluators which share all but their frames and values. -/
structure Agrees (τ : Transfer) (f : α → β) (m₁ : Action α) (m₂ : Action β) : Prop where
  agreed : ∀ {ev₁ ev₂}, τ.Shares ev₁ ev₂ → Agreed τ f ev₁ ev₂ (m₁ ev₁) (m₂ ev₂)

theorem agrees_pure (a : α) : Agrees τ f (pure a) (pure (f a)) :=
  ⟨fun h => .done a h (.refl _) (.refl _)⟩

theorem agrees_throw {x₁ x₂ : Exception} (hk : x₂.kind = x₁.kind) :
    Agrees τ f (throw x₁) (throw x₂) :=
  ⟨fun _ => .failed hk⟩

theorem agrees_failWith (kind : ExceptionKind) : Agrees τ f (failWith kind) (failWith kind) :=
  ⟨fun _ => .failed rfl⟩

theorem Agrees.bind {m₁ : Action α} {m₂ : Action β} {k₁ : α → Action γ} {k₂ : β → Action δ}
    (hm : Agrees τ f m₁ m₂) (hk : ∀ a, Agrees τ g (k₁ a) (k₂ (f a))) :
    Agrees τ g (m₁ >>= k₁) (m₂ >>= k₂) := by
  refine ⟨fun {ev₁ ev₂} h => ?_⟩
  rw [bind_apply, bind_apply]
  rcases (hm.agreed h).cases with
    ⟨h₁, h₂⟩ | ⟨a, mid₁, mid₂, h₁, h₂, hmid, hs₁, hs₂⟩ | ⟨x₁, x₂, mid₁, mid₂, h₁, h₂, hkind⟩ <;>
    rw [h₁, h₂]
  · exact .unlaid
  · simp only [Option.bind_some, continuing_ok]
    rcases ((hk a).agreed hmid).cases with
      ⟨h₁, h₂⟩ | ⟨c, last₁, last₂, h₁, h₂, hlast, hs₁', hs₂'⟩ |
      ⟨x₁, x₂, last₁, last₂, h₁, h₂, hkind⟩ <;>
      rw [h₁, h₂]
    · exact .unlaid
    · exact .done c hlast (hs₁.trans hs₁') (hs₂.trans hs₂')
    · exact .failed hkind
  · exact .failed hkind

/-- Whatever the nodes that failures are blamed on. -/
theorem Agrees.blaming {m₁ : Action α} {m₂ : Action β} (node₁ node₂ : NodeId)
    (hm : Agrees τ f m₁ m₂) : Agrees τ f (blaming node₁ m₁) (blaming node₂ m₂) := by
  refine ⟨fun {ev₁ ev₂} h => ?_⟩
  rw [blaming_apply, blaming_apply]
  rcases (hm.agreed h).cases with
    ⟨h₁, h₂⟩ | ⟨a, mid₁, mid₂, h₁, h₂, hmid, hs₁, hs₂⟩ | ⟨x₁, x₂, mid₁, mid₂, h₁, h₂, hkind⟩ <;>
    rw [h₁, h₂]
  · exact .unlaid
  · exact .done a hmid hs₁ hs₂
  · exact .failed hkind

/-! ## Making the frame of a call -/

theorem agrees_codeOf (budget : Nat) (e : Expr) :
    Agrees τ id (codeOf budget e) (codeOf budget e) := by
  refine ⟨fun {ev₁ ev₂} h => ?_⟩
  unfold codeOf
  simp only [bind_apply, get_apply, Option.bind_some, continuing_ok, h.lowered, h.context, h.memo]
  cases ev₁.lowered.find? e.id with
  | some code => exact .done code h (.refl _) (.refl _)
  | none =>
    cases e.lower budget ev₁.context ev₁.memo with
    | none => exact .unlaid
    | some found =>
      exact .done found.1 ⟨rfl, rfl, rfl, h.globals, h.streams, h.identities⟩ ⟨rfl, rfl⟩ ⟨rfl, rfl⟩

theorem agrees_freshScope : Agrees τ τ.rename freshScope freshScope := by
  refine ⟨fun {ev₁ ev₂} h => ?_⟩
  have hid : τ.rename (.captured ev₁.nextScope) = .captured ev₂.nextScope := h.identities 0
  rw [freshScope_apply, freshScope_apply, ← hid]
  exact .done _ h.draw ⟨rfl, rfl⟩ ⟨rfl, rfl⟩

theorem agrees_argumentBindings (call₁ call₂ : Call) (inputs : List Binder) (values : List Value) :
    Agrees τ τ.bindings (argumentBindings call₁ inputs values)
      (argumentBindings call₂ inputs (values.map τ.value)) := by
  unfold argumentBindings
  rw [bindInputs_rename]
  cases bindInputs inputs values with
  | ok bindings => exact agrees_pure bindings
  | error x => exact agrees_throw rfl

theorem agrees_prepareFunction (budget : Nat) (f : FunctionDef) (scope : Scope)
    (bindings : Bindings) :
    Agrees τ τ.made (prepareFunction budget f scope bindings)
      (prepareFunction budget f (scope.rename τ.rename) (τ.bindings bindings)) := by
  unfold prepareFunction
  cases f.body with
  | none => exact agrees_failWith _
  | some body =>
    refine (agrees_codeOf budget body).bind fun code => ?_
    have hself : bindSelf (τ.bindings bindings) f.aliases (.function f (scope.rename τ.rename)) =
        τ.bindings (bindSelf bindings f.aliases (.function f scope)) :=
      bindSelf_rename bindings f.aliases (.function f scope)
    rw [hself]
    exact agrees_pure (f := τ.made) _

theorem agrees_prepareStruct (budget : Nat) (s : StructDef) (scope : Scope) (bindings : Bindings) :
    Agrees τ τ.made (prepareStruct budget s scope bindings)
      (prepareStruct budget s (scope.rename τ.rename) (τ.bindings bindings)) := by
  have hblock : Agrees τ id (blockCode budget s) (blockCode budget s) := by
    rcases blockCode_eq budget s with h | ⟨block, h⟩ <;> rw [h]
    · exact agrees_pure []
    · exact agrees_codeOf budget block
  unfold prepareStruct
  refine hblock.bind fun code => agrees_freshScope.bind fun id => ?_
  rw [around_rename]
  exact agrees_pure (f := τ.made) _

/-- The frame of a call depends on the callee and on the values laid out for it. -/
theorem agrees_prepare (budget : Nat) (call₁ call₂ : Call) (values : List Value) (callee : Value)
    (hcallee : callee.declaredInputs?.isSome) :
    Agrees τ τ.made (prepare budget call₁ values callee)
      (prepare budget call₂ (values.map τ.value) (τ.value callee)) := by
  cases callee with
  | function f scope =>
    exact (agrees_argumentBindings ..).bind fun bindings =>
      (agrees_prepareFunction ..).blaming call₁.id call₂.id
  | structDef s scope =>
    exact (agrees_argumentBindings ..).bind fun bindings =>
      (agrees_prepareStruct ..).blaming call₁.id call₂.id
  | _ => cases hcallee

end Transfer

/-! ## Starting a call -/

namespace Evaluator

variable {ev ev₁ ev₂ : Evaluator} {call : Call} {callee : Value} {values : List Value}
  {frame : Frame} {outer : List Frame} {budget : Nat}

/-- The call under the cursor makes its frame from its callee and its values. -/
theorem Calls.start (h : ev.Calls call callee values) :
    ∃ frame outer lower, ev.frames = frame :: outer ∧
      frame.current? = some (.finish (.call call)) ∧
      callee.declaredInputs?.isSome ∧
      ∀ budget, prepareCall budget call (ev.fetch frame outer (.finish (.call call))) =
        prepare budget call values callee
          ((ev.fetch frame outer (.finish (.call call))).withItems lower) := by
  obtain ⟨frame, outer, hf, hc⟩ := h.frames
  obtain ⟨lower, hitems, hbase⟩ := h.items
  obtain ⟨inputs, hinputs, hcount⟩ := h.inputs
  refine ⟨frame, outer, lower, hf, hc, by rw [hinputs]; rfl, fun budget => ?_⟩
  let fetched := ev.fetch frame outer (.finish (.call call))
  have hbase' : fetched.base ≤ lower.length := by
    have hsame : ev.base = frame.base := base_of_frames hf
    rw [hsame] at hbase
    exact hbase
  have hcallee : callee.isException = false := by
    cases callee with
    | exception x => cases hinputs
    | _ => rfl
  have hplain : ∀ value ∈ values.reverse, value.isException = false := fun value hmem =>
    h.plain value (List.mem_reverse.1 hmem)
  have hpop : popOperand fetched = some (.ok callee, fetched.withItems (values.reverse ++ lower)) :=
    popOperand_of_items hitems (by rw [List.length_append]; omega) hcallee
  have hpops : popOperands _ (fetched.withItems (values.reverse ++ lower)) = _ :=
    popOperands_apply rfl hbase' hplain
  rw [List.length_reverse, hcount] at hpops
  unfold prepareCall
  rw [bind_apply, hpop, Option.bind_some, continuing_ok]
  simp only [hinputs]
  rw [bind_apply, hpops, Option.bind_some, continuing_ok, List.reverse_reverse]
  rfl

/-- Making a frame leaves the frames and the values alone. -/
theorem spares_prepare {made : Frame} {after : Evaluator} (hcallee : callee.declaredInputs?.isSome)
    (h : prepare budget call values callee ev = some (.ok made, after)) : ev.Spares after := by
  let τ : Transfer := ⟨id, Function.injective_id, ⟨[], []⟩, ⟨[], []⟩⟩
  let twin : Evaluator :=
    { ev with globals := τ.bindings ev.globals, streams := τ.bindings ev.streams }
  have hshares : τ.Shares ev twin := ⟨rfl, rfl, rfl, rfl, rfl, fun _ => rfl⟩
  have hagreed := (Transfer.agrees_prepare budget call call values callee hcallee).agreed hshares
  rw [h] at hagreed
  rcases hagreed.cases with ⟨hnone, -⟩ | ⟨a, after₁, after₂, h₁, -, -, hspares, -⟩ |
    ⟨x₁, x₂, after₁, after₂, h₁, -⟩
  · cases hnone
  · obtain ⟨-, rfl⟩ := Prod.mk.inj (Option.some.inj h₁)
    exact hspares
  · cases h₁

/-- What following a call follows are the steps of the machine. -/
theorem accounts_of_calls (h : ev.Calls call callee values) (hf : ev.frames = frame :: outer)
    (n : Nat) (hl : ev.Unlimited budget ev.frames.length n) :
    ev.Accounts budget (frame.advance 1 :: outer) n := by
  cases n with
  | zero => trivial
  | succ n =>
    obtain ⟨frame', outer', lower, hf', hc, hcallee, hprepare⟩ := h.start
    obtain ⟨rfl, rfl⟩ := List.cons.inj (hf.symm.trans hf')
    have hlimit : ev.reachedLimit? = none := by
      by_contra hreached
      exact hl.1 (.inl (Option.isSome_iff_ne_none.2 hreached))
    rw [hf] at hl
    have hstarted {mid : Evaluator}
        (ha : (Instruction.finish (.call call)).act budget
          (ev.fetch frame outer (.finish (.call call))) = some (.ok (), mid)) :
        mid.outcome = none ∧ ∃ new, mid.frames = [new] ++ frame.advance 1 :: outer := by
      refine ⟨(act_cases ha).outcome.trans h.going, ?_⟩
      rw [act_call, executeCall_eq] at ha
      rcases bind_eq_some ha with ⟨made, prepared, hp, hs⟩ | ⟨x, -, hx⟩
      · rw [hprepare] at hp
        have hspares := spares_prepare hcallee hp
        rcases startFrame_cases hs with ⟨hx, -⟩ | ⟨-, rfl, -⟩
        · cases hx
        · exact ⟨_, congrArg _ hspares.frames⟩
      · cases hx
    refine ⟨?_, fun after hp => ?_⟩
    · rw [step_eq budget h.going hlimit hf, hc, progress_of_act hf hc]
      rcases ha : (Instruction.finish (.call call)).act budget
          (ev.fetch frame outer (.finish (.call call))) with _ | ⟨x | _, mid⟩
      · simp only [ha, Option.map_none]
      · simp only [ha, Option.map_some]
        rfl
      · obtain ⟨-, new, hmid⟩ := hstarted ha
        simp only [ha, Option.map_some]
        exact congrArg some (completeFrames_eq_resume [new] _ (by simp) hmid)
    · have hafter := hl.2 after hp
      rw [progress_of_act hf hc, Option.map_eq_some_iff] at hp
      obtain ⟨⟨r, mid⟩, ha, hmid⟩ := hp
      cases r with
      | error x => cases hmid
      | ok =>
        obtain ⟨hgoing, new, hframes⟩ := hstarted ha
        have hmid : mid.completeAbove (frame.advance 1 :: outer).length
            ([new] ++ frame.advance 1 :: outer) = .going after := hframes ▸ hmid
        obtain ⟨hout, hinner⟩ := going_of_completeAbove (List.cons_ne_nil new []) hmid
        exact Transfer.accounts_of_unlimited n (hout.trans hgoing) hinner hafter

end Evaluator

/-! ## Two calls -/

/-- The same fate, up to the identities of scopes and to the blame of failures. -/
inductive Fate.Alike (ρ : ScopeId → ScopeId) : Fate → Fate → Prop
  | active (ev₁ ev₂ : Evaluator) : Alike ρ (.active ev₁) (.active ev₂)
  | returned (value : Value) : Alike ρ (.returned value) (.returned (value.rename ρ))
  | raised {x₁ x₂ : Exception} (hk : x₂.kind = x₁.kind) : Alike ρ (.raised x₁) (.raised x₂)

namespace Transfer

variable {ρ : ScopeId → ScopeId} {ev₁ ev₂ : Evaluator} {call₁ call₂ : Call} {callee : Value}
  {values : List Value} {budget : Nat}

/-- Frames that do the same have the same fate. -/
theorem Follows.alike {τ : Transfer} {r₁ r₂ : Option (List (Option Instruction) × Fate)}
    (h : Follows τ r₁ r₂) :
    (r₁ = none ∧ r₂ = none) ∨ ∃ executed fate₁ fate₂, r₁ = some (executed, fate₁) ∧
      r₂ = some (executed, fate₂) ∧ fate₁.Alike τ.rename fate₂ := by
  cases h with
  | unlaid => exact .inl ⟨rfl, rfl⟩
  | active executed h => exact .inr ⟨executed, _, _, rfl, rfl, .active ..⟩
  | returned executed value => exact .inr ⟨executed, _, _, rfl, rfl, .returned value⟩
  | raised executed x => exact .inr ⟨executed, _, _, rfl, rfl, .raised rfl⟩

/-- Both start the frame that they have made. -/
theorem Shares.start {τ : Transfer} {mid₁ mid₂ : Evaluator} {made : Frame}
    (h : τ.Shares mid₁ mid₂) (hdef : made.definition?.isSome)
    (hf₁ : mid₁.frames = τ.source.frames) (hf₂ : mid₂.frames = τ.target.frames)
    (hi₁ : mid₁.stack.items = τ.source.items) (hi₂ : mid₂.stack.items = τ.target.items) :
    τ.Matches (mid₁.pushFrame made) (mid₂.pushFrame (τ.made made)) := by
  refine ⟨⟨h.context, h.memo, h.lowered, h.globals, h.streams, h.identities⟩, ?_, [], hi₁, hi₂⟩
  have height₁ : mid₁.stack.height = τ.source.items.length := congrArg List.length hi₁
  have height₂ : mid₂.stack.height = τ.target.items.length := congrArg List.length hi₂
  refine ⟨[{ made with base := mid₁.stack.height }], by simp, fun member hmem => ?_, ?_, ?_⟩
  · obtain rfl := List.mem_singleton.1 hmem
    exact ⟨hdef, Nat.le_of_eq height₁.symm⟩
  · simp only [Evaluator.pushFrame, hf₁, List.singleton_append]
  · simp only [Evaluator.pushFrame, hf₂, List.map_singleton, List.singleton_append,
      Transfer.frame, height₁, height₂, Nat.sub_self, Nat.zero_add]
    rfl

/-- A frame that has been made is started, if no limit refuses the call. -/
theorem act_of_prepare {ev mid : Evaluator} {call : Call} {frame made : Frame}
    {outer : List Frame} (hf : ev.frames = frame :: outer)
    (hc : frame.current? = some (.finish (.call call))) (hl : ¬ev.AtLimit budget)
    (hp : prepareCall budget call (ev.fetch frame outer (.finish (.call call))) =
      some (.ok made, mid)) :
    (Instruction.finish (.call call)).act budget (ev.fetch frame outer (.finish (.call call))) =
        some (.ok (), mid.pushFrame made) ∧ made.definition?.isSome := by
  obtain ⟨hlength, hoptions, hdef⟩ := frames_of_prepareCall hp
  have hroom : ¬mid.options.maxDepth ≤ mid.frames.length := by
    intro hfull
    refine hl (.inr ⟨?_, frame, outer, call, made, mid, hf, hc, hp⟩)
    rw [hlength, hoptions] at hfull
    rw [hf]
    exact hfull
  refine ⟨?_, hdef⟩
  rw [act_call, executeCall_eq, bind_apply, hp, Option.bind_some, continuing_ok, blaming_apply,
    startFrame_apply, if_neg hroom]
  rfl

/-- Two calls of the same value with the same values make the same progress, in evaluators that
share what has been lowered. -/
theorem progress_calls (hρ : Function.Injective ρ) (h₁ : ev₁.Calls call₁ callee values)
    (h₂ : ev₂.Calls call₂ (callee.rename ρ) (values.map (Value.rename ρ)))
    (hshares : Shares ⟨ρ, hρ, ⟨[], []⟩, ⟨[], []⟩⟩ ev₁ ev₂) (hl₁ : ¬ev₁.AtLimit budget)
    (hl₂ : ¬ev₂.AtLimit budget) :
    (ev₁.progress budget ev₁.frames.length = none ∧
        ev₂.progress budget ev₂.frames.length = none) ∨
      (∃ x₁ x₂ mid₁ mid₂, ev₁.progress budget ev₁.frames.length = some (.raised x₁ mid₁) ∧
        ev₂.progress budget ev₂.frames.length = some (.raised x₂ mid₂) ∧ x₂.kind = x₁.kind) ∨
      ∃ (τ : Transfer) (p₁ p₂ : Progress), τ.rename = ρ ∧
        τ.source.frames.length = ev₁.frames.length ∧ τ.target.frames.length = ev₂.frames.length ∧
        ev₁.progress budget ev₁.frames.length = some p₁ ∧
        ev₂.progress budget ev₂.frames.length = some p₂ ∧ τ.Progresses p₁ p₂ := by
  obtain ⟨frame₁, outer₁, lower₁, hf₁, hc₁, hcallee, hprepare₁⟩ := h₁.start
  obtain ⟨frame₂, outer₂, lower₂, hf₂, hc₂, -, hprepare₂⟩ := h₂.start
  let τ : Transfer :=
    ⟨ρ, hρ, ⟨frame₁.advance 1 :: outer₁, lower₁⟩, ⟨frame₂.advance 1 :: outer₂, lower₂⟩⟩
  have hmid : τ.Shares ((ev₁.fetch frame₁ outer₁ (.finish (.call call₁))).withItems lower₁)
      ((ev₂.fetch frame₂ outer₂ (.finish (.call call₂))).withItems lower₂) :=
    ⟨hshares.context, hshares.memo, hshares.lowered, hshares.globals, hshares.streams,
      hshares.identities⟩
  rw [Evaluator.progress_of_act hf₁ hc₁, Evaluator.progress_of_act hf₂ hc₂, hf₁, hf₂]
  rcases ((agrees_prepare budget call₁ call₂ values callee hcallee).agreed hmid).cases with
    ⟨hp₁, hp₂⟩ | ⟨made, mid₁, mid₂, hp₁, hp₂, hafter, hs₁, hs₂⟩ |
      ⟨x₁, x₂, mid₁, mid₂, hp₁, hp₂, hkind⟩
  · refine .inl ⟨?_, ?_⟩
    · rw [act_call, executeCall_eq, bind_apply, (hprepare₁ budget).trans hp₁]
      rfl
    · rw [act_call, executeCall_eq, bind_apply, (hprepare₂ budget).trans hp₂]
      rfl
  · obtain ⟨ha₁, hdef⟩ := act_of_prepare hf₁ hc₁ hl₁ ((hprepare₁ budget).trans hp₁)
    obtain ⟨ha₂, -⟩ := act_of_prepare hf₂ hc₂ hl₂ ((hprepare₂ budget).trans hp₂)
    have hstarted : τ.Matches (mid₁.pushFrame made) (mid₂.pushFrame (τ.made made)) :=
      hafter.start hdef hs₁.frames hs₂.frames (congrArg Stack.items hs₁.stack)
        (congrArg Stack.items hs₂.stack)
    rw [ha₁, ha₂]
    exact .inr (.inr ⟨τ, _, _, rfl, rfl, rfl, rfl, rfl, hstarted.completeAbove⟩)
  · refine .inr (.inl ⟨x₁, x₂, mid₁, mid₂, ?_, ?_, hkind⟩)
    · rw [act_call, executeCall_eq, bind_apply, (hprepare₁ budget).trans hp₁]
      rfl
    · rw [act_call, executeCall_eq, bind_apply, (hprepare₂ budget).trans hp₂]
      rfl

/-- Two calls of the same value with the same values come to the same in any number of steps. -/
theorem follow_calls (hρ : Function.Injective ρ) (h₁ : ev₁.Calls call₁ callee values)
    (h₂ : ev₂.Calls call₂ (callee.rename ρ) (values.map (Value.rename ρ)))
    (hshares : Shares ⟨ρ, hρ, ⟨[], []⟩, ⟨[], []⟩⟩ ev₁ ev₂) {n : Nat}
    (hl₁ : ev₁.Unlimited budget ev₁.frames.length n)
    (hl₂ : ev₂.Unlimited budget ev₂.frames.length n)
    {executed₁ : List (Option Instruction)} {fate₁ : Fate}
    (hfollow : ev₁.follow budget ev₁.frames.length n = some (executed₁, fate₁)) :
    ∃ executed₂ fate₂, ev₂.follow budget ev₂.frames.length n = some (executed₂, fate₂) ∧
      executed₂.tail = executed₁.tail ∧ fate₁.Alike ρ fate₂ := by
  cases n with
  | zero =>
    obtain ⟨rfl, rfl⟩ := Prod.mk.inj (Option.some.inj hfollow)
    exact ⟨[], .active ev₂, rfl, rfl, .active ..⟩
  | succ n =>
    unfold Evaluator.follow at hfollow ⊢
    rcases progress_calls hρ h₁ h₂ hshares hl₁.1 hl₂.1 with
      ⟨hp₁, -⟩ | ⟨x₁, x₂, mid₁, mid₂, hp₁, hp₂, hkind⟩ |
        ⟨τ, p₁, p₂, rfl, hdepth₁, hdepth₂, hp₁, hp₂, hprogress⟩
    · rw [hp₁] at hfollow
      cases hfollow
    · rw [hp₁] at hfollow
      rw [hp₂]
      obtain ⟨rfl, rfl⟩ := Prod.mk.inj (Option.some.inj hfollow)
      exact ⟨_, _, rfl, rfl, .raised hkind⟩
    · rw [hp₁] at hfollow
      rw [hp₂]
      cases hprogress with
      | returned value =>
        obtain ⟨rfl, rfl⟩ := Prod.mk.inj (Option.some.inj hfollow)
        exact ⟨_, _, rfl, rfl, .returned value⟩
      | raised x =>
        obtain ⟨rfl, rfl⟩ := Prod.mk.inj (Option.some.inj hfollow)
        exact ⟨_, _, rfl, rfl, .raised rfl⟩
      | @going after₁ after₂ hmatch =>
        have hfollows := hmatch.follow n (hdepth₁ ▸ hl₁.2 _ hp₁) (hdepth₂ ▸ hl₂.2 _ hp₂)
        rw [hdepth₁, hdepth₂] at hfollows
        obtain ⟨⟨executed, fate⟩, hown, hpair⟩ := Option.map_eq_some_iff.1 hfollow
        obtain ⟨rfl, rfl⟩ := Prod.mk.inj hpair
        rcases hfollows.alike with ⟨hnone, -⟩ | ⟨executed', fate', fate₂, hown', hother, halike⟩
        · rw [hnone] at hown
          cases hown
        · obtain ⟨rfl, rfl⟩ := Prod.mk.inj (Option.some.inj (hown.symm.trans hown'))
          exact ⟨ev₂.next? :: executed, fate₂, congrArg (Option.map _) hother, rfl, halike⟩

end Transfer

/-- Two calls made in one evaluator, the second after so many steps of the first or at any later
time, in this pass or another: if they call the same value with the same values, they come to the
same in these steps.  They execute the same instructions, and both are still active, or have
returned the same value, or have failed with exceptions of the same kind.  It does not matter which
names are bound in the frames that they are made in, what waits beneath, and whether the calls are
the same expression.

The values are those of the arguments that are given and of the defaults that the call falls back
on.  Everything is the same up to the identities of scopes, since those are drawn anew. -/
theorem calls_agree {ρ : ScopeId → ScopeId} {ev₁ ev₂ last : Evaluator} {call₁ call₂ : Call}
    {callee : Value} {values : List Value} {budget n : Nat} (hρ : Function.Injective ρ)
    (h₁ : ev₁.Calls call₁ callee values)
    (h₂ : ev₂.Calls call₂ (callee.rename ρ) (values.map (Value.rename ρ)))
    (hglobals : ev₂.globals = ev₁.globals.map (Value.rename ρ))
    (hstreams : ev₂.streams = ev₁.streams.map (Value.rename ρ))
    (hids : ∀ k, ρ (.captured (ev₁.nextScope + k)) = .captured (ev₂.nextScope + k))
    (hlast : ev₁.afterSteps budget n = some last) (hlater : last.Reaches ev₂)
    (hl₁ : ev₁.Unlimited budget ev₁.frames.length n)
    (hl₂ : ev₂.Unlimited budget ev₂.frames.length n) :
    ∃ executed₁ executed₂ fate₁ fate₂,
      ev₁.follow budget ev₁.frames.length n = some (executed₁, fate₁) ∧
        ev₂.follow budget ev₂.frames.length n = some (executed₂, fate₂) ∧
          executed₂.tail = executed₁.tail ∧ fate₁.Alike ρ fate₂ := by
  -- What the first call has lowered is still there when the second is made.
  have hholds : ev₂.aside.Holds last := Evaluator.holds_of_passes hlater.passes fun _ _ h => h
  obtain ⟨frame₁, outer₁, hf₁, -⟩ := h₁.frames
  have hacc := Evaluator.accounts_of_calls h₁ hf₁ n hl₁
  have hdepth : ev₁.frames.length = (frame₁.advance 1 :: outer₁).length := by rw [hf₁]; rfl
  obtain ⟨hl₁', executed₁, fate₁, hfollow, hfollow'⟩ :=
    Evaluator.follow_replays hacc (hdepth ▸ hl₁) hlast hholds
  have h₁' : (ev₁.withAside ev₂.aside).Calls call₁ callee values :=
    ⟨h₁.going, h₁.frames, h₁.items, h₁.inputs, h₁.plain⟩
  have hshares : Transfer.Shares ⟨ρ, hρ, ⟨[], []⟩, ⟨[], []⟩⟩ (ev₁.withAside ev₂.aside) ev₂ :=
    ⟨rfl, rfl, rfl, hglobals, hstreams, hids⟩
  rw [← hdepth] at hl₁' hfollow hfollow'
  obtain ⟨executed₂, fate₂, hother, hsame, halike⟩ :=
    Transfer.follow_calls hρ h₁' h₂ hshares hl₁' hl₂ hfollow'
  refine ⟨executed₁, executed₂, fate₁, fate₂, hfollow, hother, hsame, ?_⟩
  cases fate₁ with
  | active ev =>
    cases halike
    exact .active ..
  | returned value => exact halike
  | raised x => exact halike

/-! ## Names in defaults -/

namespace Evaluator

variable {ev after mid last : Evaluator} {budget : Nat}

theorem reaches_of_afterSteps {n : Nat} (h : ev.afterSteps budget n = some after) :
    ev.Reaches after := by
  induction n generalizing ev with
  | zero => exact Option.some.inj h ▸ .refl
  | succ n ih =>
    obtain ⟨⟨answer, next⟩, hstep, hnext⟩ := Option.bind_eq_some_iff.1 h
    exact .head (.step budget answer hstep) (ih hnext)

theorem afterSteps_add (m n : Nat) :
    ev.afterSteps budget (m + n) = (ev.afterSteps budget m).bind (·.afterSteps budget n) := by
  induction m generalizing ev with
  | zero => rw [Nat.zero_add]; rfl
  | succ m ih =>
    rw [Nat.succ_add, afterSteps, afterSteps, Option.bind_assoc]
    exact congrArg _ (funext fun done => ih)

theorem calls_of_next {call : Call} {callee : Value} {values lower : List Value}
    {inputs : List Binder} (ho : ev.outcome = none)
    (hnext : ev.next? = some (.finish (.call call)))
    (hitems : ev.stack.items = callee :: (values.reverse ++ lower)) (hb : ev.base ≤ lower.length)
    (hinputs : callee.declaredInputs? = some inputs)
    (hcount : values.length = valueCount (plan inputs call.inputs))
    (hplain : ∀ value ∈ values, value.isException = false) :
    ev.Calls call callee values := by
  obtain ⟨frame, hframe, hc⟩ := Option.bind_eq_some_iff.1 hnext
  obtain ⟨outer, hf⟩ := List.head?_eq_some_iff.1 hframe
  exact ⟨ho, ⟨frame, outer, hf, hc⟩, ⟨lower, hitems, hb⟩, ⟨inputs, hinputs, hcount⟩, hplain⟩

end Evaluator

namespace Captured

/-- The function `ƒ f(a•?: x) ? a`, whose default refers to what is named `x`. -/
def f : FunctionDef :=
  functionOf 4 "f" [binderOf 5 "a" (some .boolean) (some (referenceOf 6 "x"))] (some .boolean)
    (some (referenceOf 7 "a"))

/-- The function `ƒ g(x•?) ? f()`, which has an input of that name. -/
def g : FunctionDef :=
  functionOf 8 "g" [binderOf 9 "x" (some .boolean) none] (some .boolean) (some (callOf 10 11 "f"))

/-- The program `x: ⊤, ƒ f(a•?: x) ? a, ƒ g(x•?) ? f(), f(), g(⊤), g(⊥)`. -/
def program : Program :=
  ⟨.block ⟨1⟩ [.bind (bindingOf 2 "x" (booleanOf 3 true)), .function f, .function g,
    callOf 12 13 "f", .call (callWith 14 (referenceOf 15 "g") [booleanOf 16 true]),
    .call (callWith 17 (referenceOf 18 "g") [booleanOf 19 false])]⟩

/-- An evaluator that has evaluated nothing. -/
def start : Evaluator :=
  startOf program

/-- The evaluator after so many steps of a pass over the program. -/
def after (n : Nat) : Option Evaluator :=
  (start.beginPass 9 program.root).bind (·.afterSteps 9 n)

/-- The scope of the definition of `f`. -/
def scope : Scope :=
  .mk (.captured 1) ⟨[("x", .boolean true)]⟩ (some (.mk (.captured 0) .empty none))

/-- What `f` is bound to. -/
def closure : Value :=
  .function f scope

/-- What there is to see of an evaluator: how the pass has ended, the instruction that is next, the
values and where those of the innermost frame begin, how many frames there are, the identity that is
drawn next, the names of the host, the options, and what becomes of the frames in two steps. -/
def view (ev : Evaluator) :=
  (ev.outcome, ev.next?, ev.stack.items, ev.base, ev.frames.length, ev.nextScope, ev.globals,
    ev.streams, ev.options, (ev.follow 9 ev.frames.length 2).map Prod.snd)

/-- The evaluator comes to a call of the closure that falls back on the default, and the call yields
the value of the default. -/
structure Defaults (ev : Evaluator) (depth : Nat) (call : Call) (default : Bool) : Prop where
  calls : ev.Calls call closure [.boolean default]
  depth : ev.frames.length = depth
  nextScope : ev.nextScope = 3
  globals : ev.globals = .empty
  streams : ev.streams = .empty
  options : ev.options = {}
  returns : ∃ executed,
    ev.follow 9 ev.frames.length 2 = some (executed, .returned (.boolean default))

theorem defaults_of_view (base depth : Nat) (lower : List Value) {n : Nat} {call : Call}
    {default : Bool} (h : (after n).map view = some (none, some (.finish (.call call)),
      closure :: .boolean default :: lower, base, depth, 3, .empty, .empty, {},
      some (.returned (.boolean default))))
    (hinputs : call.inputs = []) (hb : base ≤ lower.length) :
    ∃ ev, after n = some ev ∧ Defaults ev depth call default := by
  obtain ⟨ev, hev, hview⟩ := Option.map_eq_some_iff.1 h
  simp only [view, Prod.mk.injEq] at hview
  obtain ⟨ho, hnext, hitems, rfl, rfl, hscope, hglobals, hstreams, hoptions, hfate⟩ := hview
  obtain ⟨⟨executed, fate⟩, hfollow, rfl⟩ := Option.map_eq_some_iff.1 hfate
  refine ⟨ev, hev, ?_, rfl, hscope, hglobals, hstreams, hoptions, executed, hfollow⟩
  have hcount : [Value.boolean default].length = valueCount (plan f.inputs call.inputs) := by
    rw [hinputs]
    rfl
  exact Evaluator.calls_of_next ho hnext hitems hb rfl hcount (by simp [Value.isException])

/-- The closure of `g`. -/
def outer : Value :=
  .function g (.mk (.captured 2) ⟨[("x", .boolean true), ("f", closure)]⟩
    (some (.mk (.captured 0) .empty none)))

/-- The call in the program itself, where `x` is `⊤`. -/
theorem defaults_first : ∃ ev, after 9 = some ev ∧
    Defaults ev 1 (callWith 12 (referenceOf 13 "f") []) true := by
  refine defaults_of_view 0 1 [outer, closure, .boolean true] ?_ rfl (by decide)
  cbv

/-- The call in `g(⊤)`. -/
theorem defaults_same : ∃ ev, after 18 = some ev ∧
    Defaults ev 2 (callWith 10 (referenceOf 11 "f") []) true := by
  refine defaults_of_view 4 2 [.boolean true, outer, closure, .boolean true] ?_ rfl (by decide)
  cbv

/-- The call in `g(⊥)`. -/
theorem defaults_other : ∃ ev, after 27 = some ev ∧
    Defaults ev 2 (callWith 10 (referenceOf 11 "f") []) false := by
  refine defaults_of_view 5 2 [.boolean true, .boolean true, outer, closure, .boolean true] ?_ rfl
    (by decide)
  cbv

theorem reaches_after {n : Nat} {ev : Evaluator} (h : after n = some ev) : start.Reaches ev := by
  obtain ⟨begun, hbegin, hsteps⟩ := Option.bind_eq_some_iff.1 h
  exact .head (.beginPass 9 program.root hbegin) (Evaluator.reaches_of_afterSteps hsteps)

/-- Analysis has nothing against the program.  It calls the same value without arguments in two
frames, and one call yields `⊤`, the other `⊥`: the default of `f` refers to the `x` of `g` in the
second, although `f` was defined where `x` is `⊤`. -/
theorem calls_differ :
    ((program.check 9 { lexicon := program.lexicon } .empty).any fun found => found.1.toBool) =
      true ∧
    ∃ ev₁ ev₂ call₁ call₂ executed₁ executed₂, start.Reaches ev₁ ∧ start.Reaches ev₂ ∧
      ev₁.Calls call₁ closure [.boolean true] ∧ ev₂.Calls call₂ closure [.boolean false] ∧
      call₁.inputs = [] ∧ call₂.inputs = [] ∧
      ev₁.follow 9 ev₁.frames.length 2 = some (executed₁, .returned (.boolean true)) ∧
      ev₂.follow 9 ev₂.frames.length 2 = some (executed₂, .returned (.boolean false)) := by
  refine ⟨by decide +kernel, ?_⟩
  obtain ⟨ev₁, hev₁, h₁⟩ := defaults_first
  obtain ⟨ev₂, hev₂, h₂⟩ := defaults_other
  obtain ⟨executed₁, hreturns₁⟩ := h₁.returns
  obtain ⟨executed₂, hreturns₂⟩ := h₂.returns
  exact ⟨ev₁, ev₂, _, _, executed₁, executed₂, reaches_after hev₁, reaches_after hev₂, h₁.calls,
    h₂.calls, rfl, rfl, hreturns₁, hreturns₂⟩

/-- In `g(⊤)` the default has the same value as in the program itself, so `f()` does the same: it
yields `⊤` because the other call has. -/
theorem calls_agree_same :
    ∃ ev₁ ev₂ call₁ call₂ executed, start.Reaches ev₁ ∧ start.Reaches ev₂ ∧
      ev₁.frames.length < ev₂.frames.length ∧
      ev₁.Calls call₁ closure [.boolean true] ∧ ev₂.Calls call₂ closure [.boolean true] ∧
      ev₂.follow 9 ev₂.frames.length 2 = some (executed, .returned (.boolean true)) := by
  obtain ⟨ev₁, hev₁, h₁⟩ := defaults_first
  obtain ⟨ev₂, hev₂, h₂⟩ := defaults_same
  obtain ⟨begun, hbegin, hsteps₁⟩ := Option.bind_eq_some_iff.1 hev₁
  have hsteps₂ : begun.afterSteps 9 18 = some ev₂ := by
    rwa [after, hbegin] at hev₂
  have hsplit : 18 = 9 + (2 + 7) := rfl
  rw [hsplit, Evaluator.afterSteps_add, hsteps₁, Option.bind_some, Evaluator.afterSteps_add]
    at hsteps₂
  obtain ⟨last, hlast, hlater⟩ := Option.bind_eq_some_iff.1 hsteps₂
  have hl₁ : ev₁.Unlimited 9 ev₁.frames.length 2 :=
    Evaluator.unlimited_of_room (by rw [h₁.options]) (by rw [h₁.options, h₁.depth]; decide)
  have hl₂ : ev₂.Unlimited 9 ev₂.frames.length 2 :=
    Evaluator.unlimited_of_room (by rw [h₂.options]) (by rw [h₂.options, h₂.depth]; decide)
  obtain ⟨executed₁, executed₂, fate₁, fate₂, hfollow₁, hfollow₂, -, halike⟩ :=
    calls_agree Function.injective_id h₁.calls h₂.calls (by rw [h₁.globals, h₂.globals]; rfl)
      (by rw [h₁.streams, h₂.streams]; rfl) (fun k => by rw [h₁.nextScope, h₂.nextScope]; rfl)
      hlast (Evaluator.reaches_of_afterSteps hlater) hl₁ hl₂
  obtain ⟨executed, hreturns⟩ := h₁.returns
  obtain ⟨-, rfl⟩ := Prod.mk.inj (Option.some.inj (hfollow₁.symm.trans hreturns))
  cases halike
  exact ⟨ev₁, ev₂, _, _, executed₂, reaches_after hev₁, reaches_after hev₂,
    by rw [h₁.depth, h₂.depth]; decide, h₁.calls, h₂.calls, hfollow₂⟩

end Captured

end Stepwise

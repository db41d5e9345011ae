import Stepwise.Proofs.Machine.Moves
import Stepwise.Proofs.Value.Bindings

/-!
# What actions preserve

An action preserves an invariant of evaluators if the invariant holds afterwards, whatever the
action results in; its value, if it has one, is as described (`Preserves`).  Sequences inherit this
from their parts.

Most invariants say something of every value on the stack, and nothing of how many there are
(`StackInvariant`).  Taking operands preserves any of these, and it is the work on operands and the
making of frames alone that has to be looked at for a call (`StackInvariant.executeCall`) and for an
instruction (`StackInvariant.act`).
-/

namespace Stepwise

open Stepwise.Action

namespace Action

variable {α β : Type} {inv : Evaluator → Prop} {good : α → Prop} {fine : β → Prop}

/-- An action that keeps an invariant, and whose value is as described. -/
structure Preserves (inv : Evaluator → Prop) (good : α → Prop) (m : Action α) : Prop where
  keeps : ∀ {ev r after}, inv ev → m ev = some (r, after) → inv after ∧ ∀ a, r = .ok a → good a

theorem preserves_of_apply {m : Action α} (f : Evaluator → Except Exception α)
    (h : ∀ ev, m ev = some (f ev, ev)) (hgood : ∀ ev a, inv ev → f ev = .ok a → good a) :
    Preserves inv good m := by
  refine ⟨fun {ev r after} hev hm => ?_⟩
  rw [h ev] at hm
  obtain ⟨rfl, rfl⟩ := Prod.mk.inj (Option.some.inj hm)
  exact ⟨hev, fun a ha => hgood ev a hev ha⟩

theorem preserves_pure {a : α} (h : good a) : Preserves inv good (pure a : Action α) :=
  preserves_of_apply (fun _ => .ok a) (fun _ => rfl) fun _ _ _ hb => Except.ok.inj hb ▸ h

theorem preserves_throw (x : Exception) : Preserves inv good (throw x : Action α) :=
  preserves_of_apply (fun _ => .error x) (fun _ => rfl) fun _ _ _ ha => nomatch ha

theorem preserves_failAt (node : NodeId) (kind : ExceptionKind) :
    Preserves inv good (failAt node kind : Action α) :=
  preserves_of_apply (fun ev => .error ((ev.exception kind).atNode node)) (fun _ => rfl)
    fun _ _ _ ha => nomatch ha

theorem preserves_failWith (kind : ExceptionKind) :
    Preserves inv good (failWith kind : Action α) :=
  preserves_of_apply (fun ev => .error (ev.exception kind)) (fun _ => rfl)
    fun _ _ _ ha => nomatch ha

theorem preserves_get : Preserves inv inv (get : Action Evaluator) :=
  preserves_of_apply .ok (fun _ => rfl) fun _ _ hev ha => Except.ok.inj ha ▸ hev

theorem preserves_modify {f : Evaluator → Evaluator} (hf : ∀ ev, inv ev → inv (f ev)) :
    Preserves inv (fun _ => True) (modify f : Action PUnit) := by
  refine ⟨fun {ev r after} hev hm => ?_⟩
  rw [modify_apply] at hm
  obtain ⟨rfl, rfl⟩ := Prod.mk.inj (Option.some.inj hm)
  exact ⟨hf ev hev, fun _ _ => trivial⟩

theorem Preserves.bind {m : Action α} {f : α → Action β} (hm : Preserves inv good m)
    (hf : ∀ a, good a → Preserves inv fine (f a)) : Preserves inv fine (m >>= f) := by
  refine ⟨fun {ev r after} hev h => ?_⟩
  rcases bind_eq_some h with ⟨a, mid, ha, hr⟩ | ⟨x, hx, rfl⟩
  · obtain ⟨hmid, hgood⟩ := hm.keeps hev ha
    exact (hf a (hgood a rfl)).keeps hmid hr
  · exact ⟨(hm.keeps hev hx).1, nofun⟩

theorem Preserves.map {m : Action α} {f : α → β} (hm : Preserves inv good m)
    (hf : ∀ a, good a → fine (f a)) : Preserves inv fine (f <$> m) := by
  rw [← bind_pure_comp]
  exact hm.bind fun a ha => preserves_pure (hf a ha)

theorem Preserves.blaming {m : Action α} (node : NodeId) (hm : Preserves inv good m) :
    Preserves inv good (blaming node m) := by
  refine ⟨fun {ev r after} hev h => ?_⟩
  obtain ⟨r', hr, rfl⟩ := blaming_eq_some h
  obtain ⟨hafter, hgood⟩ := hm.keeps hev hr
  refine ⟨hafter, fun a ha => ?_⟩
  cases r' with
  | ok b => exact Except.ok.inj ha ▸ hgood b rfl
  | error x => exact nomatch ha

/-- What is known of the value may be forgotten. -/
theorem Preserves.weaken {weak : α → Prop} {m : Action α} (hm : Preserves inv good m)
    (h : ∀ a, good a → weak a) : Preserves inv weak m :=
  ⟨fun hev heq => (hm.keeps hev heq).imp_right fun hgood a ha => h a (hgood a ha)⟩

theorem preserves_ofResult (node : NodeId) {result : Except ExceptionKind α}
    (h : ∀ a, result = .ok a → good a) : Preserves inv good (ofResult node result) := by
  cases result with
  | ok value => exact preserves_pure (h value rfl)
  | error kind => exact preserves_failAt node kind

/-! ## What is executed -/

theorem preserves_codeOf (budget : Nat) (e : Expr)
    (h : ∀ {ev memo lowered}, inv ev → inv { ev with memo := memo, lowered := lowered }) :
    Preserves inv (fun _ => True) (codeOf budget e) := by
  refine ⟨fun {ev r after} hev hm => ?_⟩
  obtain ⟨code, rfl, ⟨-, rfl⟩ | ⟨memo, -, -, rfl⟩⟩ := codeOf_cases hm
  · exact ⟨hev, fun _ _ => trivial⟩
  · exact ⟨h hev, fun _ _ => trivial⟩

theorem preserves_blockCode (budget : Nat) (s : StructDef)
    (h : ∀ {ev memo lowered}, inv ev → inv { ev with memo := memo, lowered := lowered }) :
    Preserves inv (fun _ => True) (blockCode budget s) := by
  rcases blockCode_eq budget s with hcode | ⟨block, hcode⟩ <;> rw [hcode]
  · exact preserves_pure trivial
  · exact preserves_codeOf budget block h

theorem preserves_freshScope (h : ∀ {ev}, inv ev → inv { ev with nextScope := ev.nextScope + 1 }) :
    Preserves inv (fun _ => True) freshScope := by
  refine ⟨fun {ev r after} hev hm => ?_⟩
  rw [freshScope_apply] at hm
  obtain ⟨rfl, rfl⟩ := Prod.mk.inj (Option.some.inj hm)
  exact ⟨h hev, fun _ _ => trivial⟩

/-- A definition is closed over what the frame sees, and is bound to its names. -/
theorem preserves_executeDefinition {good : Value → Prop} {aliases : List String}
    {close : Scope → Value} (hdraw : ∀ {ev}, inv ev → inv { ev with nextScope := ev.nextScope + 1 })
    (hbind : ∀ {ev value}, inv ev → good value → inv (ev.bindAll aliases value))
    (hclose : ∀ {ev}, inv ev → good (close ev.closure)) :
    Preserves inv good (executeDefinition aliases close) := by
  refine ⟨fun {ev r after} hev hm => ?_⟩
  rw [executeDefinition_apply] at hm
  obtain ⟨rfl, rfl⟩ := Prod.mk.inj (Option.some.inj hm)
  exact ⟨hbind (hdraw hev) (hclose hev), fun value hv => Except.ok.inj hv ▸ hclose hev⟩

theorem preserves_accessMember {good : Value → Prop} (id : NodeId) (name : String) {subject : Value}
    (h : ∀ definition scope value, subject = .struct definition scope →
      memberValue? definition scope name = some value → good value) :
    Preserves inv good (accessMember id name subject) := by
  unfold accessMember
  split
  · split
    · rename_i definition scope _ value hm
      exact preserves_pure (h definition scope value rfl hm)
    · exact preserves_failAt ..
  · exact preserves_failAt ..

/-- Arguments are bound to all aliases of the inputs. -/
theorem preserves_argumentBindings {good : Value → Prop} {holds : Bindings → Prop}
    (hi : BindingInvariant good holds) (hlist : ∀ items, good (.list items)) (call : Call)
    (inputs : List Binder) {values : List Value} (hv : ∀ value ∈ values, good value) :
    Preserves inv (fun bindings => holds bindings ∧
        ∀ name ∈ inputs.flatMap Binder.aliases, bindings.contains name = true)
      (argumentBindings call inputs values) := by
  unfold argumentBindings
  split
  · rename_i bindings hb
    refine preserves_pure ⟨hi.bindInputsAfter hlist hi.empty hv hb, fun name hname => ?_⟩
    exact (contains_bindInputsAfter hb name).2 (.inr (List.mem_flatMap.1 hname))
  · exact preserves_throw _

/-! ## Invariants of the values on the stack -/

/-- All values on the stack are good, and others may be put in their place. -/
structure StackInvariant (inv : Evaluator → Prop) (good : Value → Prop) : Prop where
  stack : ∀ {ev}, inv ev → ∀ value ∈ ev.stack.items, good value
  withItems : ∀ {ev items}, inv ev → (∀ value ∈ items, good value) → inv (ev.withItems items)

namespace StackInvariant

variable {good : Value → Prop} (hi : StackInvariant inv good)

include hi

theorem popValue : Preserves inv good popValue := by
  refine ⟨fun {ev r after} hev h => ?_⟩
  rcases popValue_cases h with ⟨value, lower, hitems, -, rfl, rfl⟩ | ⟨-, rfl, rfl⟩
  · obtain ⟨hvalue, hlower⟩ := List.forall_mem_cons.1 (hitems ▸ hi.stack hev)
    exact ⟨hi.withItems hev hlower, fun other ho => Except.ok.inj ho ▸ hvalue⟩
  · exact ⟨hev, nofun⟩

theorem popOperand : Preserves inv good popOperand := by
  refine hi.popValue.bind fun value hv => ?_
  split
  · exact preserves_throw _
  · exact preserves_pure hv

theorem popOperands (count : Nat) :
    Preserves inv (fun values => values.length = count ∧ ∀ value ∈ values, good value)
      (popOperands count) := by
  induction count with
  | zero => exact preserves_pure (by simp)
  | succ count ih =>
    refine hi.popOperand.bind fun first hfirst => ih.bind fun others hothers => ?_
    refine preserves_pure ⟨?_, List.forall_mem_cons.2 ⟨hfirst, hothers.2⟩⟩
    rw [List.length_cons, hothers.1]

theorem prepareCall {fits : Frame → Prop} (budget : Nat) (call : Call)
    (hprepare : ∀ {values callee}, (∀ value ∈ values, good value) → good callee →
      Preserves inv fits (prepare budget call values callee)) :
    Preserves inv fits (prepareCall budget call) := by
  refine hi.popOperand.bind fun callee hc => ?_
  split
  · exact preserves_failAt ..
  · refine (hi.popOperands _).bind fun values hv => ?_
    exact hprepare (by simpa using hv.2) hc

/-- A call preserves what the frame that it makes fits into. -/
theorem executeCall {fits : Frame → Prop} (budget : Nat) (call : Call)
    (hprepare : ∀ {values callee}, (∀ value ∈ values, good value) → good callee →
      Preserves inv fits (prepare budget call values callee))
    (hpush : ∀ {ev frame}, inv ev → fits frame → inv (ev.pushFrame frame)) :
    Preserves inv (fun _ => True) (executeCall budget call) := by
  rw [executeCall_eq]
  refine (hi.prepareCall budget call hprepare).bind fun frame hf => ⟨fun {ev r after} hev h => ?_⟩
  rcases startFrame_cases h with ⟨rfl, rfl, -⟩ | ⟨rfl, rfl, -⟩
  · exact ⟨hev, nofun⟩
  · exact ⟨hpush hev hf, fun _ _ => trivial⟩

/-- An instruction preserves what jumps, calls and the work on operands preserve.  An exception that
this work yields is not left on the stack. -/
theorem act (budget : Nat) (i : Instruction)
    (hadvance : ∀ {ev}, inv ev → ∀ distance, inv (ev.advance distance))
    (hcall : ∀ call, Preserves inv (fun _ => True) (Stepwise.executeCall budget call))
    (hoperate : ∀ (e : Expr) {values : List Value}, (∀ value ∈ values, good value) →
      Preserves inv (fun answer => ∀ value, answer = some value → value.isException = false →
        good value) (e.operate values)) :
    Preserves inv (fun _ => True) (i.act budget) := by
  cases i with
  | start e => exact preserves_pure trivial
  | jump distance node => exact preserves_modify fun ev hev => hadvance hev distance
  | halt node reason => exact preserves_failAt ..
  | jumpIfFalse distance node =>
    refine (hi.popValue.blaming node).bind fun value _ => ?_
    split
    · exact preserves_pure trivial
    · exact preserves_modify fun ev hev => hadvance hev _
    · exact preserves_throw _
    · exact preserves_failAt ..
  | finish e =>
    cases he : e.isCall with
    | true =>
      cases e with
      | call call =>
        rw [act_call]
        exact hcall call
      | _ => exact nomatch he
    | false =>
      rw [Instruction.act, execute_eq budget he, bind_assoc]
      refine (hi.popOperands e.demand).bind fun values hv => ?_
      refine (hoperate e (by simpa using hv.2)).bind fun answer ha => ?_
      split
      · exact preserves_pure trivial
      · exact preserves_throw _
      · rename_i value hnot
        have hvalue : value.isException = false := by
          cases value with
          | exception x => exact absurd rfl (hnot x)
          | _ => rfl
        refine preserves_modify fun ev hev => hi.withItems hev ?_
        exact List.forall_mem_cons.2 ⟨ha value rfl hvalue, hi.stack hev⟩

end StackInvariant

end Action

end Stepwise

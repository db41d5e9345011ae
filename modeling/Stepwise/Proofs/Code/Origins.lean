import Stepwise.Code.Lower
import Stepwise.Proofs.Typing.States

/-!
# What code is made of

Lowering puts together the code of expressions that are nested in the program: the operands of an
expression, the arguments of a call, and the defaults of the inputs of its callee.  So all that code
finishes is nested in the program (`answers_lower`).  On the way lowering asks for types, and keeps
what type queries keep.
-/

namespace Stepwise

open Query

/-- All expressions that the code finishes are made of these. -/
def FinishesWithin (es : List Expr) (code : Code) : Prop :=
  ∀ e, .finish e ∈ code → e.nested ⊆ es

section Finishes

variable {es : List Expr} {code others : Code}

theorem finishesWithin_nil : FinishesWithin es [] :=
  fun _ h => nomatch h

theorem finishesWithin_halt (node : NodeId) (reason : HaltReason) :
    FinishesWithin es [.halt node reason] := by
  intro e he
  cases List.mem_singleton.1 he

theorem finishesWithin_finish {e : Expr} (he : e.nested ⊆ es) : FinishesWithin es [.finish e] := by
  intro x hx
  cases List.mem_singleton.1 hx
  exact he

theorem FinishesWithin.append (h : FinishesWithin es code) (h' : FinishesWithin es others) :
    FinishesWithin es (code ++ others) :=
  fun e he => (List.mem_append.1 he).elim (h e) (h' e)

theorem FinishesWithin.enclose {e : Expr} (he : e.nested ⊆ es) (h : FinishesWithin es code) :
    FinishesWithin es (enclose e code) := by
  intro x hx
  simp only [Stepwise.enclose, List.cons_append, List.mem_cons, List.mem_append, reduceCtorEq,
    false_or, List.not_mem_nil, or_false, Instruction.finish.injEq] at hx
  rcases hx with hx | rfl
  · exact h x hx
  · exact he

theorem FinishesWithin.conditional {id : NodeId} {condition yes no : Code}
    (hc : FinishesWithin es condition) (hy : FinishesWithin es yes) (hn : FinishesWithin es no) :
    FinishesWithin es (conditionalCode id condition yes no) := by
  intro x hx
  simp only [conditionalCode, List.mem_append, List.mem_cons, reduceCtorEq, false_or] at hx
  rcases hx with (hx | hx) | hx
  · exact hc x hx
  · exact hy x hx
  · exact hn x hx

theorem FinishesWithin.drop (h : FinishesWithin es code) (n : Nat) :
    FinishesWithin es (code.drop n) :=
  fun e he => h e (List.mem_of_mem_drop he)

theorem FinishesWithin.tail {i : Instruction} (h : FinishesWithin es (i :: code)) :
    FinishesWithin es code :=
  fun e he => h e (List.mem_cons_of_mem i he)

end Finishes

section Lowering

variable {ctx : Context} {I : Memo → Prop} {es : List Expr} {ask : Ask}
  {lower : Expr → Query Code}
  (hlower : ∀ e, e.nested ⊆ es →
    Answers False ctx I (fun _ => lower e) (FinishesWithin es))

include hlower

theorem answers_lowerAll {items : List Expr} (h : ∀ e ∈ items, e.nested ⊆ es) :
    Answers False ctx I (fun _ => lowerAll lower items) (FinishesWithin es) := by
  induction items with
  | nil => exact answers_pure finishesWithin_nil
  | cons e rest ih =>
    obtain ⟨he, hrest⟩ := List.forall_mem_cons.1 h
    exact (hlower e he).bind fun _ hfirst => (ih hrest).bind fun _ hothers =>
      answers_pure (hfirst.append hothers)

theorem answers_lowerSlot (call : NodeId) {slot : Slot} (h : ∀ e ∈ slot.values, e.nested ⊆ es) :
    Answers False ctx I (fun _ => lowerSlot lower call slot) (FinishesWithin es) := by
  cases slot with
  | given value => exact hlower value (h value (List.mem_singleton.2 rfl))
  | default value => exact hlower value (h value (List.mem_singleton.2 rfl))
  | missing input => exact answers_pure (finishesWithin_halt _ _)
  | rest values => exact answers_lowerAll hlower h

theorem answers_lowerSlots (call : NodeId) {slots : List Slot}
    (h : ∀ slot ∈ slots, ∀ e ∈ slot.values, e.nested ⊆ es) :
    Answers False ctx I (fun _ => lowerSlots lower call slots) (FinishesWithin es) := by
  induction slots with
  | nil => exact answers_pure finishesWithin_nil
  | cons slot slots ih =>
    obtain ⟨hslot, hslots⟩ := List.forall_mem_cons.1 h
    exact (answers_lowerSlot hlower call hslot).bind fun _ hfirst =>
      (ih hslots).bind fun _ hothers => answers_pure (hfirst.append hothers)

theorem answers_lowerValue {b : Binder} (h : b.nested ⊆ es) :
    Answers False ctx I (fun _ => lowerValue lower b) (FinishesWithin es) := by
  unfold lowerValue
  split
  · rename_i value hvalue
    exact hlower value ((Binder.nested_subset.1 h).2 value hvalue)
  · exact answers_pure (finishesWithin_halt _ _)

theorem answers_lowerValues {bs : List Binder} (h : ∀ b ∈ bs, b.nested ⊆ es) :
    Answers False ctx I (fun _ => lowerValues lower bs) (FinishesWithin es) := by
  induction bs with
  | nil => exact answers_pure finishesWithin_nil
  | cons b rest ih =>
    obtain ⟨hb, hrest⟩ := List.forall_mem_cons.1 h
    exact (answers_lowerValue hlower hb).bind fun _ hfirst => (ih hrest).bind fun _ hothers =>
      answers_pure (hfirst.append hothers)

variable (hask : ∀ e, e.nested ⊆ es → Answers False ctx I (fun _ => ask e) fun ty => ty.nested ⊆ es)

include hask

theorem answers_lowerCall {c : Call} (hc : (Expr.call c).nested ⊆ es) :
    Answers False ctx I (fun _ => lowerCall ask lower c) (FinishesWithin es) := by
  have hown : c.nested ⊆ es := fun x hx => hc (List.mem_cons_of_mem _ hx)
  obtain ⟨-, hcallee, hinputs⟩ := Call.nested_subset.1 hown
  refine (hask c.callee hcallee).bind fun ty hty => ?_
  split
  · exact answers_pure (finishesWithin_halt _ _)
  · rename_i callee hof
    split
    · exact answers_pure (finishesWithin_halt _ _)
    · have hslots : ∀ slot ∈ plan callee.inputs c.inputs, ∀ e ∈ slot.values, e.nested ⊆ es :=
        fun slot hslot e he => nested_plan (Callee.nested_inputs hty hof) hinputs hslot he
      exact (answers_lowerSlots hlower c.id hslots).bind fun _ harguments =>
        (hlower c.callee hcallee).bind fun _ hcode =>
          answers_pure (.enclose hc (harguments.append hcode))

theorem answers_lowerWith {e : Expr} (he : e.nested ⊆ es) :
    Answers False ctx I (fun _ => e.lowerWith ask lower) (FinishesWithin es) := by
  have hparts := he
  cases e with
  | list id opening items closing =>
    simp only [Expr.nested, List.cons_subset, nestedInExprs_subset] at hparts
    exact (answers_lowerAll hlower hparts.2).bind fun _ hcode => answers_pure (.enclose he hcode)
  | conditional id condition question yes no =>
    simp only [Expr.nested, List.cons_subset, List.append_subset] at hparts
    exact (hlower yes hparts.2.1.2).bind fun _ hyes => (hlower no hparts.2.2).bind fun _ hno =>
      (hlower condition hparts.2.1.1).bind fun _ hcondition =>
        answers_pure (.conditional hcondition hyes hno)
  | call c => exact answers_lowerCall hlower hask he
  | delete id table mark query =>
    simp only [Expr.nested, List.cons_subset, List.append_subset] at hparts
    exact (hlower table hparts.2.1).bind fun _ hcode => answers_pure (.enclose he hcode)
  | insert id table mark cells =>
    simp only [Expr.nested, List.cons_subset, List.append_subset, nestedInBinders_subset] at hparts
    exact (hlower table hparts.2.1).bind fun _ htable =>
      (answers_lowerValues hlower hparts.2.2).bind fun _ hcells =>
        answers_pure (.enclose he (htable.append hcells))
  | access id subject dot name =>
    simp only [Expr.nested, List.cons_subset] at hparts
    exact (hlower subject hparts.2).bind fun _ hcode => answers_pure (.enclose he hcode)
  | binary id left mark op right =>
    simp only [Expr.nested, List.cons_subset, List.append_subset] at hparts
    have hoperands : ∀ x ∈ [left, right], x.nested ⊆ es := by
      simpa using hparts.2
    exact (answers_lowerAll hlower hoperands).bind fun _ hcode => answers_pure (.enclose he hcode)
  | unary id mark op operand =>
    simp only [Expr.nested, List.cons_subset] at hparts
    exact (hlower operand hparts.2).bind fun _ hcode => answers_pure (.enclose he hcode)
  | block id statements =>
    simp only [Expr.nested, List.cons_subset, nestedInExprs_subset] at hparts
    exact (answers_lowerAll hlower hparts.2).bind fun _ hcode => answers_pure (.enclose he hcode)
  | bind b =>
    simp only [Expr.nested, List.cons_subset] at hparts
    exact (answers_lowerValue hlower hparts.2).bind fun _ hcode => answers_pure (.enclose he hcode)
  | unparsable => exact answers_pure (finishesWithin_halt _ _)
  | boolean | number | text | reference | function | struct =>
    exact answers_pure (finishesWithin_finish he)

end Lowering

/-- The code of an expression finishes what is nested in the program, and lowering keeps what type
queries keep. -/
theorem answers_lower {ctx : Context} {I : Memo → Prop} {es : List Expr}
    (hask : ∀ budget e, e.nested ⊆ es →
      Answers False ctx I (fun _ => Expr.typeOf budget e) fun ty => ty.nested ⊆ es)
    (budget : Nat) {e : Expr} (he : e.nested ⊆ es) :
    Answers False ctx I (fun _ => e.lower budget) (FinishesWithin es) := by
  induction budget generalizing e with
  | zero => exact ⟨fun _ h => (nomatch h), False.elim⟩
  | succ budget ih => exact answers_lowerWith (fun _ hx => ih hx) (hask budget) he

end Stepwise

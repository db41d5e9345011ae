import Stepwise.Proofs.Typing.Enough
import Stepwise.Proofs.Typing.Walk

/-!
# What type queries answer

A type query answers a type that is made of the program: of the expressions nested in what it is
asked about, in the definitions that names stand for, and in the types that the memo remembers.  So
do all queries of the library, as sequences of type queries.  At the same time such a sequence comes
to an end if the type queries and the comparisons in it do.

Both facts take the same walk through the rules for types.  `Query.Answers` therefore states them
together: whatever a query answers has a property and keeps an invariant of the memo, and under a
condition the query does have an answer.  Sequences inherit this from their parts (`answering`), so
the rules have it for any invariant, any condition and any way to ask for types that is known to
answer in this sense.
-/

namespace Stepwise

open Query

/-- In the context `ctx` all answers of the query have the property `P` and keep the invariant `I`
of the memo, and if `E` holds then there is an answer with enough budget. -/
structure Query.Answers {α : Type} (E : Prop) (ctx : Context) (I : Memo → Prop)
    (q : Nat → Query α) (P : α → Prop) : Prop where
  sound : ∀ {budget memo a after}, I memo → q budget ctx memo = some (a, after) → P a ∧ I after
  ends : E → ∀ {memo}, I memo →
    ∃ enough a after, ∀ budget, enough ≤ budget → q budget ctx memo = some (a, after)

section Laws

variable {α β : Type} {E : Prop} {ctx : Context} {I : Memo → Prop} {q : Nat → Query α}
  {P : α → Prop} {Q : β → Prop}

theorem answers_pure {a : α} (h : P a) : Answers E ctx I (fun _ => pure a) P := by
  refine ⟨fun hI heq => ?_, fun _ memo _ => ⟨0, a, memo, fun _ _ => rfl⟩⟩
  obtain ⟨rfl, rfl⟩ := pure_eq_some.1 heq
  exact ⟨h, hI⟩

theorem answers_read : Answers E ctx I (fun _ => (read : Query Context)) (· = ctx) := by
  refine ⟨fun hI heq => ?_, fun _ memo _ => ⟨0, ctx, memo, fun _ _ => rfl⟩⟩
  obtain ⟨rfl, rfl⟩ := Prod.mk.inj (Option.some.inj heq)
  exact ⟨rfl, hI⟩

/-- A condition may be replaced by a stronger one. -/
theorem Query.Answers.weaken {F : Prop} (hq : Answers E ctx I q P) (h : F → E) :
    Answers F ctx I q P :=
  ⟨hq.sound, fun hE => hq.ends (h hE)⟩

/-- What the query gives with enough budget. -/
theorem Query.Answers.gives {memo after : Memo} {a : α} (hq : Answers E ctx I q P) (hI : I memo)
    (h : Gives q ctx memo a after) : P a ∧ I after := by
  obtain ⟨budget, h⟩ := h
  exact hq.sound hI h

theorem Query.Answers.bind {f : α → Nat → Query β} (hq : Answers E ctx I q P)
    (hf : ∀ a, P a → Answers E ctx I (f a) Q) :
    Answers E ctx I (fun budget => q budget >>= fun a => f a budget) Q := by
  refine ⟨fun hI heq => ?_, fun hE memo hI => ?_⟩
  · obtain ⟨a, mid, ha, hb⟩ := bind_eq_some.1 heq
    obtain ⟨hP, hmid⟩ := hq.sound hI ha
    exact (hf a hP).sound hmid hb
  · obtain ⟨enough, a, mid, ha⟩ := hq.ends hE hI
    obtain ⟨hP, hmid⟩ := hq.sound hI (ha enough (Nat.le_refl _))
    obtain ⟨enough', b, after, hb⟩ := (hf a hP).ends hE hmid
    refine ⟨max enough enough', b, after, fun budget hle => bind_eq_some.2 ⟨a, mid, ?_, ?_⟩⟩
    · exact ha budget (by omega)
    · exact hb budget (by omega)

/-- Answering in this sense is a property that sequences inherit. -/
def answering (E : Prop) (ctx : Context) (I : Memo → Prop) : Compositional Nat ctx where
  Holds q P := Answers E ctx I q P
  holds_pure := answers_pure
  holds_read := answers_read
  holds_bind := Answers.bind

theorem answers_allM {p : α → Nat → Query Bool} {l : List α}
    (h : ∀ a ∈ l, Answers E ctx I (p a) fun _ => True) :
    Answers E ctx I (fun budget => l.allM fun a => p a budget) fun _ => True :=
  holds_allM (K := answering E ctx I) h

theorem answers_anyM {p : α → Nat → Query Bool} {l : List α}
    (h : ∀ a ∈ l, Answers E ctx I (p a) fun _ => True) :
    Answers E ctx I (fun budget => l.anyM fun a => p a budget) fun _ => True :=
  holds_anyM (K := answering E ctx I) h

end Laws

/-! ## The rules for types -/

section Rules

variable {E : Prop} {ctx : Context} {I : Memo → Prop} {es : List Expr} {ask : Nat → Ask}
  {accepts : Nat → Ty → Ty → Query Bool} {size : Nat → Nat} (hctx : ctx.Within es)
  (hask : ∀ e, e.nested ⊆ es → Answers E ctx I (fun n => ask n e) fun ty => ty.nested ⊆ es)

include hctx

theorem answers_resolved {ty : Ty} (h : ty.nested ⊆ es) :
    Answers E ctx I (fun _ => resolved ty) fun ty => ty.nested ⊆ es :=
  holds_resolved (K := answering E ctx I) hctx h

theorem answers_inputsAgree {expected given : Binder}
    (haccepts : ∀ a b : Ty, a.nested ⊆ es → b.nested ⊆ es →
      Answers E ctx I (fun n => accepts n a b) fun _ => True)
    (he : expected.nested ⊆ es) (hg : given.nested ⊆ es) :
    Answers E ctx I (fun n => inputsAgree (accepts n) expected given) fun _ => True :=
  holds_inputsAgree (K := answering E ctx I) hctx haccepts he hg

include hask

theorem answers_binder {b : Binder} (h : b.nested ⊆ es) :
    Answers E ctx I (fun n => b.typeWith (ask n)) fun ty => ty.nested ⊆ es :=
  holds_binder (K := answering E ctx I) hctx hask h

theorem answers_memberType {s : StructDef} {args : List Ty} (hs : s.nested ⊆ es)
    (hargs : ∀ t ∈ args, t.nested ⊆ es) (name : String) :
    Answers E ctx I (fun n => s.memberTypeWith (ask n) args name) fun found =>
      ∀ ty, found = some ty → ty.nested ⊆ es :=
  holds_memberType (K := answering E ctx I) hctx hask hs hargs name

theorem answers_columnAccepted {given : List Binder} {column : Binder}
    (haccepts : ∀ a b : Ty, a.nested ⊆ es → b.nested ⊆ es →
      Answers E ctx I (fun n => accepts n a b) fun _ => True)
    (hg : nestedInBinders given ⊆ es) (hc : column.nested ⊆ es) :
    Answers E ctx I (fun n => columnAccepted (ask n) (accepts n) given column) fun _ => True :=
  holds_columnAccepted (K := answering E ctx I) hctx hask haccepts hg hc

theorem answers_acceptsStep {expected given : Ty}
    (haccepts : ∀ a b : Ty, a.nested ⊆ es → b.nested ⊆ es →
      Answers E ctx I (fun n => accepts n a b) fun _ => True)
    (he : expected.nested ⊆ es) (hg : given.nested ⊆ es) :
    Answers E ctx I (fun n => expected.acceptsStep (ask n) (accepts n) given) fun _ => True :=
  holds_acceptsStep (K := answering E ctx I) hctx hask haccepts he hg

theorem answers_instantiate {call : Call} (hcall : call.nested ⊆ es) (callee : Callee) {ty : Ty}
    (hty : ty.nested ⊆ es) :
    Answers E ctx I (fun n => call.instantiate (ask n) callee ty) fun ty => ty.nested ⊆ es :=
  holds_instantiate (K := answering E ctx I) hctx hask hcall callee hty

variable (hcompare : ∀ a b : Ty, a.nested ⊆ es → b.nested ⊆ es →
  Answers E ctx I (fun n => a.acceptsWith (ask n) (size n) b) fun _ => True)

include hcompare

omit hctx hask in
theorem answers_compatible {a b : Ty} (ha : a.nested ⊆ es) (hb : b.nested ⊆ es) :
    Answers E ctx I (fun n => a.compatibleWith (ask n) (size n) b) fun _ => True :=
  holds_compatible (K := answering E ctx I) hcompare ha hb

/-- The rules for types answer what is made of the program. -/
theorem answers_infer {e : Expr} (h : e.nested ⊆ es) :
    Answers E ctx I (fun n => e.inferWith (ask n) (size n)) fun ty => ty.nested ⊆ es :=
  holds_infer (K := answering E ctx I) hctx hask hcompare h

end Rules

end Stepwise

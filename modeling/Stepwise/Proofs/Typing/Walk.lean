import Stepwise.Proofs.Typing.Nested
import Stepwise.Proofs.Typing.Settling

/-!
# The walk through the rules for types

What holds of all type queries, or relates two ways of answering them, is shown for every rule for
types in turn, and most of the rules say nothing about it: they ask for the types of expressions,
look at the answers and go on.  `Query.Compositional` is what such a property needs.  It is about a
family of queries, one for each budget or one for each of two ways of asking, and about their
answers.  It holds of a query that only answers or only looks at the context, and a sequence
inherits it from its parts.

The walk is made here, once: if such a property holds of the queries for the types of all
expressions of a program, it holds of the rules (`holds_infer`).  What the walk itself contributes
is that the answers are made of the program again.  (`Query.Settles` asks for nothing of the kind,
and goes through the rules without a program.)
-/

namespace Stepwise

/-- A property of queries and their answers in a context that sequences inherit from their parts.
It is about families of queries that differ in how they ask. -/
structure Query.Compositional (ι : Type) (ctx : Context) where
  Holds : ∀ {α : Type}, (ι → Query α) → (α → Prop) → Prop
  holds_pure : ∀ {α : Type} {a : α} {P : α → Prop}, P a → Holds (fun _ => pure a) P
  holds_read : Holds (fun _ => (read : Query Context)) (· = ctx)
  holds_bind : ∀ {α β : Type} {q : ι → Query α} {f : α → ι → Query β} {P : α → Prop}
    {Q : β → Prop}, Holds q P → (∀ a, P a → Holds (f a) Q) →
      Holds (fun i => q i >>= fun a => f a i) Q

open Query Query.Compositional

section Laws

variable {ι α β : Type} {ctx : Context} {K : Compositional ι ctx} {q : ι → Query α} {P : α → Prop}
  {Q : β → Prop}

theorem Query.Compositional.Holds.bind {f : α → ι → Query β} (hq : K.Holds q P)
    (hf : ∀ a, P a → K.Holds (f a) Q) : K.Holds (fun i => q i >>= fun a => f a i) Q :=
  K.holds_bind hq hf

theorem Query.Compositional.Holds.map {g : α → β} (hq : K.Holds q P) (h : ∀ a, P a → Q (g a)) :
    K.Holds (fun i => g <$> q i) Q := by
  simp only [← bind_pure_comp]
  exact hq.bind fun a ha => K.holds_pure (h a ha)

theorem holds_pure {a : α} (h : P a) : K.Holds (fun _ => pure a) P :=
  K.holds_pure h

theorem holds_read : K.Holds (fun _ => (read : Query Context)) (· = ctx) :=
  K.holds_read

theorem holds_allM {p : α → ι → Query Bool} {l : List α}
    (h : ∀ a ∈ l, K.Holds (p a) fun _ => True) :
    K.Holds (fun i => l.allM fun a => p a i) fun _ => True := by
  induction l with
  | nil => exact holds_pure trivial
  | cons a rest ih =>
    refine (h a (List.mem_cons_self ..)).bind fun accepted _ => ?_
    cases accepted with
    | true => exact ih fun b hb => h b (List.mem_cons_of_mem _ hb)
    | false => exact holds_pure trivial

theorem holds_anyM {p : α → ι → Query Bool} {l : List α}
    (h : ∀ a ∈ l, K.Holds (p a) fun _ => True) :
    K.Holds (fun i => l.anyM fun a => p a i) fun _ => True := by
  induction l with
  | nil => exact holds_pure trivial
  | cons a rest ih =>
    refine (h a (List.mem_cons_self ..)).bind fun accepted _ => ?_
    cases accepted with
    | true => exact holds_pure trivial
    | false => exact ih fun b hb => h b (List.mem_cons_of_mem _ hb)

theorem holds_foldlM {g : β → α → ι → Query β} {l : List α} {b : β} (hb : Q b)
    (h : ∀ b, Q b → ∀ a ∈ l, K.Holds (g b a) Q) :
    K.Holds (fun i => l.foldlM (fun b a => g b a i) b) Q := by
  induction l generalizing b with
  | nil => exact holds_pure hb
  | cons a rest ih =>
    simp only [List.foldlM_cons]
    exact (h b hb a (List.mem_cons_self ..)).bind fun next hnext =>
      ih hnext fun b hb a ha => h b hb a (List.mem_cons_of_mem _ ha)

end Laws

/-! ## Declarations -/

section Rules

variable {ι : Type} {ctx : Context} {K : Compositional ι ctx} {es : List Expr} {ask : ι → Ask}
  (hctx : ctx.Within es)
  (hask : ∀ e, e.nested ⊆ es → K.Holds (fun i => ask i e) fun ty => ty.nested ⊆ es)

include hctx

theorem holds_resolved {ty : Ty} (h : ty.nested ⊆ es) :
    K.Holds (fun _ => resolved ty) fun ty => ty.nested ⊆ es := by
  refine holds_read.bind fun found hfound => holds_pure ?_
  rw [hfound]
  exact Ty.nested_resolveNames hctx h

include hask

theorem holds_binder {b : Binder} (h : b.nested ⊆ es) :
    K.Holds (fun i => b.typeWith (ask i)) fun ty => ty.nested ⊆ es := by
  obtain ⟨hty, hvalue⟩ := Binder.nested_subset.1 h
  have hrest (declared : Ty) (hd : declared.nested ⊆ es) : K.Holds
      (fun _ => pure (if b.rest then .list declared else declared)) fun ty => ty.nested ⊆ es := by
    refine holds_pure ?_
    split <;> exact hd
  unfold Binder.typeWith
  cases ht : b.ty with
  | some ty => exact (holds_resolved hctx (hty ty ht)).bind hrest
  | none =>
    cases hv : b.value with
    | some value => exact (hask value (hvalue value hv)).bind hrest
    | none =>
      refine Holds.bind (P := fun ty => ty.nested ⊆ es) (holds_pure ?_) hrest
      simp [Ty.nested]

theorem holds_function {f : FunctionDef} (h : f.nested ⊆ es) :
    K.Holds (fun i => f.typeWith (ask i)) fun ty => ty.nested ⊆ es := by
  obtain ⟨hinputs, houtput, hbody⟩ := FunctionDef.nested_subset.1 h
  have hrest (output : Ty) (ho : output.nested ⊆ es) : K.Holds
      (fun _ => pure (Ty.function f.typeVars f.inputs output)) fun ty => ty.nested ⊆ es := by
    refine holds_pure ?_
    simp only [Ty.nested, List.append_subset, nestedInBinders_subset]
    exact ⟨hinputs, ho⟩
  unfold FunctionDef.typeWith
  cases ho : f.output with
  | some output => exact (holds_resolved hctx (houtput output ho)).bind hrest
  | none =>
    cases hb : f.body with
    | some body => exact (hask body (hbody body hb)).bind hrest
    | none =>
      refine Holds.bind (P := fun ty => ty.nested ⊆ es) (holds_pure ?_) hrest
      simp [Ty.nested]

theorem holds_definition {d : Definition} (h : d.nested ⊆ es) :
    K.Holds (fun i => d.typeWith (ask i)) fun ty => ty.nested ⊆ es := by
  cases d with
  | bind b => exact holds_binder hctx hask h
  | function f => exact holds_function hctx hask h
  | struct s => exact holds_pure (by simpa [Ty.nested, nestedInTys, Definition.nested] using h)
  | typeVariable v => exact holds_pure (by simp [Ty.nested])
  | stream name ty => exact holds_pure h
  | host name ty => exact holds_pure h

theorem holds_memberType {s : StructDef} {args : List Ty} (hs : s.nested ⊆ es)
    (hargs : ∀ t ∈ args, t.nested ⊆ es) (name : String) :
    K.Holds (fun i => s.memberTypeWith (ask i) args name) fun found =>
      ∀ ty, found = some ty → ty.nested ⊆ es := by
  have hrest (declared : Option Ty) (hd : ∀ ty, declared = some ty → ty.nested ⊆ es) :
      K.Holds (fun _ => pure (declared.map (·.substitute (s.argumentFor? args))))
        fun found => ∀ ty, found = some ty → ty.nested ⊆ es := by
    refine holds_pure fun ty hty => ?_
    obtain ⟨declared, rfl, rfl⟩ := Option.map_eq_some_iff.1 hty
    exact Ty.nested_substitute (fun _ _ ha => StructDef.nested_argumentFor hargs ha) (hd _ rfl)
  have hsome {q : ι → Query Ty} (hq : K.Holds q fun ty => ty.nested ⊆ es) :
      K.Holds (fun i => some <$> q i) fun found => ∀ ty, found = some ty → ty.nested ⊆ es :=
    hq.map fun ty hty other heq => Option.some.inj heq ▸ hty
  unfold StructDef.memberTypeWith
  cases hi : s.inputNamed? name with
  | some input =>
    exact (hsome (holds_binder hctx hask (StructDef.nested_inputNamed hs hi))).bind hrest
  | none =>
    cases hf : s.functionNamed? name with
    | some f =>
      exact (hsome (holds_function hctx hask (StructDef.nested_functionNamed hs hf))).bind hrest
    | none =>
      cases hb : s.bindNamed? name with
      | some b =>
        exact (hsome (holds_binder hctx hask (StructDef.nested_bindNamed hs hb))).bind hrest
      | none =>
        refine Holds.bind (P := fun found => ∀ ty, found = some ty → ty.nested ⊆ es)
          (holds_pure ?_) hrest
        exact fun ty hty => nomatch hty

/-! ## Comparing types -/

section Accepts

variable {accepts : ι → Ty → Ty → Query Bool}
  (haccepts : ∀ a b : Ty, a.nested ⊆ es → b.nested ⊆ es →
    K.Holds (fun i => accepts i a b) fun _ => True)

include haccepts

omit hask in
theorem holds_inputsAgree {expected given : Binder} (he : expected.nested ⊆ es)
    (hg : given.nested ⊆ es) :
    K.Holds (fun i => inputsAgree (accepts i) expected given) fun _ => True := by
  have htypes : K.Holds (fun i => inputTypesAgree (accepts i) expected given)
      fun _ => True := by
    unfold inputTypesAgree
    cases ha : expected.ty with
    | none => exact holds_pure trivial
    | some a =>
      cases hb : given.ty with
      | none => exact holds_pure trivial
      | some b =>
        refine (holds_resolved hctx ((Binder.nested_subset.1 he).1 a ha)).bind fun a ha => ?_
        refine (holds_resolved hctx ((Binder.nested_subset.1 hg).1 b hb)).bind fun b hb => ?_
        exact haccepts a b ha hb
  exact htypes.bind fun _ _ => holds_pure trivial

omit hask in
theorem holds_acceptsNamed {expected given : Ty} (he : expected.nested ⊆ es)
    (hg : given.nested ⊆ es) :
    K.Holds (fun i => acceptsNamed (accepts i) expected given) fun _ => True := by
  unfold acceptsNamed
  refine (holds_resolved hctx he).bind fun a ha => (holds_resolved hctx hg).bind fun b hb => ?_
  split
  · exact holds_pure trivial
  · split
    · exact holds_pure trivial
    · exact haccepts a b ha hb

theorem holds_columnAccepted {given : List Binder} {column : Binder}
    (hg : nestedInBinders given ⊆ es) (hc : column.nested ⊆ es) :
    K.Holds (fun i => columnAccepted (ask i) (accepts i) given column) fun _ => True := by
  unfold columnAccepted
  cases hf : given.find? column.sharesName with
  | none => exact holds_pure trivial
  | some other =>
    have ho : other.nested ⊆ es :=
      nestedInBinders_subset.1 hg other (List.mem_of_find?_eq_some hf)
    refine (holds_binder hctx hask hc).bind fun a ha => ?_
    refine (holds_binder hctx hask ho).bind fun b hb => ?_
    exact haccepts a b ha hb

theorem holds_acceptsForm {expected given : Ty} (he : expected.nested ⊆ es)
    (hg : given.nested ⊆ es) :
    K.Holds (fun i => acceptsForm (ask i) (accepts i) expected given) fun _ => True := by
  unfold acceptsForm
  split
  case h_4 a b =>
    split
    · exact holds_pure trivial
    · exact haccepts a b he hg
  case h_5 columns others =>
    split
    · exact holds_allM fun column hc => holds_columnAccepted hctx hask haccepts hg
        (nestedInBinders_subset.1 he column hc)
    · exact holds_pure trivial
  case h_6 _ inputs output _ others otherOutput =>
    simp only [Ty.nested, List.append_subset] at he hg
    refine (haccepts output otherOutput he.2 hg.2).bind fun accepted _ => ?_
    cases accepted with
    | false => exact holds_pure trivial
    | true =>
      simp only [if_true]
      split
      · refine holds_allM fun pair hp => ?_
        have hin := List.of_mem_zip hp
        exact holds_inputsAgree hctx haccepts (nestedInBinders_subset.1 he.1 _ hin.1)
          (nestedInBinders_subset.1 hg.1 _ hin.2)
      · exact holds_pure trivial
  all_goals exact holds_pure trivial

theorem holds_acceptsStep {expected given : Ty} (he : expected.nested ⊆ es)
    (hg : given.nested ⊆ es) :
    K.Holds (fun i => expected.acceptsStep (ask i) (accepts i) given) fun _ => True := by
  unfold Ty.acceptsStep
  split
  · exact holds_pure trivial
  · split
    · rename_i members _
      exact holds_allM fun member hm =>
        haccepts expected member he (nestedInTys_subset.1 hg member hm)
    · split
      · rename_i members _ _
        exact holds_anyM fun member hm =>
          haccepts member given (nestedInTys_subset.1 he member hm) hg
      · split
        · exact holds_acceptsNamed hctx haccepts he hg
        · exact holds_acceptsForm hctx hask haccepts he hg

end Accepts

/-! ## Calls -/

theorem holds_typeFor {call : Call} (hcall : call.nested ⊆ es) (callee : Callee) (name : String) :
    K.Holds (fun i => call.typeFor? (ask i) callee name) fun found =>
      ∀ ty, found = some ty → ty.nested ⊆ es := by
  obtain ⟨-, hcallee, hinputs⟩ := Call.nested_subset.1 hcall
  have hreceiver : K.Holds (fun i => receiverType? (ask i) call.callee name) fun found =>
      ∀ ty, found = some ty → ty.nested ⊆ es := by
    unfold receiverType?
    cases hc : call.callee with
    | access id subject dot member =>
      rw [hc] at hcallee
      simp only [Expr.nested, List.cons_subset] at hcallee
      refine (hask subject hcallee.2).bind fun ty hty => holds_pure fun found hfound => ?_
      exact Ty.nested_supplied hty hfound
    | _ => exact holds_pure fun ty hty => by cases hty
  have hargument : K.Holds (fun i => argumentType? (ask i) call callee name) fun found =>
      ∀ ty, found = some ty → ty.nested ⊆ es := by
    unfold argumentType?
    cases ht : tellingArgument? callee.inputs call.inputs name with
    | some told =>
      obtain ⟨value, yielding⟩ := told
      refine (hask value (nested_tellingArgument hinputs ht)).bind fun ty hty =>
        holds_pure fun found hfound => ?_
      exact nested_toldType hty hfound
    | none => exact holds_pure fun ty hty => by cases hty
  unfold Call.typeFor?
  cases he : explicitType? call callee name with
  | some ty =>
    exact (holds_resolved hctx (nested_explicitType hcall he)).map
      fun ty hty other heq => Option.some.inj heq ▸ hty
  | none =>
    refine hreceiver.bind fun found hfound => ?_
    cases found with
    | some ty => exact holds_pure hfound
    | none => exact hargument

end Rules

section Substitution

variable {ι : Type} {ctx : Context} {K : Compositional ι ctx} {es : List Expr}
  {answer : ι → String → Query (Option Ty)}

mutual

theorem holds_substitute (hanswer : ∀ name, K.Holds (fun i => answer i name)
    fun found => ∀ ty, found = some ty → ty.nested ⊆ es) : ∀ {ty : Ty}, ty.nested ⊆ es →
      K.Holds (fun i => ty.substituteM (answer i)) fun ty => ty.nested ⊆ es
  | .var name, h => by
    unfold Ty.substituteM
    refine (hanswer name).bind fun found hfound => ?_
    cases found with
    | some ty => exact holds_pure (hfound ty rfl)
    | none => exact holds_pure h
  | .list item, h =>
    (holds_substitute hanswer (show item.nested ⊆ es from h)).bind fun _ hi => holds_pure hi
  | .function _ inputs output, h => by
    simp only [Ty.nested, List.append_subset] at h
    refine (holds_substituteInBinders hanswer h.1).bind fun inputs hi => ?_
    refine (holds_substitute hanswer h.2).bind fun output ho => holds_pure ?_
    simp only [Ty.nested, List.append_subset]
    exact ⟨hi, ho⟩
  | .table columns, h =>
    (holds_substituteInBinders hanswer (show nestedInBinders columns ⊆ es from h)).bind
      fun _ hc => holds_pure hc
  | .struct definition args, h => by
    simp only [Ty.nested, List.append_subset] at h
    refine (holds_substituteInTys hanswer h.2).bind fun args ha => holds_pure ?_
    simp only [Ty.nested, List.append_subset]
    exact ⟨h.1, ha⟩
  | .structDef definition args, h => by
    simp only [Ty.nested, List.append_subset] at h
    refine (holds_substituteInTys hanswer h.2).bind fun args ha => holds_pure ?_
    simp only [Ty.nested, List.append_subset]
    exact ⟨h.1, ha⟩
  | .union members, h =>
    (holds_substituteInTys hanswer (show nestedInTys members ⊆ es from h)).bind
      fun _ hm => holds_pure hm
  | .number _, h | .text _, h | .boolean, h | .name _, h | .any, h | .unknown .., h =>
    holds_pure h

theorem holds_substituteInTys (hanswer : ∀ name, K.Holds (fun i => answer i name)
    fun found => ∀ ty, found = some ty → ty.nested ⊆ es) : ∀ {tys : List Ty},
      nestedInTys tys ⊆ es →
      K.Holds (fun i => substituteInTysM (answer i) tys) fun tys => nestedInTys tys ⊆ es
  | [], h => holds_pure h
  | t :: rest, h => by
    simp only [nestedInTys, List.append_subset] at h
    refine (holds_substitute hanswer h.1).bind fun t ht => ?_
    refine (holds_substituteInTys hanswer h.2).bind fun rest hr => holds_pure ?_
    simp only [nestedInTys, List.append_subset]
    exact ⟨ht, hr⟩

theorem holds_substituteInBinder (hanswer : ∀ name, K.Holds (fun i => answer i name)
    fun found => ∀ ty, found = some ty → ty.nested ⊆ es) : ∀ {b : Binder}, b.nested ⊆ es →
      K.Holds (fun i => b.substituteM (answer i)) fun b => b.nested ⊆ es
  | ⟨_, _, ty, value, _⟩, h => by
    simp only [Binder.nested, List.append_subset] at h
    refine (holds_substituteInTy? hanswer h.1).bind fun ty ht => holds_pure ?_
    simp only [Binder.nested, List.append_subset]
    exact ⟨ht, h.2⟩

theorem holds_substituteInBinders (hanswer : ∀ name, K.Holds (fun i => answer i name)
    fun found => ∀ ty, found = some ty → ty.nested ⊆ es) : ∀ {bs : List Binder},
      nestedInBinders bs ⊆ es →
      K.Holds (fun i => substituteInBindersM (answer i) bs)
        fun bs => nestedInBinders bs ⊆ es
  | [], h => holds_pure h
  | b :: rest, h => by
    simp only [nestedInBinders, List.append_subset] at h
    refine (holds_substituteInBinder hanswer h.1).bind fun b hb => ?_
    refine (holds_substituteInBinders hanswer h.2).bind fun rest hr => holds_pure ?_
    simp only [nestedInBinders, List.append_subset]
    exact ⟨hb, hr⟩

theorem holds_substituteInTy? (hanswer : ∀ name, K.Holds (fun i => answer i name)
    fun found => ∀ ty, found = some ty → ty.nested ⊆ es) : ∀ {ty : Option Ty},
      nestedInTy? ty ⊆ es →
      K.Holds (fun i => substituteInTyM? (answer i) ty) fun ty => nestedInTy? ty ⊆ es
  | none, h => holds_pure h
  | some _, h => (holds_substitute hanswer h).bind fun _ ht => holds_pure ht

end

end Substitution

section Rules

variable {ι : Type} {ctx : Context} {K : Compositional ι ctx} {es : List Expr} {ask : ι → Ask}
  {size : ι → Nat} (hctx : ctx.Within es)
  (hask : ∀ e, e.nested ⊆ es → K.Holds (fun i => ask i e) fun ty => ty.nested ⊆ es)

include hctx hask

theorem holds_instantiate {call : Call} (hcall : call.nested ⊆ es) (callee : Callee) {ty : Ty}
    (hty : ty.nested ⊆ es) :
    K.Holds (fun i => call.instantiate (ask i) callee ty) fun ty => ty.nested ⊆ es :=
  holds_substitute (fun name => holds_typeFor hctx hask hcall callee name) hty

theorem holds_structArgs {call : Call} (hcall : call.nested ⊆ es) (callee : Callee)
    (vars : List TypeVariable) :
    K.Holds (fun i => call.structArgs (ask i) callee vars) fun tys =>
      nestedInTys tys ⊆ es := by
  induction vars with
  | nil => exact holds_pure (by simp [nestedInTys])
  | cons v rest ih =>
    refine (holds_typeFor hctx hask hcall callee v.text).bind fun arg harg => ?_
    refine ih.bind fun args hargs => holds_pure ?_
    simp only [nestedInTys, List.append_subset]
    refine ⟨?_, hargs⟩
    cases arg with
    | some ty => exact harg ty rfl
    | none => simp [Ty.nested]

theorem holds_output {call : Call} (hcall : call.nested ⊆ es) :
    K.Holds (fun i => call.outputWith (ask i)) fun ty => ty.nested ⊆ es := by
  have hcallee := (Call.nested_subset.1 hcall).2.1
  unfold Call.outputWith
  refine (hask call.callee hcallee).bind fun ty hty => ?_
  cases hc : Callee.ofTy? ty with
  | none => exact holds_pure (by simp [Ty.nested])
  | some callee =>
    cases callee with
    | function vars inputs output =>
      have houtput : output.nested ⊆ es := by
        unfold Callee.ofTy? at hc
        split at hc <;> simp_all [Ty.nested]
      exact holds_instantiate hctx hask hcall _ houtput
    | struct definition args =>
      have hdefinition : definition.nested ⊆ es := by
        unfold Callee.ofTy? at hc
        split at hc <;> simp_all [Ty.nested]
      refine (holds_structArgs hctx hask hcall _ _).bind fun args hargs => holds_pure ?_
      simp only [Ty.nested, List.append_subset]
      exact ⟨hdefinition, hargs⟩

/-! ## Inferring types -/

theorem holds_access {id : NodeId} {subject : Expr} (h : subject.nested ⊆ es) (member : String) :
    K.Holds (fun i => accessTypeWith (ask i) id subject member) fun ty =>
      ty.nested ⊆ es := by
  unfold accessTypeWith
  refine (hask subject h).bind fun found hfound => ?_
  refine (holds_resolved hctx hfound).bind fun ty hty => ?_
  cases ty with
  | struct definition args =>
    simp only [Ty.nested, List.append_subset, nestedInTys_subset] at hty
    refine (holds_memberType hctx hask hty.1 hty.2 member).bind fun declared hd => holds_pure ?_
    cases declared with
    | some ty => exact hd ty rfl
    | none => simp [Ty.nested]
  | _ => exact holds_pure (by simp [Ty.nested])

theorem holds_reference (id : NodeId) (name : String) :
    K.Holds (fun i => referenceTypeWith (ask i) id name) fun ty => ty.nested ⊆ es := by
  unfold referenceTypeWith
  refine holds_read.bind fun found hfound => ?_
  obtain rfl := hfound
  cases hd : found.find? name with
  | some d => exact holds_definition hctx hask (hctx name d hd)
  | none => exact holds_pure (by simp [Ty.nested])

variable (hcompare : ∀ a b : Ty, a.nested ⊆ es → b.nested ⊆ es →
  K.Holds (fun i => a.acceptsWith (ask i) (size i) b) fun _ => True)

include hcompare

omit hctx hask in
theorem holds_compatible {a b : Ty} (ha : a.nested ⊆ es) (hb : b.nested ⊆ es) :
    K.Holds (fun i => a.compatibleWith (ask i) (size i) b) fun _ => True := by
  unfold Ty.compatibleWith
  refine (hcompare a b ha hb).bind fun accepted _ => ?_
  cases accepted with
  | true => exact hcompare b a hb ha
  | false => exact holds_pure trivial

omit hctx hask in
theorem holds_joinMember {members : List Ty} {ty : Ty} (hm : nestedInTys members ⊆ es)
    (ht : ty.nested ⊆ es) :
    K.Holds (fun i => joinMember (Ty.compatibleWith (ask i) (size i)) members ty)
      fun joined => nestedInTys joined ⊆ es := by
  unfold joinMember
  refine (holds_anyM fun member hmember => holds_compatible hcompare
    (nestedInTys_subset.1 hm member hmember) ht).bind fun found _ => ?_
  cases found with
  | true => exact holds_pure hm
  | false =>
    refine holds_pure (nestedInTys_subset.2 fun t hmem => ?_)
    rcases List.mem_append.1 hmem with h | h
    · exact nestedInTys_subset.1 hm t h
    · rw [List.mem_singleton.1 h]
      exact ht

omit hctx hask in
theorem holds_joinType {members : List Ty} {ty : Ty} (hm : nestedInTys members ⊆ es)
    (ht : ty.nested ⊆ es) :
    K.Holds (fun i => joinType (Ty.compatibleWith (ask i) (size i)) members ty)
      fun joined => nestedInTys joined ⊆ es := by
  cases ty with
  | union types =>
    exact holds_foldlM hm fun members hm ty hty =>
      holds_joinMember hcompare hm (nestedInTys_subset.1 ht ty hty)
  | _ => exact holds_joinMember hcompare hm ht

omit hctx in
theorem holds_listType {id : NodeId} {items : List Expr} (h : ∀ e ∈ items, e.nested ⊆ es) :
    K.Holds (fun i => listTypeWith (ask i) (size i) id items) fun ty => ty.nested ⊆ es := by
  unfold listTypeWith
  refine Holds.bind (P := fun members => nestedInTys members ⊆ es)
    (holds_foldlM (by simp [nestedInTys]) fun members hm e he => ?_)
    fun members hm => holds_pure ?_
  · refine (hask e (h e (List.mem_filter.1 he).1)).bind fun ty hty => ?_
    exact holds_joinType hcompare hm hty
  · match members with
    | [] => simp [unionOfMembers, Ty.nested]
    | [only] => simpa [unionOfMembers, Ty.nested, nestedInTys] using hm
    | first :: second :: rest => simpa [unionOfMembers, Ty.nested] using hm

/-- The rules for types answer what is made of the program. -/
theorem holds_infer {e : Expr} (h : e.nested ⊆ es) :
    K.Holds (fun i => e.inferWith (ask i) (size i)) fun ty => ty.nested ⊆ es := by
  cases e with
  | boolean | number | text | unparsable => exact holds_pure (by simp [Ty.nested])
  | list id opening items closing =>
    simp only [Expr.nested, List.cons_subset, nestedInExprs_subset] at h
    exact holds_listType hask hcompare h.2
  | conditional id condition question yes no =>
    simp only [Expr.nested, List.cons_subset, List.append_subset] at h
    cases hu : yes.isUnparsable with
    | true =>
      simp only [Expr.inferWith, hu]
      exact holds_pure (by simp [Ty.nested])
    | false =>
      simp only [Expr.inferWith, hu]
      exact hask yes h.2.1.2
  | call c =>
    simp only [Expr.nested, List.cons_subset] at h
    exact holds_output hctx hask h.2
  | delete id table mark query =>
    simp only [Expr.nested, List.cons_subset, List.append_subset] at h
    exact hask table h.2.1
  | insert id table mark cells =>
    simp only [Expr.nested, List.cons_subset, List.append_subset] at h
    exact hask table h.2.1
  | reference id name => exact holds_reference hctx hask id name.text
  | access id subject dot name =>
    simp only [Expr.nested, List.cons_subset] at h
    exact holds_access hctx hask h.2 name.text
  | binary id left mark op right =>
    simp only [Expr.nested, List.cons_subset, List.append_subset] at h
    cases ha : op.isArithmetic with
    | true =>
      simp only [Expr.inferWith, ha]
      refine (hask left h.2.1).bind fun lt _ => (hask right h.2.2).bind fun rt _ => holds_pure ?_
      unfold arithmeticType
      repeat' split
      all_goals simp [Ty.nested, Ty.anyNumber]
    | false =>
      simp only [Expr.inferWith, ha]
      exact holds_pure (by simp [Ty.nested])
  | unary id mark op operand =>
    simp only [Expr.nested, List.cons_subset] at h
    cases op with
    | not => exact holds_pure (by simp [Ty.nested])
    | negate =>
      refine (hask operand h.2).bind fun ty _ => holds_pure ?_
      unfold negationType
      split <;> simp [Ty.nested, Ty.anyNumber]
  | function f =>
    simp only [Expr.nested, List.cons_subset] at h
    exact holds_function hctx hask h.2
  | struct s =>
    simp only [Expr.nested, List.cons_subset] at h
    exact holds_pure (by simpa [Ty.nested, nestedInTys] using h.2)
  | block id statements =>
    simp only [Expr.nested, List.cons_subset, nestedInExprs_subset] at h
    cases hl : statements.getLast? with
    | none =>
      simp only [Expr.inferWith, hl]
      exact holds_pure (by simp [Ty.nested])
    | some last =>
      simp only [Expr.inferWith, hl]
      exact hask last (h.2 last (List.mem_of_getLast? hl))
  | bind b =>
    simp only [Expr.nested, List.cons_subset] at h
    exact holds_binder hctx hask h.2

end Rules

end Stepwise

import Mathlib.Data.List.Nodup
import Stepwise.Proofs.Typing.Enough
import Stepwise.Proofs.Typing.Nested

/-!
# Forms of literals and operations

Expressions that consist of literals, conditionals and operators alone have no names in them
(`Expr.Plain`).  What such an expression evaluates to can be told from it up to its form: a boolean,
a text, a list, or a number of a certain unit (`Expr.form?`).  An expression that is not well
formed, such as the sum of a length and a time, has no form.

Types of plain expressions are flat: they hold neither declarations nor names, so that comparing
them asks for nothing (`exists_silent_accepts`).  The result of this module is that the type of a
plain expression has the form of the expression, if that has one (`gives_type`).  It holds for a
memo that tells the truth about the expressions nested in it, as long as identities tell them apart.
-/

namespace Stepwise

open Query

/-! ## Plain expressions -/

/-- Expressions made of literals, conditionals and operators, in which every exponent is a number
literal. -/
inductive Expr.Plain : Expr → Prop where
  | boolean (id : NodeId) (token : Token) (value : Bool) : Plain (.boolean id token value)
  | number (id : NodeId) (token : Token) (amount : Float) (unit : MeasureUnit) :
      Plain (.number id token amount unit)
  | text (id : NodeId) (token : Token) (language : Option Language) :
      Plain (.text id token language)
  | list {id : NodeId} {opening closing : Token} {items : List Expr}
      (hitems : ∀ item ∈ items, item.Plain) : Plain (.list id opening items closing)
  | conditional {id : NodeId} {question : Token} {condition yes no : Expr}
      (hcondition : condition.Plain) (hyes : yes.Plain) (hno : no.Plain) :
      Plain (.conditional id condition question yes no)
  | unary {id : NodeId} {mark : Token} {op : UnaryOperator} {operand : Expr}
      (hoperand : operand.Plain) : Plain (.unary id mark op operand)
  | binary {id : NodeId} {mark : Token} {op : BinaryOperator} {left right : Expr}
      (hleft : left.Plain) (hright : right.Plain)
      (hpower : op = .power → ∃ id token amount unit, right = .number id token amount unit) :
      Plain (.binary id left mark op right)

/-- Equal identities mean equal expressions. -/
def Identified (es : List Expr) : Prop :=
  ∀ x ∈ es, ∀ y ∈ es, x.id = y.id → x = y

theorem identified_of_nodup {es : List Expr} (h : (es.map Expr.id).Nodup) : Identified es :=
  fun _ hx _ hy hid => List.inj_on_of_nodup_map h hx hy hid

theorem Expr.Plain.isUnparsable {e : Expr} (h : e.Plain) : e.isUnparsable = false := by
  cases h <;> rfl

/-- What is nested in a plain expression is smaller. -/
theorem Expr.Plain.sizeOf_le {e y : Expr} (h : e.Plain) (hy : y ∈ e.nested) :
    sizeOf y ≤ sizeOf e := by
  induction h with
  | boolean | number | text => simp_all [Expr.nested]
  | @list id opening closing items hitems ih =>
    rcases List.mem_cons.1 (by simpa only [Expr.nested] using hy) with rfl | hy
    · exact Nat.le_refl _
    · obtain ⟨item, hitem, hy⟩ := mem_nestedInExprs.1 hy
      have hle := ih item hitem hy
      have hlt := List.sizeOf_lt_of_mem hitem
      simp only [Expr.list.sizeOf_spec]
      omega
  | conditional hcondition hyes hno ihcondition ihyes ihno =>
    simp only [Expr.nested, List.mem_cons, List.mem_append] at hy
    rcases hy with rfl | (hy | hy) | hy
    · exact Nat.le_refl _
    · have := ihcondition hy
      simp only [Expr.conditional.sizeOf_spec]
      omega
    · have := ihyes hy
      simp only [Expr.conditional.sizeOf_spec]
      omega
    · have := ihno hy
      simp only [Expr.conditional.sizeOf_spec]
      omega
  | unary hoperand ih =>
    simp only [Expr.nested, List.mem_cons] at hy
    rcases hy with rfl | hy
    · exact Nat.le_refl _
    · have := ih hy
      simp only [Expr.unary.sizeOf_spec]
      omega
  | binary hleft hright hpower ihleft ihright =>
    simp only [Expr.nested, List.mem_cons, List.mem_append] at hy
    rcases hy with rfl | hy | hy
    · exact Nat.le_refl _
    · have := ihleft hy
      simp only [Expr.binary.sizeOf_spec]
      omega
    · have := ihright hy
      simp only [Expr.binary.sizeOf_spec]
      omega

/-- What is nested in a plain expression is plain, and nothing else is nested in it. -/
theorem Expr.Plain.of_nested {e y : Expr} (h : e.Plain) (hy : y ∈ e.nested) :
    y.Plain ∧ y.nested ⊆ e.nested := by
  have within {part whole : Expr} (hpart : part.nested ⊆ whole.nested)
      (h : y.Plain ∧ y.nested ⊆ part.nested) : y.Plain ∧ y.nested ⊆ whole.nested :=
    ⟨h.1, List.Subset.trans h.2 hpart⟩
  induction h with
  | boolean id token value =>
    obtain rfl := List.mem_singleton.1 hy
    exact ⟨.boolean .., List.Subset.refl _⟩
  | number id token amount unit =>
    obtain rfl := List.mem_singleton.1 hy
    exact ⟨.number .., List.Subset.refl _⟩
  | text id token language =>
    obtain rfl := List.mem_singleton.1 hy
    exact ⟨.text .., List.Subset.refl _⟩
  | @list id opening closing items hitems ih =>
    rcases List.mem_cons.1 hy with rfl | hy
    · exact ⟨.list hitems, List.Subset.refl _⟩
    · obtain ⟨item, hitem, hy⟩ := mem_nestedInExprs.1 hy
      exact within (nested_item hitem) (ih item hitem hy)
  | conditional hcondition hyes hno ihcondition ihyes ihno =>
    simp only [Expr.nested, List.mem_cons, List.mem_append] at hy
    rcases hy with rfl | (hy | hy) | hy
    · exact ⟨.conditional hcondition hyes hno, List.Subset.refl _⟩
    · exact within nested_condition (ihcondition hy)
    · exact within nested_yes (ihyes hy)
    · exact within nested_no (ihno hy)
  | unary hoperand ih =>
    simp only [Expr.nested, List.mem_cons] at hy
    rcases hy with rfl | hy
    · exact ⟨.unary hoperand, List.Subset.refl _⟩
    · exact within nested_operand (ih hy)
  | binary hleft hright hpower ihleft ihright =>
    simp only [Expr.nested, List.mem_cons, List.mem_append] at hy
    rcases hy with rfl | hy | hy
    · exact ⟨.binary hleft hright hpower, List.Subset.refl _⟩
    · exact within nested_left (ihleft hy)
    · exact within nested_right (ihright hy)

/-! ## Forms -/

/-- What can be told of a value before it is computed. -/
inductive Form where
  | boolean
  | text
  | list
  | number (unit : MeasureUnit)
deriving DecidableEq

/-- The form of the values of a type. -/
def Ty.form? : Ty → Option Form
  | .boolean => some .boolean
  | .text _ => some .text
  | .list _ => some .list
  | .number .wildcard => none
  | .number unit => some (.number unit.concrete)
  | _ => none

/-- The form of what an operator makes of two numbers; a unit that overflows counts as none. -/
def BinaryOperator.numberForm? (op : BinaryOperator) (left right : MeasureUnit)
    (constant : Option Float) : Option Form :=
  match op with
  | .add | .subtract => if left = right then some (.number left) else none
  | .less | .greater => if left = right then some .boolean else none
  | .multiply => some (.number ((UnitRule.product.apply left (some right) none).getD .empty))
  | .divide => some (.number ((UnitRule.quotient.apply left (some right) none).getD .empty))
  | .power =>
    if right = .empty then some (.number ((UnitRule.power.apply left none constant).getD .empty))
    else none
  | _ => none

/-- The form of what an operator makes of operands of certain forms, where `constant` is the right
operand if it is written as a number. -/
def BinaryOperator.form? (op : BinaryOperator) (left right : Form) (constant : Option Float) :
    Option Form :=
  match op with
  | .equal | .notEqual => some .boolean
  | .and | .or => if left = .boolean ∧ right = .boolean then some .boolean else none
  | _ =>
    match left, right with
    | .number left, .number right => op.numberForm? left right constant
    | _, _ => none

/-- The form of what an operator makes of an operand of a certain form. -/
def UnaryOperator.form? : UnaryOperator → Form → Option Form
  | .negate, .number unit => some (.number unit)
  | .not, .boolean => some .boolean
  | _, _ => none

mutual

/-- The form of what a plain expression evaluates to, if it is well formed. -/
def Expr.form? : Expr → Option Form
  | .boolean .. => some .boolean
  | .number _ _ _ unit => some (.number unit)
  | .text .. => some .text
  | .list _ _ items _ => if haveForms items then some .list else none
  | .conditional _ condition _ yes no =>
    if condition.form? = some .boolean ∧ yes.form? = no.form? then yes.form? else none
  | .binary _ left _ op right => do
    let l ← left.form?
    let r ← right.form?
    op.form? l r (constantOf? right)
  | .unary _ _ op operand => do
    let form ← operand.form?
    op.form? form
  | _ => none
termination_by structural e => e

/-- Whether all expressions have forms. -/
def haveForms : List Expr → Bool
  | [] => true
  | e :: rest => e.form?.isSome && haveForms rest
termination_by structural es => es

end

theorem haveForms_iff {es : List Expr} : haveForms es = true ↔ ∀ e ∈ es, ∃ f, e.form? = some f := by
  induction es with
  | nil => simp [haveForms]
  | cons e rest ih => simp [haveForms, ih, Option.isSome_iff_exists]

/-- The types that have a form. -/
theorem Ty.form?_cases {ty : Ty} {f : Form} (h : ty.form? = some f) :
    (ty = .boolean ∧ f = .boolean) ∨ (∃ language, ty = .text language ∧ f = .text) ∨
      (∃ item, ty = .list item ∧ f = .list) ∨
      ∃ unit, ty = .number unit ∧ unit ≠ .wildcard ∧ f = .number unit.concrete := by
  unfold form? at h
  split at h <;> simp_all

/-- A type that has a form of a number is the type of numbers of a certain unit. -/
theorem Ty.form?_eq_number {ty : Ty} {unit : MeasureUnit} (h : ty.form? = some (.number unit)) :
    ∃ u, ty = .number u ∧ u ≠ .wildcard ∧ u.concrete = unit := by
  rcases form?_cases h with ⟨-, h⟩ | ⟨_, -, h⟩ | ⟨_, -, h⟩ | ⟨u, rfl, hne, h⟩
  · exact nomatch h
  · exact nomatch h
  · exact nomatch h
  · exact ⟨u, rfl, hne, (Form.number.inj h).symm⟩

theorem Ty.isUnknown_of_form {ty : Ty} {f : Form} (h : ty.form? = some f) :
    ty.isUnknown = false := by
  rcases form?_cases h with ⟨rfl, -⟩ | ⟨_, rfl, -⟩ | ⟨_, rfl, -⟩ | ⟨_, rfl, -, -⟩ <;> rfl

/-! ## Comparing flat types -/

/-- Types that hold neither declarations nor names. -/
inductive Ty.Flat : Ty → Prop where
  | boolean : Flat .boolean
  | text (language : Option String) : Flat (.text language)
  | number (unit : NumberUnit) : Flat (.number unit)
  | unknown (reason : UnknownReason) (node : Option NodeId) : Flat (.unknown reason node)
  | list {item : Ty} (hitem : item.Flat) : Flat (.list item)
  | union {members : List Ty} (hmembers : ∀ member ∈ members, member.Flat) : Flat (.union members)

/-- The query has one answer wherever it is asked, and learns nothing. -/
def Query.Silent {α : Type} (q : Nat → Query α) (a : α) : Prop :=
  ∀ ctx memo, Gives q ctx memo a memo

section Silent

variable {α β : Type}

theorem silent_pure (a : α) : Silent (fun _ => pure a) a :=
  fun _ _ => gives_pure.2 ⟨rfl, rfl⟩

theorem Query.Silent.bind {q : Nat → Query α} {f : α → Nat → Query β} {a : α} {b : β}
    (hq : Steady q) (hf : ∀ a, Steady (f a)) (ha : Silent q a) (hb : Silent (f a) b) :
    Silent (fun budget => q budget >>= fun a => f a budget) b :=
  fun ctx memo => (gives_bind hq hf).2 ⟨a, memo, ha ctx memo, hb ctx memo⟩

variable {p : α → Nat → Query Bool} (hp : ∀ a, Steady (p a))

include hp

theorem exists_silent_allM {as : List α} (h : ∀ a ∈ as, ∃ r, Silent (p a) r) :
    ∃ r, Silent (fun budget => as.allM fun a => p a budget) r := by
  induction as with
  | nil => exact ⟨true, silent_pure true⟩
  | cons a rest ih =>
    obtain ⟨r, hr⟩ := h a (List.mem_cons_self ..)
    obtain ⟨others, hothers⟩ := ih fun b hb => h b (List.mem_cons_of_mem _ hb)
    have hrest (b : Bool) : Steady fun budget =>
        match b with
        | true => rest.allM fun a => p a budget
        | false => (pure false : Query Bool) := by
      cases b with
      | true => exact ⟨fun hle => settles_allM (fun a => (hp a).settles hle) rest⟩
      | false => exact steady_pure false
    cases r with
    | true => exact ⟨others, hr.bind (hp a) hrest hothers⟩
    | false => exact ⟨false, hr.bind (hp a) hrest (silent_pure false)⟩

theorem exists_silent_anyM {as : List α} (h : ∀ a ∈ as, ∃ r, Silent (p a) r) :
    ∃ r, Silent (fun budget => as.anyM fun a => p a budget) r := by
  induction as with
  | nil => exact ⟨false, silent_pure false⟩
  | cons a rest ih =>
    obtain ⟨r, hr⟩ := h a (List.mem_cons_self ..)
    obtain ⟨others, hothers⟩ := ih fun b hb => h b (List.mem_cons_of_mem _ hb)
    have hrest (b : Bool) : Steady fun budget =>
        match b with
        | true => (pure true : Query Bool)
        | false => rest.anyM fun a => p a budget := by
      cases b with
      | true => exact steady_pure true
      | false => exact ⟨fun hle => settles_anyM (fun a => (hp a).settles hle) rest⟩
    cases r with
    | true => exact ⟨true, hr.bind (hp a) hrest (silent_pure true)⟩
    | false => exact ⟨others, hr.bind (hp a) hrest hothers⟩

end Silent

/-- A comparison is silent if the step that it begins with is. -/
theorem silent_accepts {expected given : Ty} {r : Bool}
    (h : Silent (fun budget => expected.acceptsStep (Expr.typeOf budget)
      (fun expected given => expected.accepts budget given) given) r) :
    Silent (fun budget => expected.accepts budget given) r :=
  fun ctx memo => gives_accepts.2 (h ctx memo)

/-- Whether the type is a union. -/
def Ty.isUnion : Ty → Bool
  | .union _ => true
  | _ => false

/-- A comparison with a union comes down to those with its members. -/
theorem exists_silent_accepts_union {expected given : Ty} (hg : given.Flat)
    (h : ∀ {other : Ty}, other.Flat → other.isUnion = false →
      ∃ r, Silent (fun budget => expected.accepts budget other) r)
    (hopen : expected.isOpen = false) :
    ∃ r, Silent (fun budget => expected.accepts budget given) r := by
  induction hg with
  | union hmembers ih =>
    obtain ⟨r, hr⟩ := exists_silent_allM (fun member => steady_accepts expected member) ih
    refine ⟨r, silent_accepts ?_⟩
    unfold Ty.acceptsStep
    rw [hopen]
    exact hr
  | boolean => exact h .boolean rfl
  | text language => exact h (.text language) rfl
  | number unit => exact h (.number unit) rfl
  | unknown reason node => exact h (.unknown reason node) rfl
  | list hitem => exact h (.list hitem) rfl

/-- Comparing flat types asks for nothing.  By induction on the expected type, since a comparison of
lists goes on with their items, and one of unions with their members. -/
theorem exists_silent_accepts {expected given : Ty} (he : expected.Flat) (hg : given.Flat) :
    ∃ r, Silent (fun budget => expected.accepts budget given) r := by
  induction he generalizing given with
  | boolean =>
    refine exists_silent_accepts_union hg (fun {other} ho hn => ?_) rfl
    cases ho with
    | boolean => exact ⟨true, silent_accepts (silent_pure true)⟩
    | union => exact nomatch hn
    | _ => exact ⟨false, silent_accepts (silent_pure false)⟩
  | text language =>
    refine exists_silent_accepts_union hg (fun {other} ho hn => ?_) rfl
    cases ho with
    | text => exact ⟨true, silent_accepts (silent_pure true)⟩
    | union => exact nomatch hn
    | _ => exact ⟨false, silent_accepts (silent_pure false)⟩
  | number unit =>
    refine exists_silent_accepts_union hg (fun {other} ho hn => ?_) rfl
    cases ho with
    | number given => exact ⟨unit.accepts given, silent_accepts (silent_pure _)⟩
    | union => exact nomatch hn
    | _ => exact ⟨false, silent_accepts (silent_pure false)⟩
  | unknown reason node =>
    refine exists_silent_accepts_union hg (fun {other} ho hn => ?_) rfl
    cases ho with
    | union => exact nomatch hn
    | _ => exact ⟨false, silent_accepts (silent_pure false)⟩
  | @list item hitem ih =>
    refine exists_silent_accepts_union hg (fun {other} ho hn => ?_) rfl
    cases ho with
    | union => exact nomatch hn
    | @list given hgiven =>
      obtain ⟨r, hr⟩ := ih hgiven
      by_cases hunknown : (item.isUnknown || given.isUnknown) = true
      · refine ⟨true, silent_accepts fun ctx memo => ⟨0, ?_⟩⟩
        simp [Ty.acceptsStep, Ty.isOpen, Ty.isName, acceptsForm, hunknown, pure_eq_some]
      · refine ⟨r, silent_accepts fun ctx memo => ?_⟩
        obtain ⟨budget, h⟩ := hr ctx memo
        refine ⟨budget, ?_⟩
        simpa [Ty.acceptsStep, Ty.isOpen, Ty.isName, acceptsForm, hunknown] using h
    | _ => exact ⟨false, silent_accepts (silent_pure false)⟩
  | @union members hmembers ih =>
    refine exists_silent_accepts_union hg (fun {other} ho hn => ?_) rfl
    obtain ⟨r, hr⟩ := exists_silent_anyM (fun member => steady_accepts member other)
      fun member hm => ih member hm ho
    refine ⟨r, silent_accepts ?_⟩
    cases ho with
    | union => exact nomatch hn
    | _ => exact hr

theorem exists_silent_compatible {a b : Ty} (ha : a.Flat) (hb : b.Flat) :
    ∃ r, Silent (fun budget => a.compatible budget b) r := by
  obtain ⟨there, hthere⟩ := exists_silent_accepts ha hb
  obtain ⟨back, hback⟩ := exists_silent_accepts hb ha
  have hrest (accepted : Bool) : Steady fun budget =>
      if accepted = true then b.accepts budget a else (pure false : Query Bool) := by
    cases accepted with
    | true => exact steady_accepts b a
    | false => exact steady_pure false
  cases there with
  | true => exact ⟨back, hthere.bind (steady_accepts a b) hrest hback⟩
  | false => exact ⟨false, hthere.bind (steady_accepts a b) hrest (silent_pure false)⟩

/-! ## Joining flat types -/

/-- Flat types are joined silently, and stay flat. -/
theorem exists_silent_joinMember {members : List Ty} {ty : Ty} (hm : ∀ m ∈ members, m.Flat)
    (ht : ty.Flat) :
    ∃ joined : List Ty, (∀ m ∈ joined, m.Flat) ∧
      Silent (fun budget => joinMember (Ty.compatible budget) members ty) joined := by
  obtain ⟨found, hfound⟩ := exists_silent_anyM (fun member => steady_compatible member ty)
    fun member hmember => exists_silent_compatible (hm member hmember) ht
  have hany : Steady fun budget => members.anyM (Ty.compatible budget · ty) :=
    ⟨fun hle => settles_anyM (fun member => settles_compatibleTypes hle member ty) members⟩
  have hrest (found : Bool) : Steady fun _ =>
      if found = true then pure members else (pure (members ++ [ty]) : Query (List Ty)) := by
    cases found with
    | true => exact steady_pure members
    | false => exact steady_pure (members ++ [ty])
  cases found with
  | true => exact ⟨members, hm, hfound.bind hany hrest (silent_pure members)⟩
  | false =>
    refine ⟨members ++ [ty], fun m hmem => ?_, hfound.bind hany hrest (silent_pure _)⟩
    rcases List.mem_append.1 hmem with h | h
    · exact hm m h
    · rw [List.mem_singleton.1 h]
      exact ht

theorem exists_silent_joinType {members : List Ty} {ty : Ty} (hm : ∀ m ∈ members, m.Flat)
    (ht : ty.Flat) :
    ∃ joined : List Ty, (∀ m ∈ joined, m.Flat) ∧
      Silent (fun budget => joinType (Ty.compatible budget) members ty) joined := by
  cases ht with
  | @union types htypes =>
    have hstep (members : List Ty) (ty : Ty) : Steady fun budget =>
        joinMember (Ty.compatible budget) members ty :=
      ⟨fun hle => settles_joinMember (settles_compatibleTypes hle) members ty⟩
    induction types generalizing members with
    | nil => exact ⟨members, hm, silent_pure members⟩
    | cons first rest ih =>
      obtain ⟨mid, hmid, hfirst⟩ :=
        exists_silent_joinMember hm (htypes first (List.mem_cons_self ..))
      obtain ⟨joined, hjoined, hrest⟩ := ih hmid fun m h => htypes m (List.mem_cons_of_mem _ h)
      refine ⟨joined, hjoined, ?_⟩
      have hfold (members : List Ty) : Steady fun budget =>
          rest.foldlM (joinMember (Ty.compatible budget)) members :=
        ⟨fun hle => settles_foldlM (fun members ty => (hstep members ty).settles hle) rest members⟩
      exact hfirst.bind (hstep members first) hfold hrest
  | boolean => exact exists_silent_joinMember hm .boolean
  | text language => exact exists_silent_joinMember hm (.text language)
  | number unit => exact exists_silent_joinMember hm (.number unit)
  | unknown reason node => exact exists_silent_joinMember hm (.unknown reason node)
  | list hitem => exact exists_silent_joinMember hm (.list hitem)

theorem flat_unionOfMembers {members : List Ty} (h : ∀ m ∈ members, m.Flat) (ty : Ty)
    (ht : unionOfMembers members = some ty) : ty.Flat := by
  match members with
  | [] => exact nomatch ht
  | [only] =>
    obtain rfl := Option.some.inj ht
    exact h only (List.mem_cons_self ..)
  | first :: second :: rest =>
    obtain rfl := Option.some.inj ht
    exact .union h

/-! ## Types of plain expressions -/

/-- The type may be that of the expression. -/
structure Expr.Suits (e : Expr) (ty : Ty) : Prop where
  flat : ty.Flat
  form : ∀ f, e.form? = some f → ty.form? = some f

/-- What the memo knows of the expressions is true. -/
def Memo.Tells (memo : Memo) (es : List Expr) : Prop :=
  ∀ e ∈ es, ∀ ty, memo.types.find? e.id = some ty → e.Suits ty

/-- No query is under way for anything nested in the expression. -/
def Memo.Clear (memo : Memo) (e : Expr) : Prop :=
  ∀ y ∈ e.nested, ∀ v ∈ memo.visiting, v.id ≠ y.id

section Types

variable {es : List Expr} {memo inner after : Memo} {ctx : Context}

theorem Memo.Clear.of_grows {e : Expr} (h : memo.Clear e) (hg : memo.Grows after) :
    after.Clear e := by
  intro y hy v hv
  obtain ⟨w, hw, hid⟩ := hg.exists_visit hv
  rw [← hid]
  exact h y hy w hw

/-- Nothing nested in a part of an expression is the expression. -/
theorem Memo.Clear.enter {e part : Expr} (hids : Identified es) (hes : e.nested ⊆ es)
    (h : memo.Clear e) (hsub : part.nested ⊆ e.nested) (hpart : part.Plain)
    (hlt : sizeOf part < sizeOf e) : (memo.enter e.id).Clear part := by
  intro y hy v hv
  rcases List.mem_cons.1 hv with rfl | hv
  · intro hid
    have heq : e = y := hids e (hes e.mem_nested_self) y (hes (hsub hy)) hid
    have hle := hpart.sizeOf_le hy
    rw [← heq] at hle
    omega
  · exact h y (hsub hy) v hv

theorem Memo.Tells.leave {e : Expr} {ty : Ty} (hids : Identified es) (he : e ∈ es)
    (h : inner.Tells es) (hg : (memo.enter e.id).Grows inner) (hty : e.Suits ty) :
    (inner.leave ty).Tells es := by
  obtain ⟨v, outer, hvisiting⟩ : ∃ v outer, inner.visiting = v :: outer := by
    cases hv : inner.visiting with
    | nil =>
      have hids := hg.ids
      simp [hv, Memo.enter] at hids
    | cons v outer => exact ⟨v, outer, rfl⟩
  have hid : v.id = e.id := by
    have hids := hg.ids
    simp only [hvisiting, Memo.enter, List.map_cons, List.cons.injEq] at hids
    exact hids.1
  intro x hx found hfound
  rw [Memo.leave, hvisiting] at hfound
  dsimp only at hfound
  split at hfound
  · exact h x hx found hfound
  · rw [Assoc.find?_insert, hid] at hfound
    by_cases heq : x.id = e.id
    · rw [heq, beq_self_eq_true, if_pos rfl] at hfound
      rw [hids x hx e he heq, ← Option.some.inj hfound]
      exact hty
    · rw [beq_false_of_ne heq] at hfound
      exact h x hx found (by simpa using hfound)

/-- It is enough to find a type for the expression where none is known. -/
theorem gives_type_of_infer {e : Expr} (hids : Identified es) (hes : e.nested ⊆ es)
    (htells : memo.Tells es) (hclear : memo.Clear e)
    (h : ∃ ty inner, Gives (fun budget => e.inferWith (Expr.typeOf budget) budget) ctx
      (memo.enter e.id) ty inner ∧ e.Suits ty ∧ inner.Tells es) :
    ∃ ty after, Gives (fun budget => e.typeOf budget) ctx memo ty after ∧ e.Suits ty ∧
      after.Tells es := by
  cases hf : memo.types.find? e.id with
  | some ty =>
    exact ⟨ty, memo, gives_typeOf.2 (.inl ⟨hf, rfl⟩), htells e (hes e.mem_nested_self) ty hf,
      htells⟩
  | none =>
    have hdepth : Memo.depthIn? e.id memo.visiting = none :=
      Memo.depthIn?_eq_none_iff.2 (hclear e e.mem_nested_self)
    obtain ⟨ty, inner, hinfer, hty, hinner⟩ := h
    refine ⟨ty, inner.leave ty, gives_typeOf.2 (.inr (.inr ⟨inner, hf, hdepth, hinfer, rfl⟩)), hty,
      ?_⟩
    exact hinner.leave hids (hes e.mem_nested_self) (hinfer.grows (steady_infer e)) hty

/-! ### Operations -/

theorem BinaryOperator.isArithmetic_cases {op : BinaryOperator} (h : op.isArithmetic = true) :
    op = .add ∨ op = .subtract ∨ op = .multiply ∨ op = .divide ∨ op = .power := by
  cases op <;> simp [isArithmetic] at h ⊢

/-- The unit that is derived for an operation on numbers is that of the form of its value. -/
theorem form?_arithmeticType {op : BinaryOperator} (hop : op.isArithmetic = true) {lt rt : Ty}
    {u v : MeasureUnit} (hl : lt.form? = some (.number u)) (hr : rt.form? = some (.number v))
    (right : Expr) {f : Form} (hf : op.numberForm? u v (constantOf? right) = some f) :
    (arithmeticType op lt rt right).form? = some f := by
  obtain ⟨lu, rfl, -, rfl⟩ := Ty.form?_eq_number hl
  obtain ⟨ru, rfl, -, rfl⟩ := Ty.form?_eq_number hr
  rcases BinaryOperator.isArithmetic_cases hop with rfl | rfl | rfl | rfl | rfl
  all_goals
    simp only [BinaryOperator.numberForm?, Option.ite_none_right_eq_some, Option.some.injEq] at hf
    simp only [arithmeticType, Ty.form?, NumberUnit.concrete, Ty.concreteUnit?, concreteUnitOf?]
  · rw [← hf.2]
    rfl
  · rw [← hf.2]
    rfl
  · rw [← hf]
  · rw [← hf]
  · rw [← hf.2]

theorem flat_arithmeticType (op : BinaryOperator) (lt rt : Ty) (right : Expr) :
    (arithmeticType op lt rt right).Flat := by
  unfold arithmeticType
  split
  · split
    · exact .number _
    · exact .number _
    · split <;> exact .number _
    · split <;> exact .number _
    · exact .number _
  · exact .number _

/-- The operators and the operands that they take. -/
theorem BinaryOperator.form?_cases {op : BinaryOperator} {l r f : Form} {constant : Option Float}
    (h : op.form? l r constant = some f) :
    ((op = .equal ∨ op = .notEqual) ∧ f = .boolean) ∨
      ((op = .and ∨ op = .or) ∧ l = .boolean ∧ r = .boolean ∧ f = .boolean) ∨
      ∃ u v, l = .number u ∧ r = .number v ∧ op.numberForm? u v constant = some f := by
  cases op with
  | equal | notEqual => exact .inl ⟨by simp, (Option.some.inj h).symm⟩
  | and | or =>
    obtain ⟨⟨hl, hr⟩, hf⟩ := Option.ite_none_right_eq_some.1 h
    exact .inr (.inl ⟨by simp, hl, hr, (Option.some.inj hf).symm⟩)
  | _ =>
    cases l <;> cases r <;> simp_all [form?]

theorem suits_arithmetic {id : NodeId} {mark : Token} {op : BinaryOperator} {left right : Expr}
    {lt rt : Ty} (hop : op.isArithmetic = true) (hl : left.Suits lt) (hr : right.Suits rt) :
    (Expr.binary id left mark op right).Suits (arithmeticType op lt rt right) := by
  refine ⟨flat_arithmeticType op lt rt right, fun f hf => ?_⟩
  simp only [Expr.form?, Option.bind_eq_bind, Option.bind_eq_some_iff] at hf
  obtain ⟨l, hleft, r, hright, hf⟩ := hf
  rcases BinaryOperator.form?_cases hf with ⟨rfl | rfl, -⟩ | ⟨rfl | rfl, -⟩ |
    ⟨u, v, rfl, rfl, hnumber⟩
  · exact nomatch hop
  · exact nomatch hop
  · exact nomatch hop
  · exact nomatch hop
  · exact form?_arithmeticType hop (hl.form _ hleft) (hr.form _ hright) right hnumber

theorem suits_comparison {id : NodeId} {mark : Token} {op : BinaryOperator} {left right : Expr}
    (hop : op.isArithmetic = false) : (Expr.binary id left mark op right).Suits .boolean := by
  refine ⟨.boolean, fun f hf => ?_⟩
  simp only [Expr.form?, Option.bind_eq_bind, Option.bind_eq_some_iff] at hf
  obtain ⟨l, -, r, -, hf⟩ := hf
  rcases BinaryOperator.form?_cases hf with ⟨-, rfl⟩ | ⟨-, -, -, rfl⟩ | ⟨u, v, -, -, hnumber⟩
  · rfl
  · rfl
  · cases op with
    | less | greater =>
      obtain ⟨-, hf⟩ := Option.ite_none_right_eq_some.1 hnumber
      exact hf
    | equal | notEqual | and | or => exact nomatch hnumber
    | _ => exact nomatch hop

theorem suits_negation {id : NodeId} {mark : Token} {operand : Expr} {ty : Ty}
    (h : operand.Suits ty) : (Expr.unary id mark .negate operand).Suits (negationType ty) := by
  constructor
  · unfold negationType
    split <;> exact .number _
  · intro f hf
    simp only [Expr.form?, Option.bind_eq_bind, Option.bind_eq_some_iff] at hf
    obtain ⟨form, hoperand, hf⟩ := hf
    cases form with
    | number unit =>
      obtain rfl := Option.some.inj hf
      obtain ⟨u, rfl, -, rfl⟩ := Ty.form?_eq_number (h.form _ hoperand)
      rfl
    | boolean | text | list => simp [UnaryOperator.form?] at hf

theorem suits_not {id : NodeId} {mark : Token} {operand : Expr} :
    (Expr.unary id mark .not operand).Suits .boolean := by
  refine ⟨.boolean, fun f hf => ?_⟩
  simp only [Expr.form?, Option.bind_eq_bind, Option.bind_eq_some_iff] at hf
  obtain ⟨form, -, hf⟩ := hf
  cases form with
  | boolean =>
    obtain rfl := Option.some.inj hf
    rfl
  | number | text | list => simp [UnaryOperator.form?] at hf

theorem suits_list {id : NodeId} {opening closing : Token} {items : List Expr} {members : List Ty}
    (hm : ∀ m ∈ members, m.Flat) :
    (Expr.list id opening items closing).Suits
      (.list ((unionOfMembers members).getD (.unknown .noElements (some id)))) := by
  constructor
  · refine .list ?_
    cases hu : unionOfMembers members with
    | none => exact .unknown _ _
    | some ty => exact flat_unionOfMembers hm ty hu
  · intro f hf
    obtain rfl := Option.some.inj (Option.ite_none_right_eq_some.1 hf).2
    rfl

/-! ### Queries -/

/-- An answer of a type query that suits the expression and leaves the memo telling. -/
def Answered (es : List Expr) (ctx : Context) (memo : Memo) (e : Expr) : Prop :=
  ∃ ty after, Gives (fun budget => e.typeOf budget) ctx memo ty after ∧ e.Suits ty ∧ after.Tells es

/-- The types of the items of a list are asked for and joined one after the other. -/
theorem gives_members {items : List Expr} {members : List Ty} (hm : ∀ m ∈ members, m.Flat)
    (htells : memo.Tells es) (hclear : ∀ item ∈ items, memo.Clear item)
    (hitems : ∀ item ∈ items, ∀ {memo : Memo}, memo.Tells es → memo.Clear item →
      Answered es ctx memo item) :
    ∃ joined after, Gives (fun budget => items.foldlM
        (fun members e => e.typeOf budget >>= joinType (Ty.compatible budget) members) members)
      ctx memo joined after ∧ (∀ m ∈ joined, m.Flat) ∧ after.Tells es := by
  have hjoin (members : List Ty) (ty : Ty) : Steady fun budget =>
      joinType (Ty.compatible budget) members ty :=
    ⟨fun hle => settles_joinType (settles_compatibleTypes hle) members ty⟩
  have hstep (members : List Ty) (e : Expr) : Steady fun budget =>
      e.typeOf budget >>= joinType (Ty.compatible budget) members :=
    (steady_typeOf e).bind fun ty => hjoin members ty
  induction items generalizing memo members with
  | nil => exact ⟨members, memo, gives_pure.2 ⟨rfl, rfl⟩, hm, htells⟩
  | cons item rest ih =>
    obtain ⟨ty, mid, hty, hsuits, hmid⟩ :=
      hitems item (List.mem_cons_self ..) htells (hclear item (List.mem_cons_self ..))
    obtain ⟨next, hnext, hjoined⟩ := exists_silent_joinType hm hsuits.flat
    have hgrows := hty.grows (steady_typeOf item)
    obtain ⟨joined, after, hrest, hflat, hafter⟩ := ih hnext hmid
      (fun other ho => (hclear other (List.mem_cons_of_mem _ ho)).of_grows hgrows)
      (fun other ho => hitems other (List.mem_cons_of_mem _ ho))
    refine ⟨joined, after, ?_, hflat, hafter⟩
    have hfirst := (gives_bind (steady_typeOf item) fun ty => hjoin members ty).2
      ⟨ty, mid, hty, hjoined ctx mid⟩
    have hfold (members : List Ty) : Steady fun budget => rest.foldlM
        (fun members e => e.typeOf budget >>= joinType (Ty.compatible budget) members) members :=
      ⟨fun hle => settles_foldlM (fun members e => (hstep members e).settles hle) rest members⟩
    exact (gives_bind (hstep members item) hfold).2 ⟨next, mid, hfirst, hrest⟩

/-- The type of a plain expression has the form of the expression. -/
theorem gives_type (hids : Identified es) {e : Expr} (he : e.Plain) (hes : e.nested ⊆ es)
    (htells : memo.Tells es) (hclear : memo.Clear e) : Answered es ctx memo e := by
  induction he generalizing memo with
  | boolean id token value =>
    refine gives_type_of_infer hids hes htells hclear
      ⟨.boolean, _, gives_pure.2 ⟨rfl, rfl⟩, ?_, htells⟩
    exact ⟨.boolean, fun f hf => by rw [← Option.some.inj hf]; rfl⟩
  | number id token amount unit =>
    refine gives_type_of_infer hids hes htells hclear ⟨_, _, gives_pure.2 ⟨rfl, rfl⟩, ?_, htells⟩
    exact ⟨.number _, fun f hf => by rw [← Option.some.inj hf]; rfl⟩
  | text id token language =>
    refine gives_type_of_infer hids hes htells hclear ⟨_, _, gives_pure.2 ⟨rfl, rfl⟩, ?_, htells⟩
    exact ⟨.text _, fun f hf => by rw [← Option.some.inj hf]; rfl⟩
  | @list id opening closing items hitems ih =>
    have hparsed {item : Expr} (h : item ∈ items.filter fun e => !e.isUnparsable) : item ∈ items :=
      (List.mem_filter.1 h).1
    have hlt {item : Expr} (hitem : item ∈ items) :
        sizeOf item < sizeOf (Expr.list id opening items closing) := by
      have := List.sizeOf_lt_of_mem hitem
      simp only [Expr.list.sizeOf_spec]
      omega
    obtain ⟨members, inner, hgives, hflat, hinner⟩ :=
      gives_members (show ∀ m ∈ ([] : List Ty), m.Flat by simp)
        (show (memo.enter id).Tells es from htells)
        (fun item h => hclear.enter hids hes (Expr.nested_item (hparsed h))
          (hitems item (hparsed h)) (hlt (hparsed h)))
        (fun item h => ih item (hparsed h) (List.Subset.trans (Expr.nested_item (hparsed h)) hes))
    refine gives_type_of_infer hids hes htells hclear ⟨_, inner, ?_, suits_list hflat, hinner⟩
    obtain ⟨budget, h⟩ := hgives
    exact ⟨budget, bind_eq_some.2 ⟨members, inner, h, rfl⟩⟩
  | @conditional id question condition yes no hcondition hyes hno ihcondition ihyes ihno =>
    have hanswered : Answered es ctx (memo.enter id) yes :=
      ihyes (List.Subset.trans Expr.nested_yes hes) htells
        (hclear.enter hids hes Expr.nested_yes hyes
          (by simp only [Expr.conditional.sizeOf_spec]; omega))
    obtain ⟨ty, inner, hty, hsuits, hinner⟩ := hanswered
    refine gives_type_of_infer hids hes htells hclear ⟨ty, inner, ?_, ?_, hinner⟩
    · simp only [Expr.inferWith, hyes.isUnparsable, Bool.false_eq_true, if_false]
      exact hty
    · refine ⟨hsuits.flat, fun f hf => hsuits.form f ?_⟩
      exact (Option.ite_none_right_eq_some.1 hf).2
  | @unary id mark op operand hoperand ih =>
    cases op with
    | not =>
      exact gives_type_of_infer hids hes htells hclear
        ⟨.boolean, _, gives_pure.2 ⟨rfl, rfl⟩, suits_not, htells⟩
    | negate =>
      have hanswered : Answered es ctx (memo.enter id) operand :=
        ih (List.Subset.trans Expr.nested_operand hes) htells
          (hclear.enter hids hes Expr.nested_operand hoperand
            (by simp only [Expr.unary.sizeOf_spec]; omega))
      obtain ⟨ty, inner, hty, hsuits, hinner⟩ := hanswered
      refine gives_type_of_infer hids hes htells hclear
        ⟨negationType ty, inner, ?_, suits_negation hsuits, hinner⟩
      exact (gives_bind (steady_typeOf operand) fun ty => steady_pure (negationType ty)).2
        ⟨ty, inner, hty, gives_pure.2 ⟨rfl, rfl⟩⟩
  | @binary id mark op left right hleft hright hpower ihleft ihright =>
    cases hop : op.isArithmetic with
    | false =>
      refine gives_type_of_infer hids hes htells hclear
        ⟨.boolean, memo.enter id, ?_, suits_comparison hop, htells⟩
      simp only [Expr.inferWith, hop, Bool.false_eq_true, if_false]
      exact gives_pure.2 ⟨rfl, rfl⟩
    | true =>
      have hanswered : Answered es ctx (memo.enter id) left :=
        ihleft (List.Subset.trans Expr.nested_left hes) htells
          (hclear.enter hids hes Expr.nested_left hleft
            (by simp only [Expr.binary.sizeOf_spec]; omega))
      obtain ⟨lt, mid, hlt, hl, hmid⟩ := hanswered
      have hclearright := (hclear.enter hids hes Expr.nested_right hright
        (by simp only [Expr.binary.sizeOf_spec]; omega)).of_grows (hlt.grows (steady_typeOf left))
      obtain ⟨rt, inner, hrt, hr, hinner⟩ :=
        ihright (List.Subset.trans Expr.nested_right hes) hmid hclearright
      refine gives_type_of_infer hids hes htells hclear
        ⟨arithmeticType op lt rt right, inner, ?_, suits_arithmetic hop hl hr, hinner⟩
      have hboth := (gives_bind (steady_typeOf left) fun lt =>
          (steady_typeOf right).bind fun rt => steady_pure (arithmeticType op lt rt right)).2
        ⟨lt, mid, hlt, (gives_bind (steady_typeOf right) fun rt =>
          steady_pure (arithmeticType op lt rt right)).2 ⟨rt, inner, hrt, gives_pure.2 ⟨rfl, rfl⟩⟩⟩
      simp only [Expr.inferWith, hop, if_true]
      exact hboth

end Types

end Stepwise

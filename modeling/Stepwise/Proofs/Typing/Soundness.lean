import Stepwise.Proofs.Reference.Refinement
import Stepwise.Proofs.Sample
import Stepwise.Proofs.Typing.Forms

/-!
# Plain expressions are typed soundly

If analysis finds no conflict in a plain expression, then the expression has a form
(`form_of_analyze`), and so have all parts of it.  An expression that has a form evaluates to a
value of that form, unless a unit overflows or an exponent is no whole number of 32 bits (`Comes`):
the units that the operators insist on are those that the parts are known to have.

`analyzed_evaluates_soundly` puts the two together with the type of the expression, which has the
same form.  Evaluation is that of the machine, by way of the reference evaluation, which it follows.

Types are remembered by identity, and so is code.  So all this is about expressions whose nodes have
identities of their own; an expression beside an edited copy of itself can be typed wrongly
(`analyzed_evaluates_unsoundly`).
-/

namespace Stepwise

open Query

/-! ## Analysis -/

/-- A memo between queries that knows nothing wrong about the expressions. -/
structure Memo.Fair (memo : Memo) (es : List Expr) : Prop where
  atRest : memo.AtRest
  tells : memo.Tells es

section Analysis

variable {es : List Expr} {ctx : Context} {memo mid after : Memo} {budget : Nat}

theorem Memo.Fair.clear (h : memo.Fair es) (e : Expr) : memo.Clear e := by
  intro y hy v hv
  rw [show memo.visiting = [] from h.atRest] at hv
  exact nomatch hv

/-- What a type query answers about a plain expression during analysis. -/
theorem suits_of_typeOf (hids : Identified es) {e : Expr} (he : e.Plain) (hes : e.nested ⊆ es)
    (hm : memo.Fair es) {ty : Ty} (h : e.typeOf budget ctx memo = some (ty, after)) :
    e.Suits ty ∧ after.Fair es := by
  have hanswered : Answered es ctx memo e := gives_type hids he hes hm.tells (hm.clear e)
  obtain ⟨ty', after', hgives, hsuits, htells⟩ := hanswered
  obtain ⟨rfl, rfl⟩ := hgives.unique (steady_typeOf e) ⟨budget, h⟩
  exact ⟨hsuits, (hgives.grows (steady_typeOf e)).atRest hm.atRest, htells⟩

/-! ### Accepted types -/

theorem eq_of_accepts_flat {expected given : Ty} (he : expected.Flat) (hg : given.Flat)
    {accepted : Bool} (h : expected.accepts budget given ctx memo = some (accepted, after)) :
    after = memo := by
  obtain ⟨r, hr⟩ := exists_silent_accepts he hg
  exact ((hr ctx memo).unique (steady_accepts expected given) ⟨budget, h⟩).2

theorem NumberUnit.concrete_eq_of_accepts {expected given : NumberUnit}
    (he : expected ≠ .wildcard) (hg : given ≠ .wildcard) (h : expected.accepts given = true) :
    given.concrete = expected.concrete := by
  cases expected <;> cases given <;> simp_all [accepts]

/-- A type with a form accepts no other form. -/
theorem form_of_accepts {expected given : Ty} {f f' : Form} (he : expected.form? = some f)
    (hg : given.form? = some f')
    (h : expected.accepts budget given ctx memo = some (true, after)) : f' = f := by
  obtain ⟨budget, rfl⟩ : ∃ less, budget = less + 1 := by
    cases budget with
    | zero => exact nomatch h
    | succ less => exact ⟨less, rfl⟩
  rcases Ty.form?_cases he with ⟨rfl, rfl⟩ | ⟨_, rfl, rfl⟩ | ⟨_, rfl, rfl⟩ | ⟨u, rfl, hu, rfl⟩ <;>
    rcases Ty.form?_cases hg with ⟨rfl, rfl⟩ | ⟨_, rfl, rfl⟩ | ⟨_, rfl, rfl⟩ | ⟨v, rfl, hv, rfl⟩
  all_goals first
    | rfl
    | exact congrArg Form.number (NumberUnit.concrete_eq_of_accepts hu hv (pure_eq_some.1 h).1)
    | exact nomatch (pure_eq_some.1 h).1

/-- What stands where any number may stand is a number. -/
theorem number_of_accepts {given : Ty} {f : Form} (hg : given.form? = some f)
    (h : Ty.anyNumber.accepts budget given ctx memo = some (true, after)) :
    ∃ unit, f = .number unit := by
  obtain ⟨budget, rfl⟩ : ∃ less, budget = less + 1 := by
    cases budget with
    | zero => exact nomatch h
    | succ less => exact ⟨less, rfl⟩
  rcases Ty.form?_cases hg with ⟨rfl, rfl⟩ | ⟨_, rfl, rfl⟩ | ⟨_, rfl, rfl⟩ | ⟨v, rfl, -, rfl⟩
  · exact nomatch (pure_eq_some.1 h).1
  · exact nomatch (pure_eq_some.1 h).1
  · exact nomatch (pure_eq_some.1 h).1
  · exact ⟨v.concrete, rfl⟩

/-! ### Conflicts -/

/-- A check that reports a conflict unless one type accepts another. -/
theorem unlessAccepts_eq_some {expected given : Ty} {conflict : Conflict} {found : List Conflict}
    (he : expected.Flat) (hg : given.Flat)
    (h : (do if ← expected.accepts budget given then pure [] else pure [conflict] :
      Query (List Conflict)) ctx memo = some (found, after)) :
    after = memo ∧ (found = [] → expected.accepts budget given ctx memo = some (true, after)) := by
  obtain ⟨accepted, mid, haccepts, hfound⟩ := bind_eq_some.1 h
  obtain rfl := eq_of_accepts_flat he hg haccepts
  cases accepted with
  | true =>
    obtain ⟨rfl, rfl⟩ := pure_eq_some.1 hfound
    exact ⟨rfl, fun _ => haccepts⟩
  | false =>
    obtain ⟨rfl, rfl⟩ := pure_eq_some.1 hfound
    exact ⟨rfl, fun hnil => absurd hnil (List.cons_ne_nil _ _)⟩

theorem conditionConflict_eq_some (hids : Identified es) {condition : Expr}
    (hplain : condition.Plain) (hes : condition.nested ⊆ es) (hm : memo.Fair es)
    {found : List Conflict}
    (h : conditionConflict budget condition ctx memo = some (found, after)) :
    after.Fair es ∧ (found = [] → ∀ f, condition.form? = some f → f = .boolean) := by
  obtain ⟨ty, mid, hty, hfound⟩ := bind_eq_some.1 h
  obtain ⟨hsuits, hmid⟩ := suits_of_typeOf hids hplain hes hm hty
  by_cases hunknown : ty.isUnknown = true
  · rw [if_pos hunknown] at hfound
    obtain ⟨-, rfl⟩ := pure_eq_some.1 hfound
    refine ⟨hmid, fun _ f hf => ?_⟩
    rw [Ty.isUnknown_of_form (hsuits.form f hf)] at hunknown
    exact nomatch hunknown
  · rw [if_neg hunknown] at hfound
    obtain ⟨rfl, haccepts⟩ := unlessAccepts_eq_some .boolean hsuits.flat hfound
    exact ⟨hmid, fun hnil f hf => form_of_accepts rfl (hsuits.form f hf) (haccepts hnil)⟩

theorem branchConflict_eq_some (hids : Identified es) {yes no : Expr} (hyes : yes.Plain)
    (hno : no.Plain) (hesyes : yes.nested ⊆ es) (hesno : no.nested ⊆ es) (hm : memo.Fair es)
    {found : List Conflict} (h : branchConflict budget yes no ctx memo = some (found, after)) :
    after.Fair es ∧
      (found = [] → ∀ f f', yes.form? = some f → no.form? = some f' → f = f') := by
  unfold branchConflict at h
  rw [hyes.isUnparsable, hno.isUnparsable] at h
  obtain ⟨yesTy, first, hyesTy, h⟩ := bind_eq_some.1 h
  obtain ⟨noTy, mid, hnoTy, hfound⟩ := bind_eq_some.1 h
  obtain ⟨hsuitsyes, hfirst⟩ := suits_of_typeOf hids hyes hesyes hm hyesTy
  obtain ⟨hsuitsno, hmid⟩ := suits_of_typeOf hids hno hesno hfirst hnoTy
  by_cases hunknown : (yesTy.isUnknown || noTy.isUnknown) = true
  · rw [if_pos hunknown] at hfound
    obtain ⟨-, rfl⟩ := pure_eq_some.1 hfound
    refine ⟨hmid, fun _ f f' hf hf' => ?_⟩
    rw [Ty.isUnknown_of_form (hsuitsyes.form f hf), Ty.isUnknown_of_form (hsuitsno.form f' hf')]
      at hunknown
    exact nomatch hunknown
  · rw [if_neg hunknown] at hfound
    obtain ⟨agree, last, hagree, hfound⟩ := bind_eq_some.1 hfound
    obtain ⟨r, hr⟩ := exists_silent_compatible hsuitsyes.flat hsuitsno.flat
    obtain ⟨rfl, rfl⟩ := (hr ctx mid).unique (steady_compatible yesTy noTy) ⟨budget, hagree⟩
    cases agree with
    | false =>
      obtain ⟨rfl, rfl⟩ := pure_eq_some.1 hfound
      exact ⟨hmid, fun hnil => absurd hnil (List.cons_ne_nil _ _)⟩
    | true =>
      obtain ⟨-, rfl⟩ := pure_eq_some.1 hfound
      refine ⟨hmid, fun _ f f' hf hf' => ?_⟩
      obtain ⟨accepted, last, haccepted, hback⟩ := bind_eq_some.1 hagree
      cases accepted with
      | false => exact nomatch (pure_eq_some.1 hback).1
      | true => exact (form_of_accepts (hsuitsyes.form f hf) (hsuitsno.form f' hf') haccepted).symm

theorem flat_rightOperandType {op : BinaryOperator} {left : Ty} (h : left.Flat) :
    (rightOperandType op left).Flat := by
  cases op
  case add | subtract | less | greater => exact h
  all_goals exact .number _

/-- The operators for which operand types are compared one after the other. -/
theorem form_of_numbers {op : BinaryOperator} {lt rt : Ty} {l r : Form}
    {constant : Option Float} (hop : op ≠ .equal ∧ op ≠ .notEqual ∧ op ≠ .and ∧ op ≠ .or)
    (hl : lt.form? = some l) (hr : rt.form? = some r)
    (hleft : Ty.anyNumber.accepts budget lt ctx memo = some (true, mid))
    (hright : (rightOperandType op lt).accepts budget rt ctx mid = some (true, after)) :
    ∃ f, op.form? l r constant = some f := by
  obtain ⟨u, rfl⟩ := number_of_accepts hl hleft
  cases op with
  | equal | notEqual | and | or => simp at hop
  | add | subtract | less | greater =>
    obtain rfl := form_of_accepts hl hr hright
    exact ⟨_, if_pos rfl⟩
  | multiply | divide =>
    obtain ⟨v, rfl⟩ := number_of_accepts hr hright
    exact ⟨_, rfl⟩
  | power =>
    have hplain : Ty.plainNumber.form? = some (.number .empty) := rfl
    obtain rfl := form_of_accepts hplain hr hright
    refine ⟨.number ((UnitRule.power.apply u none constant).getD .empty), ?_⟩
    simp [BinaryOperator.form?, BinaryOperator.numberForm?]

theorem operationConflicts_eq_some {op : BinaryOperator} {left right : Expr} {lt rt : Ty}
    (hlflat : lt.Flat) (hrflat : rt.Flat) {found : List Conflict}
    (h : operationConflicts budget op left right lt rt ctx memo = some (found, after)) :
    after = memo ∧ (found = [] → ∀ l r constant, lt.form? = some l → rt.form? = some r →
      ∃ f, op.form? l r constant = some f) := by
  have hboth (h : (do
        let own ← operandConflict budget op.symbol .boolean lt left
        let others ← operandConflict budget op.symbol .boolean rt right
        pure (own ++ others) : Query (List Conflict)) ctx memo = some (found, after)) :
      after = memo ∧ (found = [] → ∀ l r, lt.form? = some l → rt.form? = some r →
        l = .boolean ∧ r = .boolean) := by
    obtain ⟨own, mid, hown, h⟩ := bind_eq_some.1 h
    obtain ⟨others, last, hothers, h⟩ := bind_eq_some.1 h
    obtain ⟨rfl, rfl⟩ := pure_eq_some.1 h
    obtain ⟨rfl, hleft⟩ := unlessAccepts_eq_some .boolean hlflat hown
    obtain ⟨rfl, hright⟩ := unlessAccepts_eq_some .boolean hrflat hothers
    refine ⟨rfl, fun hnil l r hl hr => ?_⟩
    obtain ⟨hown, hothers⟩ := List.append_eq_nil_iff.1 hnil
    exact ⟨form_of_accepts rfl hl (hleft hown), form_of_accepts rfl hr (hright hothers)⟩
  cases op with
  | equal | notEqual =>
    obtain ⟨-, rfl⟩ := pure_eq_some.1 h
    exact ⟨rfl, fun _ l r constant _ _ => ⟨.boolean, rfl⟩⟩
  | and | or =>
    obtain ⟨hafter, hforms⟩ := hboth h
    refine ⟨hafter, fun hnil l r constant hl hr => ?_⟩
    obtain ⟨rfl, rfl⟩ := hforms hnil l r hl hr
    exact ⟨.boolean, rfl⟩
  | _ =>
    obtain ⟨own, mid, hown, h⟩ := bind_eq_some.1 h
    obtain ⟨rfl, hleft⟩ := unlessAccepts_eq_some (.number _) hlflat hown
    cases own with
    | cons first rest =>
      obtain ⟨rfl, rfl⟩ := pure_eq_some.1 h
      exact ⟨rfl, fun hnil => absurd hnil (List.cons_ne_nil _ _)⟩
    | nil =>
      obtain ⟨rfl, hright⟩ := unlessAccepts_eq_some (flat_rightOperandType hlflat) hrflat h
      exact ⟨rfl, fun hnil l r constant hl hr =>
        form_of_numbers (by simp) hl hr (hleft rfl) (hright hnil)⟩

theorem binaryConflicts_eq_some (hids : Identified es) {op : BinaryOperator} {left right : Expr}
    (hleft : left.Plain) (hright : right.Plain) (hesleft : left.nested ⊆ es)
    (hesright : right.nested ⊆ es) (hm : memo.Fair es) {found : List Conflict}
    (h : binaryConflicts budget op left right ctx memo = some (found, after)) :
    after.Fair es ∧ (found = [] → ∀ l r constant, left.form? = some l → right.form? = some r →
      ∃ f, op.form? l r constant = some f) := by
  obtain ⟨lt, first, hlt, h⟩ := bind_eq_some.1 h
  obtain ⟨rt, mid, hrt, hfound⟩ := bind_eq_some.1 h
  obtain ⟨hsuitsl, hfirst⟩ := suits_of_typeOf hids hleft hesleft hm hlt
  obtain ⟨hsuitsr, hmid⟩ := suits_of_typeOf hids hright hesright hfirst hrt
  by_cases hunknown : (lt.isUnknown || rt.isUnknown) = true
  · rw [if_pos hunknown] at hfound
    obtain ⟨-, rfl⟩ := pure_eq_some.1 hfound
    refine ⟨hmid, fun _ l r constant hl hr => ?_⟩
    rw [Ty.isUnknown_of_form (hsuitsl.form l hl), Ty.isUnknown_of_form (hsuitsr.form r hr)]
      at hunknown
    exact nomatch hunknown
  · rw [if_neg hunknown] at hfound
    obtain ⟨rfl, hform⟩ := operationConflicts_eq_some hsuitsl.flat hsuitsr.flat hfound
    exact ⟨hmid, fun hnil l r constant hl hr =>
      hform hnil l r constant (hsuitsl.form l hl) (hsuitsr.form r hr)⟩

theorem unaryConflicts_eq_some (hids : Identified es) {op : UnaryOperator} {operand : Expr}
    (hoperand : operand.Plain) (hes : operand.nested ⊆ es) (hm : memo.Fair es)
    {found : List Conflict} (h : unaryConflicts budget op operand ctx memo = some (found, after)) :
    after.Fair es ∧ (found = [] → ∀ f, operand.form? = some f → ∃ g, op.form? f = some g) := by
  obtain ⟨ty, mid, hty, hfound⟩ := bind_eq_some.1 h
  obtain ⟨hsuits, hmid⟩ := suits_of_typeOf hids hoperand hes hm hty
  by_cases hunknown : ty.isUnknown = true
  · rw [if_pos hunknown] at hfound
    obtain ⟨-, rfl⟩ := pure_eq_some.1 hfound
    refine ⟨hmid, fun _ f hf => ?_⟩
    rw [Ty.isUnknown_of_form (hsuits.form f hf)] at hunknown
    exact nomatch hunknown
  · rw [if_neg hunknown] at hfound
    have hexpected : op.operandType.Flat := by
      cases op with
      | negate => exact .number _
      | not => exact .boolean
    obtain ⟨rfl, haccepts⟩ := unlessAccepts_eq_some hexpected hsuits.flat hfound
    refine ⟨hmid, fun hnil f hf => ?_⟩
    cases op with
    | negate =>
      obtain ⟨unit, rfl⟩ := number_of_accepts (hsuits.form f hf) (haccepts hnil)
      exact ⟨.number unit, rfl⟩
    | not =>
      obtain rfl := form_of_accepts rfl (hsuits.form f hf) (haccepts hnil)
      exact ⟨.boolean, rfl⟩

/-! ### Whole expressions -/

theorem andThen_eq_nil {first second : Query (List Conflict)}
    (h : first.andThen second ctx memo = some ([], after)) :
    ∃ mid, first ctx memo = some ([], mid) ∧ second ctx mid = some ([], after) := by
  obtain ⟨own, mid, hown, h⟩ := bind_eq_some.1 h
  obtain ⟨others, last, hothers, h⟩ := bind_eq_some.1 h
  obtain ⟨hnil, rfl⟩ := pure_eq_some.1 h
  obtain ⟨rfl, rfl⟩ := List.append_eq_nil_iff.1 hnil
  exact ⟨mid, hown, hothers⟩

theorem forms_of_analyzeExprs {items : List Expr} (hm : memo.Fair es)
    (hitems : ∀ item ∈ items, ∀ {memo after : Memo}, memo.Fair es →
      item.analyze budget ctx memo = some ([], after) → (∃ f, item.form? = some f) ∧ after.Fair es)
    (h : analyzeExprs budget items ctx memo = some ([], after)) :
    haveForms items = true ∧ after.Fair es := by
  induction items generalizing memo with
  | nil =>
    obtain ⟨-, rfl⟩ := pure_eq_some.1 h
    exact ⟨rfl, hm⟩
  | cons item rest ih =>
    obtain ⟨mid, hfirst, hrest⟩ := andThen_eq_nil h
    obtain ⟨⟨f, hf⟩, hmid⟩ := hitems item (List.mem_cons_self ..) hm hfirst
    obtain ⟨hforms, hafter⟩ :=
      ih hmid (fun other ho => hitems other (List.mem_cons_of_mem _ ho)) hrest
    exact ⟨by simp [haveForms, hf, hforms], hafter⟩

/-- A plain expression without conflicts has a form. -/
theorem form_of_analyze (hids : Identified es) {e : Expr} (he : e.Plain) (hes : e.nested ⊆ es)
    (hm : memo.Fair es) (h : e.analyze budget ctx memo = some ([], after)) :
    (∃ f, e.form? = some f) ∧ after.Fair es := by
  induction he generalizing memo after with
  | boolean =>
    obtain ⟨mid, hown, hrest⟩ := andThen_eq_nil h
    obtain ⟨-, rfl⟩ := pure_eq_some.1 hown
    obtain ⟨-, rfl⟩ := pure_eq_some.1 hrest
    exact ⟨⟨_, rfl⟩, hm⟩
  | number =>
    obtain ⟨mid, hown, hrest⟩ := andThen_eq_nil h
    obtain ⟨-, rfl⟩ := pure_eq_some.1 hown
    obtain ⟨-, rfl⟩ := pure_eq_some.1 hrest
    exact ⟨⟨_, rfl⟩, hm⟩
  | text =>
    obtain ⟨mid, hown, hrest⟩ := andThen_eq_nil h
    obtain ⟨-, rfl⟩ := pure_eq_some.1 hown
    obtain ⟨-, rfl⟩ := pure_eq_some.1 hrest
    exact ⟨⟨_, rfl⟩, hm⟩
  | @list id opening closing items hitems ih =>
    obtain ⟨mid, hown, hrest⟩ := andThen_eq_nil h
    obtain ⟨-, rfl⟩ := pure_eq_some.1 hown
    have hsub {item : Expr} (hitem : item ∈ items) : item.nested ⊆ es :=
      List.Subset.trans (Expr.nested_item hitem) hes
    obtain ⟨hforms, hafter⟩ := forms_of_analyzeExprs hm
      (fun item hitem _ _ hm h => ih item hitem (hsub hitem) hm h) hrest
    exact ⟨⟨.list, if_pos hforms⟩, hafter⟩
  | @conditional id question condition yes no hcondition hyes hno ihcondition ihyes ihno =>
    have hsubc : condition.nested ⊆ es := List.Subset.trans Expr.nested_condition hes
    have hsuby : yes.nested ⊆ es := List.Subset.trans Expr.nested_yes hes
    have hsubn : no.nested ⊆ es := List.Subset.trans Expr.nested_no hes
    obtain ⟨mid, hown, hrest⟩ := andThen_eq_nil h
    obtain ⟨first, hfirst, hsecond⟩ := andThen_eq_nil hown
    obtain ⟨hfair, hboolean⟩ := conditionConflict_eq_some hids hcondition hsubc hm hfirst
    obtain ⟨hmid, hsame⟩ := branchConflict_eq_some hids hyes hno hsuby hsubn hfair hsecond
    obtain ⟨m₁, hc, hrest⟩ := andThen_eq_nil hrest
    obtain ⟨m₂, hy, hn⟩ := andThen_eq_nil hrest
    obtain ⟨⟨f, hf⟩, hm₁⟩ := ihcondition hsubc hmid hc
    obtain ⟨⟨g, hg⟩, hm₂⟩ := ihyes hsuby hm₁ hy
    obtain ⟨⟨g', hg'⟩, hafter⟩ := ihno hsubn hm₂ hn
    obtain rfl := hboolean rfl f hf
    obtain rfl := hsame rfl g g' hg hg'
    exact ⟨⟨g, by rw [Expr.form?, if_pos ⟨hf, by rw [hg, hg']⟩, hg]⟩, hafter⟩
  | @unary id mark op operand hoperand ih =>
    have hsub : operand.nested ⊆ es := List.Subset.trans Expr.nested_operand hes
    obtain ⟨mid, hown, hrest⟩ := andThen_eq_nil h
    obtain ⟨hmid, hform⟩ := unaryConflicts_eq_some hids hoperand hsub hm hown
    obtain ⟨⟨f, hf⟩, hafter⟩ := ih hsub hmid hrest
    obtain ⟨g, hg⟩ := hform rfl f hf
    exact ⟨⟨g, by simp [Expr.form?, hf, hg]⟩, hafter⟩
  | @binary id mark op left right hleft hright hpower ihleft ihright =>
    have hsubl : left.nested ⊆ es := List.Subset.trans Expr.nested_left hes
    have hsubr : right.nested ⊆ es := List.Subset.trans Expr.nested_right hes
    obtain ⟨mid, hown, hrest⟩ := andThen_eq_nil h
    obtain ⟨hmid, hform⟩ := binaryConflicts_eq_some hids hleft hright hsubl hsubr hm hown
    obtain ⟨m₁, hl, hr⟩ := andThen_eq_nil hrest
    obtain ⟨⟨l, hlform⟩, hm₁⟩ := ihleft hsubl hmid hl
    obtain ⟨⟨r, hrform⟩, hafter⟩ := ihright hsubr hm₁ hr
    obtain ⟨f, hf⟩ := hform rfl l r (constantOf? right) hlform hrform
    exact ⟨⟨f, by simp [Expr.form?, hlform, hrform, hf]⟩, hafter⟩

end Analysis

/-! ## Evaluation -/

/-- The form of a value. -/
def Value.form? : Value → Option Form
  | .boolean _ => some .boolean
  | .text _ => some .text
  | .list _ => some .list
  | .number n => some (.number n.unit)
  | _ => none

/-- A number is raised in the expression to one that is not a whole number of 32 bits. -/
def Expr.HasOddPower (e : Expr) : Prop :=
  ∃ id left mark literal token amount unit,
    .binary id left mark .power (.number literal token amount unit) ∈ e.nested ∧
      Decimal.wholeInt32? amount = none

theorem Expr.HasOddPower.mono {e e' : Expr} (h : e.HasOddPower) (hsub : e.nested ⊆ e'.nested) :
    e'.HasOddPower := by
  obtain ⟨id, left, mark, literal, token, amount, unit, hmem, hodd⟩ := h
  exact ⟨id, left, mark, literal, token, amount, unit, hsub hmem, hodd⟩

/-- The failures that types do not rule out: an exponent of a unit that overflows, and, if there is
an odd power, that its exponent is odd. -/
inductive ExceptionKind.IsUnitFailure (odd : Prop) : ExceptionKind → Prop
  | overflow (unit : MeasureUnit) : IsUnitFailure odd (.unitOverflow unit.written)
  | exponent (h : odd) : IsUnitFailure odd (.typeMismatch "unitless integer exponent" "number")

/-- The result of an operator has the form, or is a failure that types do not rule out. -/
def HasForm (odd : Prop) (result : Except ExceptionKind Value) (f : Form) : Prop :=
  match result with
  | .ok value => value.form? = some f
  | .error kind => kind.IsUnitFailure odd

section HasForm

variable {odd : Prop}

theorem Value.form?_eq_number {value : Value} {unit : MeasureUnit}
    (h : value.form? = some (.number unit)) : ∃ amount, value = .measure amount unit := by
  cases value with
  | number n => exact ⟨n.amount, by rw [← Form.number.inj (Option.some.inj h)]; rfl⟩
  | boolean | text | list => exact nomatch Option.some.inj h
  | _ => exact nomatch h

theorem Value.form?_eq_boolean {value : Value} (h : value.form? = some .boolean) :
    ∃ b, value = .boolean b := by
  cases value with
  | boolean b => exact ⟨b, rfl⟩
  | number | text | list => exact nomatch Option.some.inj h
  | _ => exact nomatch h

theorem hasForm_requireUnit {operand : MeasureUnit} (unit : Option MeasureUnit) (amount : Float) :
    HasForm odd (do
        let unit ← requireUnit operand unit
        pure (.measure amount unit))
      (.number (unit.getD .empty)) := by
  cases unit with
  | none => exact .overflow operand
  | some unit => rfl

/-- A power has the unit that its type was given, as long as its exponent is the constant. -/
theorem hasForm_power (left right : NumberValue) (hunit : right.unit = .empty)
    (hodd : Decimal.wholeInt32? right.amount = none → odd) :
    HasForm odd (.number <$> left.power right)
      (.number ((UnitRule.power.apply left.unit none (some right.amount)).getD .empty)) := by
  have hunitless : right.unit.isUnitless = true := by rw [hunit]; rfl
  unfold NumberValue.power wholeExponent
  rw [hunitless]
  cases hwhole : Decimal.wholeInt32? right.amount with
  | none => exact .exponent (hodd hwhole)
  | some whole =>
    have happly :
        UnitRule.power.apply left.unit none (some right.amount) = left.unit.power whole := by
      simp [UnitRule.apply, hwhole]
    rw [happly]
    show HasForm odd (Value.number <$> do
        let unit ← requireUnit left.unit (left.unit.power whole)
        pure ⟨amountPower left.amount whole, unit⟩) _
    cases left.unit.power whole with
    | none => exact .overflow left.unit
    | some unit => exact rfl

theorem hasForm_applyToNumbers {op : BinaryOperator} {left right : NumberValue} {f : Form}
    {constant : Option Float} (hop : op.numberForm? left.unit right.unit constant = some f)
    (hconstant : op = .power → constant = some right.amount)
    (hodd : op = .power → Decimal.wholeInt32? right.amount = none → odd) :
    HasForm odd (applyToNumbers op left right) f := by
  cases op with
  | equal | notEqual | and | or => exact nomatch hop
  | add | subtract | less | greater =>
    obtain ⟨hunit, hf⟩ := Option.ite_none_right_eq_some.1 hop
    obtain rfl := Option.some.inj hf
    simp only [applyToNumbers, requireSameUnit, if_pos hunit]
    exact rfl
  | multiply =>
    obtain rfl := Option.some.inj hop
    exact hasForm_requireUnit (left.unit.product right.unit) _
  | divide =>
    obtain rfl := Option.some.inj hop
    exact hasForm_requireUnit (left.unit.quotient right.unit) _
  | power =>
    obtain ⟨hunit, hf⟩ := Option.ite_none_right_eq_some.1 hop
    obtain rfl := Option.some.inj hf
    rw [hconstant rfl]
    exact hasForm_power left right hunit (hodd rfl)

theorem hasForm_apply {op : BinaryOperator} {left right : Value} {l r f : Form}
    {constant : Option Float} (hl : left.form? = some l) (hr : right.form? = some r)
    (hop : op.form? l r constant = some f)
    (hconstant : op = .power → ∀ n, right = .number n → constant = some n.amount)
    (hodd : op = .power → ∀ n, right = .number n → Decimal.wholeInt32? n.amount = none → odd) :
    HasForm odd (op.apply left right) f := by
  rcases BinaryOperator.form?_cases hop with ⟨heq, rfl⟩ | ⟨hlogic, rfl, rfl, rfl⟩ |
    ⟨u, v, rfl, rfl, hnumber⟩
  · rcases heq with rfl | rfl <;> exact rfl
  · obtain ⟨a, rfl⟩ := Value.form?_eq_boolean hl
    obtain ⟨b, rfl⟩ := Value.form?_eq_boolean hr
    rcases hlogic with rfl | rfl <;> cases a <;> exact rfl
  · obtain ⟨a, rfl⟩ := Value.form?_eq_number hl
    obtain ⟨b, rfl⟩ := Value.form?_eq_number hr
    have happly : HasForm odd (applyToNumbers op ⟨a, u⟩ ⟨b, v⟩) f :=
      hasForm_applyToNumbers hnumber (fun h => hconstant h _ rfl) fun h => hodd h _ rfl
    cases op with
    | equal | notEqual | and | or => exact nomatch hnumber
    | _ => exact happly

theorem hasForm_unary {op : UnaryOperator} {operand : Value} {f g : Form}
    (h : operand.form? = some f) (hop : op.form? f = some g) :
    HasForm odd (op.apply operand) g := by
  cases op with
  | negate =>
    cases f with
    | number unit =>
      obtain ⟨amount, rfl⟩ := Value.form?_eq_number h
      obtain rfl := Option.some.inj hop
      exact rfl
    | _ => exact nomatch hop
  | not =>
    cases f with
    | boolean =>
      obtain ⟨b, rfl⟩ := Value.form?_eq_boolean h
      obtain rfl := Option.some.inj hop
      exact rfl
    | _ => exact nomatch hop

end HasForm

/-! ## Layouts -/

namespace Reference

/-- An evaluation changes nothing and has a value with the property, or fails in a way that types do
not rule out. -/
def Yields {α : Type} (odd : Prop) (m : Evaluation α) (P : α → Prop) : Prop :=
  ∀ store, (∃ a, m store = .ok (a, store) ∧ P a) ∨
    ∃ x, m store = .error (.raised x) ∧ x.kind.IsUnitFailure odd

section Yields

variable {α β : Type} {odd : Prop} {m : Evaluation α} {P : α → Prop} {Q : β → Prop}

theorem yields_pure {a : α} (h : P a) : Yields odd (pure a) P :=
  fun _ => .inl ⟨a, rfl, h⟩

theorem Yields.mono {P' : α → Prop} (hm : Yields odd m P) (h : ∀ a, P a → P' a) :
    Yields odd m P' := by
  intro store
  rcases hm store with ⟨a, ha, hP⟩ | hfails
  · exact .inl ⟨a, ha, h a hP⟩
  · exact .inr hfails

theorem Yields.bind {f : α → Evaluation β} (hm : Yields odd m P)
    (hf : ∀ a, P a → Yields odd (f a) Q) : Yields odd (m >>= f) Q := by
  intro store
  rcases hm store with ⟨a, ha, hP⟩ | ⟨x, hx, hkind⟩
  · rw [bind_ok ha]
    exact hf a hP store
  · exact .inr ⟨x, bind_error hx, hkind⟩

theorem yields_ofResult {env : Env} {node : NodeId} {result : Except ExceptionKind Value} {f : Form}
    (h : HasForm odd result f) :
    Yields odd (env.ofResult node result) fun value => value.form? = some f := by
  cases result with
  | ok value => exact yields_pure h
  | error kind => exact fun store => .inr ⟨_, rfl, h⟩

/-- A value with a form is no exception. -/
theorem yields_orRaise {value : Value} {f : Form} (h : value.form? = some f) :
    Yields odd (orRaise value) fun value => value.form? = some f := by
  cases value with
  | exception x => exact nomatch h
  | _ => exact yields_pure h

end Yields

/-- With enough budget the layout of the expression is found, and nothing is asked for it. -/
def LaysOut (e : Expr) (l : Layout) : Prop :=
  ∃ enough, ∀ budget, enough ≤ budget → ∀ ctx memo, e.layout budget ctx memo = some (l, memo)

/-- The layout evaluates to a value of the form, which is that of the number if the expression is a
number literal. -/
def Comes (odd : Prop) (e : Expr) (l : Layout) (f : Form) : Prop :=
  ∀ enter env, Yields odd (evaluateWith enter env l) fun value =>
    value.form? = some f ∧ ∀ amount n, constantOf? e = some amount → value = .number n →
      amount = n.amount

theorem comes_of_yields {odd : Prop} {e : Expr} {l : Layout} {f : Form}
    (hconstant : constantOf? e = none)
    (h : ∀ enter env, Yields odd (evaluateWith enter env l) fun value => value.form? = some f) :
    Comes odd e l f := by
  intro enter env store
  rcases h enter env store with ⟨value, hvalue, hf⟩ | hfails
  · refine .inl ⟨value, hvalue, hf, fun amount n hamount => ?_⟩
    rw [hconstant] at hamount
    exact nomatch hamount
  · exact .inr hfails

/-- It is enough to find the layout from those of the parts. -/
theorem laysOut_of_parts {e : Expr} {l : Layout} (enough : Nat)
    (h : ∀ budget, enough ≤ budget → ∀ ctx memo,
      e.layoutWith (Expr.typeOf budget) (Expr.layout budget) ctx memo = some (l, memo)) :
    LaysOut e l := by
  refine ⟨enough + 1, fun budget hle ctx memo => ?_⟩
  obtain ⟨less, rfl⟩ : ∃ less, budget = less + 1 := ⟨budget - 1, by omega⟩
  exact h less (by omega) ctx memo

/-- The parts of a list. -/
theorem exists_layouts {odd : Prop} {items : List Expr}
    (h : ∀ item ∈ items, ∃ l f, LaysOut item l ∧ Comes odd item l f) :
    ∃ parts enough, (∀ budget, enough ≤ budget → ∀ ctx memo,
        layoutAll (Expr.layout budget) items ctx memo = some (parts, memo)) ∧
      ∀ enter env, Yields odd (evaluateAllWith enter env parts) fun _ => True := by
  induction items with
  | nil => exact ⟨[], 0, fun _ _ _ _ => rfl, fun _ _ => yields_pure trivial⟩
  | cons item rest ih =>
    obtain ⟨l, f, ⟨enough, hl⟩, hcomes⟩ := h item (List.mem_cons_self ..)
    obtain ⟨parts, enough', hparts, hyields⟩ :=
      ih fun other ho => h other (List.mem_cons_of_mem _ ho)
    refine ⟨l :: parts, max enough enough', fun budget hle ctx memo => ?_, fun enter env => ?_⟩
    · have hfirst := hl budget (by omega) ctx memo
      have hrest := hparts budget (by omega) ctx memo
      exact bind_eq_some.2 ⟨l, memo, hfirst, bind_eq_some.2 ⟨parts, memo, hrest, rfl⟩⟩
    · exact (hcomes enter env).bind fun _ _ => (hyields enter env).bind fun _ _ =>
        yields_pure trivial

/-- A plain expression that has a form evaluates to a value of the form. -/
theorem exists_layout {odd : Prop} {e : Expr} (he : e.Plain) {f : Form} (hf : e.form? = some f)
    (hodd : e.HasOddPower → odd) : ∃ l, LaysOut e l ∧ Comes odd e l f := by
  induction he generalizing f with
  | boolean id token value =>
    obtain rfl := Option.some.inj hf
    exact ⟨.leaf (.boolean id token value), laysOut_of_parts 0 fun _ _ _ _ => rfl,
      comes_of_yields rfl fun _ _ => yields_pure rfl⟩
  | number id token amount unit =>
    obtain rfl := Option.some.inj hf
    refine ⟨.leaf (.number id token amount unit), laysOut_of_parts 0 fun _ _ _ _ => rfl,
      fun _ _ => yields_pure ⟨rfl, fun other n hother hn => ?_⟩⟩
    rw [← Option.some.inj hother, ← Value.number.inj hn]
  | text id token language =>
    obtain rfl := Option.some.inj hf
    exact ⟨.leaf (.text id token language), laysOut_of_parts 0 fun _ _ _ _ => rfl,
      comes_of_yields rfl fun _ _ => yields_pure rfl⟩
  | @list id opening closing items hitems ih =>
    obtain ⟨hforms, hf⟩ := Option.ite_none_right_eq_some.1 hf
    obtain rfl := Option.some.inj hf
    have hparts (item : Expr) (hitem : item ∈ items) :
        ∃ l f, LaysOut item l ∧ Comes odd item l f := by
      obtain ⟨f, hf⟩ := haveForms_iff.1 hforms item hitem
      obtain ⟨l, hl⟩ := ih item hitem hf fun h => hodd (h.mono (Expr.nested_item hitem))
      exact ⟨l, f, hl⟩
    obtain ⟨parts, enough, hlayouts, hyields⟩ := exists_layouts hparts
    refine ⟨.node (.list id opening items closing) parts,
      laysOut_of_parts _ fun budget hle ctx memo =>
        bind_eq_some.2 ⟨parts, memo, hlayouts budget hle ctx memo, rfl⟩, ?_⟩
    exact comes_of_yields rfl fun enter env => (hyields enter env).bind fun _ _ => yields_pure rfl
  | @conditional id question condition yes no hcondition hyes hno ihcondition ihyes ihno =>
    obtain ⟨⟨hc, hsame⟩, hf⟩ := Option.ite_none_right_eq_some.1 hf
    obtain ⟨lc, ⟨nc, hlc⟩, hcomesc⟩ := ihcondition hc fun h => hodd (h.mono Expr.nested_condition)
    obtain ⟨ly, ⟨ny, hly⟩, hcomesy⟩ := ihyes hf fun h => hodd (h.mono Expr.nested_yes)
    obtain ⟨ln, ⟨nn, hln⟩, hcomesn⟩ := ihno (hsame ▸ hf) fun h => hodd (h.mono Expr.nested_no)
    refine ⟨.branch id lc ly ln, laysOut_of_parts (max nc (max ny nn))
      fun budget hle ctx memo => ?_, ?_⟩
    · have hyes := hly budget (by omega) ctx memo
      have hno := hln budget (by omega) ctx memo
      have hcondition := hlc budget (by omega) ctx memo
      exact bind_eq_some.2 ⟨ly, memo, hyes, bind_eq_some.2 ⟨ln, memo, hno,
        bind_eq_some.2 ⟨lc, memo, hcondition, rfl⟩⟩⟩
    · refine comes_of_yields rfl fun enter env => (hcomesc enter env).bind fun value hvalue => ?_
      obtain ⟨b, rfl⟩ := Value.form?_eq_boolean hvalue.1
      cases b with
      | true => exact (hcomesy enter env).mono fun _ h => h.1
      | false => exact (hcomesn enter env).mono fun _ h => h.1
  | @unary id mark op operand hoperand ih =>
    simp only [Expr.form?, Option.bind_eq_bind, Option.bind_eq_some_iff] at hf
    obtain ⟨g, hg, hop⟩ := hf
    obtain ⟨l, ⟨enough, hl⟩, hcomes⟩ := ih hg fun h => hodd (h.mono Expr.nested_operand)
    refine ⟨.node (.unary id mark op operand) [l],
      laysOut_of_parts _ fun budget hle ctx memo =>
        bind_eq_some.2 ⟨l, memo, hl budget hle ctx memo, rfl⟩,
      comes_of_yields rfl fun enter env => ?_⟩
    refine ((hcomes enter env).bind (Q := fun values => ∃ value, values = [value] ∧
      value.form? = some g) fun value hvalue => yields_pure ⟨value, rfl, hvalue.1⟩).bind ?_
    rintro _ ⟨value, rfl, hvalue⟩
    exact (yields_ofResult (hasForm_unary hvalue hop)).bind
      fun value hvalue => yields_orRaise hvalue
  | @binary id mark op left right hleft hright hpower ihleft ihright =>
    simp only [Expr.form?, Option.bind_eq_bind, Option.bind_eq_some_iff] at hf
    obtain ⟨l, hl, r, hr, hop⟩ := hf
    obtain ⟨ll, ⟨nl, hll⟩, hcomesl⟩ := ihleft hl fun h => hodd (h.mono Expr.nested_left)
    obtain ⟨lr, ⟨nr, hlr⟩, hcomesr⟩ := ihright hr fun h => hodd (h.mono Expr.nested_right)
    refine ⟨.node (.binary id left mark op right) [ll, lr], laysOut_of_parts (max nl nr)
      fun budget hle ctx memo => ?_, comes_of_yields rfl fun enter env => ?_⟩
    · have hleft := hll budget (by omega) ctx memo
      have hright := hlr budget (by omega) ctx memo
      have hboth : layoutAll (Expr.layout budget) [left, right] ctx memo = some ([ll, lr], memo) :=
        bind_eq_some.2 ⟨ll, memo, hleft, bind_eq_some.2 ⟨[lr], memo,
          bind_eq_some.2 ⟨lr, memo, hright, rfl⟩, rfl⟩⟩
      exact bind_eq_some.2 ⟨[ll, lr], memo, hboth, rfl⟩
    · refine ((hcomesl enter env).bind (Q := fun values => ∃ a b, values = [a, b] ∧
        a.form? = some l ∧ b.form? = some r ∧ ∀ amount n, constantOf? right = some amount →
          b = .number n → amount = n.amount) fun a ha => ?_).bind ?_
      · refine Yields.bind (P := fun values => ∃ b, values = [b] ∧ b.form? = some r ∧
          ∀ amount n, constantOf? right = some amount → b = .number n → amount = n.amount)
          ((hcomesr enter env).bind fun b hb => yields_pure ⟨b, rfl, hb⟩) ?_
        rintro _ ⟨b, rfl, hb⟩
        exact yields_pure ⟨a, b, rfl, ha.1, hb⟩
      · rintro _ ⟨a, b, rfl, ha, hb, hamount⟩
        have hconstant (hpow : op = .power) (n : NumberValue) (hn : b = .number n) :
            constantOf? right = some n.amount := by
          obtain ⟨id, token, amount, unit, rfl⟩ := hpower hpow
          rw [← hamount amount n rfl hn]
          rfl
        refine (yields_ofResult (hasForm_apply ha hb hop hconstant fun hpow n hn hwhole => ?_)).bind
          fun value hvalue => yields_orRaise hvalue
        obtain ⟨literal, token, amount, unit, rfl⟩ := hpower hpow
        obtain rfl := Option.some.inj (hconstant hpow n hn)
        subst hpow
        exact hodd ⟨id, left, mark, literal, token, _, unit, Expr.mem_nested_self _, hwhole⟩

/-! ## Passes -/

/-- A layout that can be found is found, unless there is another one already. -/
theorem layoutOf_of_layout {env : Env} {e : Expr} {l : Layout} {store : Store} {memo : Memo}
    (hkept : ∀ found, store.layouts.find? e.id = some found → found = l)
    (hl : e.layout env.budget env.context store.memo = some (l, memo)) :
    ∃ after, env.layoutOf e store = .ok (l, after) := by
  unfold Env.layoutOf
  rw [bind_ok (get_ok store)]
  cases hfind : store.layouts.find? e.id with
  | some found =>
    obtain rfl := hkept found hfind
    exact ⟨store, rfl⟩
  | none =>
    dsimp only
    rw [hl]
    exact ⟨_, rfl⟩

/-- A pass begins with this layout, unless other code is kept for the root. -/
theorem begins_of_layout {root : Expr} {l : Layout} {budget : Nat} {ev : Evaluator}
    {layouts : Assoc NodeId Layout} (hcovers : Covers ev.context layouts ev.lowered)
    (hkept : ∀ code, ev.lowered.find? root.id = some code → code = l.code)
    (hl : ∀ ctx memo, root.layout budget ctx memo = some (l, memo)) :
    (∃ begun, ev.beginPass budget root = some begun) ∧
      ∃ layouts store, Covers ev.context layouts ev.lowered ∧
        (Env.ofPass ev budget).layoutOf root (Store.ofPass ev layouts) = .ok (l, store) := by
  cases hfind : ev.lowered.find? root.id with
  | some code =>
    obtain rfl := hkept code hfind
    have hcode : Action.codeOf budget root ev.reset = some (.ok l.code, ev.reset) :=
      Action.codeOf_of_find? hfind
    have hreplaced : Covers ev.context (layouts.insert root.id l) ev.lowered :=
      hcovers.replace (formed_of_layout budget _ _ _ _ (hl ev.context ev.memo)) hfind
    have hfound (found : Layout) (h : (layouts.insert root.id l).find? root.id = some found) :
        found = l := by
      rw [Assoc.find?_insert, if_pos (beq_self_eq_true _)] at h
      exact (Option.some.inj h).symm
    obtain ⟨store, hlayout⟩ := @layoutOf_of_layout (Env.ofPass ev budget) root l
      (Store.ofPass ev (layouts.insert root.id l)) _ hfound (hl _ _)
    exact ⟨⟨_, Evaluator.beginPass_of_codeOf hcode⟩, _, store, hreplaced, hlayout⟩
  | none =>
    have hlower : root.lower budget ev.context ev.memo = some (l.code, ev.memo) := by
      rw [lower_eq]
      exact map_eq_some.2 ⟨l, hl _ _, rfl⟩
    have hcode : Action.codeOf budget root ev.reset = some (.ok l.code,
        { ev.reset with lowered := ev.lowered.insert root.id l.code }) :=
      Action.codeOf_of_lower hfind hlower
    have hfound (found : Layout) (h : layouts.find? root.id = some found) : found = l := by
      have hcovered := hcovers.code root.id
      rw [hfind, h] at hcovered
      exact nomatch hcovered
    obtain ⟨store, hlayout⟩ := @layoutOf_of_layout (Env.ofPass ev budget) root l
      (Store.ofPass ev layouts) _ hfound (hl _ _)
    exact ⟨⟨_, Evaluator.beginPass_of_codeOf hcode⟩, layouts, store, hcovers, hlayout⟩

/-- An expression whose layout is found can be evaluated, unless other code is kept for it, and the
pass comes to what the layout evaluates to. -/
theorem pass_of_layout {odd : Prop} {root : Expr} {l : Layout} {budget : Nat} {ev : Evaluator}
    {layouts : Assoc NodeId Layout} (hsteps : ev.options.maxSteps = none)
    (hcovers : Covers ev.context layouts ev.lowered)
    (hkept : ∀ code, ev.lowered.find? root.id = some code → code = l.code)
    (hl : ∀ ctx memo, root.layout budget ctx memo = some (l, memo)) {P : Value → Prop}
    (hyields : ∀ enter env, Yields odd (evaluateWith enter env l) P) :
    ∃ begun fuel outcome last, ev.beginPass budget root = some begun ∧
      begun.run budget fuel = some (outcome, last) ∧
      ((∃ value, outcome = .produced value ∧ P value) ∨
        ∃ x, outcome = .halted x ∧ x.kind.IsUnitFailure odd) := by
  obtain ⟨⟨begun, hbegin⟩, layouts, store, hcovers, hlayout⟩ :=
    begins_of_layout hcovers hkept hl
  have heq : evaluatePass ev budget (ev.options.maxDepth - 1) layouts root =
      (evaluateAt (ev.options.maxDepth - 1) (Env.ofPass ev budget) l store).map Prod.fst := by
    show (((Env.ofPass ev budget).layoutOf root >>= _) (Store.ofPass ev layouts)).map _ = _
    rw [bind_ok hlayout]
  have hpass := decides_pass hsteps hcovers hbegin
  rw [heq, evaluateAt_eq] at hpass
  rcases hyields (enterAt (ev.options.maxDepth - 1)) (Env.ofPass ev budget) store with
    ⟨value, hvalue, hP⟩ | ⟨x, hx, hkind⟩
  · rw [hvalue] at hpass
    obtain ⟨fuel, last, hrun⟩ := (hpass (.produced value)).2 rfl
    exact ⟨begun, fuel, .produced value, last, hbegin, hrun, .inl ⟨value, rfl, hP⟩⟩
  · rw [hx] at hpass
    have hends : (begun.running budget).ends (.halted x) := (hpass (.halted x)).2 rfl
    obtain ⟨fuel, last, hrun⟩ := hends
    exact ⟨begun, fuel, .halted x, last, hbegin, hrun, .inr ⟨x, rfl, hkind⟩⟩

/-- The code of an expression whose layout depends on nothing is always the same. -/
theorem LaysOut.code_eq {e : Expr} {l : Layout} (h : LaysOut e l) {budget : Nat} {ctx : Context}
    {memo after : Memo} {code : Code} (hcode : e.lower budget ctx memo = some (code, after)) :
    code = l.code := by
  obtain ⟨enough, hl⟩ := h
  have hlower : e.lower enough ctx memo = some (l.code, memo) := by
    rw [lower_eq]
    exact map_eq_some.2 ⟨l, hl enough (Nat.le_refl enough) ctx memo, rfl⟩
  exact (Gives.unique (steady_lower e) ⟨enough, hlower⟩ ⟨budget, hcode⟩).1

end Reference

/-! ## Types of values -/

/-- The value is of the kind that the type says, and a number has the unit that the type stands
for. -/
def Value.HasType : Value → Ty → Prop
  | .boolean _, .boolean => True
  | .text _, .text _ => True
  | .list _, .list _ => True
  | .number n, .number unit => n.unit = unit.concrete
  | _, _ => False

theorem Value.hasType_of_form {value : Value} {ty : Ty} {f : Form} (hv : value.form? = some f)
    (ht : ty.form? = some f) : value.HasType ty := by
  rcases Ty.form?_cases ht with ⟨rfl, rfl⟩ | ⟨language, rfl, rfl⟩ | ⟨item, rfl, rfl⟩ |
    ⟨unit, rfl, -, rfl⟩
  all_goals
    cases value <;> simp_all [form?, HasType]

/-- A memo at rest that knows of plain expressions nothing but what a query in a new context answers
knows nothing wrong about them. -/
theorem Memo.fair_of_known {root : Expr} (hplain : root.Plain) (hids : Identified root.nested)
    {ctx : Context} {memo : Memo} (hrest : memo.AtRest)
    (hknown : ∀ e ∈ root.nested, ∀ ty, memo.types.find? e.id = some ty →
      ∃ later, Gives (fun n => e.typeOf n) ctx .empty ty later) : memo.Fair root.nested := by
  refine ⟨hrest, fun e he ty hty => ?_⟩
  obtain ⟨later, hgives⟩ := hknown e he ty hty
  obtain ⟨hplain, hsub⟩ := hplain.of_nested he
  have hanswered : Answered root.nested ctx .empty e :=
    gives_type hids hplain hsub (fun _ _ _ h => nomatch h) fun _ _ _ h => nomatch h
  obtain ⟨ty', after, hgives', hsuits, -⟩ := hanswered
  exact (hgives'.unique (steady_typeOf e) hgives).1 ▸ hsuits

/-- Take a plain expression whose nodes have identities of their own, and analyse it in a context
that remembers no other types under them.  If there is no conflict, the expression has a type, and
an evaluator without a limit on steps, in which nothing else has been asked for its code under the
identity of the expression, either produces a value of that type, or halts since the exponent of a
unit has overflowed, or since a number was to be raised to one that is not a whole number of 32
bits. -/
theorem analyzed_evaluates_soundly {root : Expr} (hplain : root.Plain)
    (hids : Identified root.nested) {ctx : Context} {memo after : Memo} (hrest : memo.AtRest)
    (hknown : ∀ e ∈ root.nested, ∀ ty, memo.types.find? e.id = some ty →
      ∃ later, Gives (fun n => e.typeOf n) ctx .empty ty later) {budget : Nat}
    (hanalyze : root.analyze budget ctx memo = some ([], after)) {U : Expr → Prop}
    {context : Context} {known : Memo} {options : Options} {ev : Evaluator}
    (hhistory : Evaluator.History U (.new context known options) ev)
    (hown : ∀ e, U e → e.id = root.id → e = root) (hsteps : ev.options.maxSteps = none) :
    ∃ ty enough, ∀ budget, enough ≤ budget →
      (∃ later, root.typeOf budget ctx after = some (ty, later)) ∧
      ∃ begun fuel outcome last, ev.beginPass budget root = some begun ∧
        begun.run budget fuel = some (outcome, last) ∧
        ((∃ value, outcome = .produced value ∧ value.HasType ty) ∨
          ∃ x, outcome = .halted x ∧ ((∃ unit : MeasureUnit, x.kind = .unitOverflow unit.written) ∨
            x.kind = .typeMismatch "unitless integer exponent" "number" ∧ root.HasOddPower)) := by
  have hsub : root.nested ⊆ root.nested := List.Subset.refl _
  have hfair : memo.Fair root.nested :=
    Memo.fair_of_known hplain hids hrest hknown
  obtain ⟨⟨f, hf⟩, hafter⟩ := form_of_analyze hids hplain hsub hfair hanalyze
  have hanswered : Answered root.nested ctx _ root :=
    gives_type hids hplain hsub hafter.tells (hafter.clear root)
  obtain ⟨ty, later, hgives, hsuits, -⟩ := hanswered
  obtain ⟨enough, htype⟩ := hgives.enough (steady_typeOf root)
  obtain ⟨l, hl, hcomes⟩ := Reference.exists_layout hplain hf id
  obtain ⟨layouts, hcovers⟩ := Reference.exists_covers hhistory.reaches.passes
  have hkept (code : Code) (hcode : ev.lowered.find? root.id = some code) : code = l.code := by
    obtain ⟨_, _, _, hlower⟩ := hhistory.kept.own hown hcode
    exact hl.code_eq hlower
  obtain ⟨enough', hl⟩ := hl
  refine ⟨ty, max enough enough', fun budget hle => ⟨⟨later, htype budget (by omega)⟩, ?_⟩⟩
  obtain ⟨begun, fuel, outcome, last, hbegin, hrun, hend⟩ :=
    Reference.pass_of_layout hsteps hcovers hkept (hl budget (by omega))
      fun enter env => (hcomes enter env).mono fun _ h => h.1
  refine ⟨begun, fuel, outcome, last, hbegin, hrun, ?_⟩
  rcases hend with ⟨value, rfl, hvalue⟩ | ⟨x, rfl, hkind⟩
  · exact .inl ⟨value, rfl, Value.hasType_of_form hvalue (hsuits.form f hf)⟩
  · refine .inr ⟨x, rfl, ?_⟩
    cases hx : x.kind with
    | unitOverflow unit =>
      rw [hx] at hkind
      cases hkind with
      | overflow unit => exact .inl ⟨unit, rfl⟩
    | typeMismatch expected received =>
      rw [hx] at hkind
      cases hkind with
      | exponent hodd => exact .inr ⟨rfl, hodd⟩
    | _ =>
      rw [hx] at hkind
      cases hkind

theorem exists_of_isEmpty {found : Option (List Conflict × Memo)}
    (h : found.any (fun r => r.1.isEmpty) = true) : ∃ after, found = some ([], after) := by
  obtain ⟨⟨conflicts, after⟩, rfl, hempty⟩ := (Option.any_eq_true _ _).1 h
  obtain rfl : conflicts = [] := List.isEmpty_iff.1 hempty
  exact ⟨after, rfl⟩

/-- The unit `m·s`. -/
def moment : MeasureUnit :=
  ⟨[("m", 1), ("s", 1)], by decide⟩

/-- A choice between the product of a length and a time, and a number of their product unit. -/
def momentArm : Expr :=
  choiceOf 1 (booleanOf 2 true)
    (binaryOf 3 (numberOf 4 3 (.named "m")) .multiply (numberOf 5 2 (.named "s")))
    (numberOf 6 6 moment)

/-- The unit of the number that a pass has produced, if it has. -/
def Outcome.unit? : Outcome → Option MeasureUnit
  | .produced (.number n) => some n.unit
  | _ => none

theorem Outcome.eq_of_unit? {outcome : Outcome} {unit : MeasureUnit}
    (h : outcome.unit? = some unit) : ∃ n, outcome = .produced (.number n) ∧ n.unit = unit := by
  unfold unit? at h
  split at h
  · exact ⟨_, rfl, Option.some.inj h⟩
  · cases h

/-- The derived unit of one branch is the written unit of the other.  The type of the choice stands
for this unit, and the choice produces a number of it. -/
theorem analyzed_evaluates_soundly_momentArm :
    let ctx : Context := { lexicon := .empty }
    ∃ after ty n last, momentArm.analyze 20 ctx .empty = some ([], after) ∧
      (∃ later, Gives (fun n => momentArm.typeOf n) ctx after ty later) ∧
      nameless.PassEnds momentArm (.produced (.number n)) last ∧ n.unit = moment ∧
      (Value.number n).HasType ty := by
  intro ctx
  have hplain : momentArm.Plain :=
    .conditional (.boolean ..) (.binary (.number ..) (.number ..) nofun) (.number ..)
  have hids : Identified momentArm.nested := identified_of_nodup (by decide +kernel)
  have hproduced : (nameless.tryPass momentArm).any (fun done => done.1.unit? == some moment) =
      true := by
    decide +kernel
  obtain ⟨after, hanalyze⟩ : ∃ after, momentArm.analyze 20 ctx .empty = some ([], after) :=
    exists_of_isEmpty (by decide +kernel)
  obtain ⟨⟨outcome, last⟩, hpass, hunit⟩ := (Option.any_eq_true _ _).1 hproduced
  obtain ⟨n, rfl, hmoment⟩ := Outcome.eq_of_unit? (eq_of_beq hunit)
  have hends := Evaluator.passEnds_of_tryPass hpass
  have hnew : Evaluator.History (· = momentArm) (.new ctx .empty {}) nameless := .refl
  obtain ⟨ty, enough, hsound⟩ := analyzed_evaluates_soundly hplain hids Memo.atRest_empty
    (fun _ _ _ h => nomatch h) hanalyze hnew (fun _ h _ => h) rfl
  obtain ⟨⟨later, htype⟩, begun, fuel, outcome, last', hbegin, hrun, hend⟩ :=
    hsound enough (Nat.le_refl enough)
  refine ⟨after, ty, n, last, hanalyze, ⟨later, enough, htype⟩, hends, hmoment, ?_⟩
  -- The pass of the theorem ends as the one that has been tried.
  obtain ⟨begun', hbegin', hends'⟩ := hends
  obtain rfl := Evaluator.Begins.unique ⟨enough, hbegin⟩ hbegin'
  obtain ⟨hsame, -⟩ := Evaluator.EndsWith.unique ⟨enough, fuel, hrun⟩ hends'
  rcases hend with ⟨value, rfl, hvalue⟩ | ⟨x, rfl, -⟩
  · obtain rfl := Outcome.produced.inj hsame
    exact hvalue
  · cases hsame

namespace Unsound

/-- The expression `-(1m)`. -/
def length : Expr :=
  unaryOf 1 .negate (numberOf 2 1 (.named "m"))

/-- The expression `-(1s)`, which comes from the other by an edit, so that the negation keeps its
identity. -/
def duration : Expr :=
  length.replace ⟨⟨2⟩, .expr (numberOf 3 1 (.named "s"))⟩

/-- The sum of both. -/
def sum : Expr :=
  binaryOf 4 length .add duration

/-- The expression `1 ^ 2147483648`. -/
def power : Expr :=
  binaryOf 1 (numberOf 2 1 .empty) .power (numberOf 3 2147483648 .empty)

end Unsound

open Unsound

/-- Plain expressions without conflicts can fail in other ways.  Where two nodes share an identity,
the type of one is taken for that of the other: the sum of a length and a time has no conflict, and
its units are incompatible.  And an exponent can be an integer without being one of 32 bits. -/
theorem analyzed_evaluates_unsoundly :
    let ctx : Context := { lexicon := .empty }
    (sum.Plain ∧ (∃ after, sum.analyze 20 ctx .empty = some ([], after)) ∧
      ∃ x last, nameless.PassEnds sum (.halted x) last ∧ x.kind = .incompatibleUnits "m" "s") ∧
    power.Plain ∧ Identified power.nested ∧
      (∃ after, power.analyze 20 ctx .empty = some ([], after)) ∧
      (Decimal.Reading.ofFloat 2147483648).whole? = some 2147483648 ∧
      ∃ x last, nameless.PassEnds power (.halted x) last ∧
        x.kind = .typeMismatch "unitless integer exponent" "number" := by
  intro ctx
  have hplain : sum.Plain := .binary (.unary (.number ..)) (.unary (.number ..)) nofun
  have hplain' : power.Plain :=
    .binary (.number ..) (.number ..) fun _ => ⟨_, _, _, _, rfl⟩
  exact ⟨⟨hplain, exists_of_isEmpty (by decide +kernel),
      Evaluator.passEnds_of_raises (by decide +kernel)⟩,
    hplain', identified_of_nodup (by decide +kernel), exists_of_isEmpty (by decide +kernel),
    by decide +kernel, Evaluator.passEnds_of_raises (by decide +kernel)⟩

end Stepwise

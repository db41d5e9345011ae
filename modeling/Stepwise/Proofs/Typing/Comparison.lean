import Mathlib.Logic.Relation
import Stepwise.Proofs.Typing.States

/-!
# Comparisons

Comparing two types asks for other comparisons, one after the other, and nothing but the answers of
earlier ones and the types of table columns decides which.  `Comparison.Asks` lists what a
comparison asks for; its constructors follow the rules for comparing types.  Since type queries in
between change the memo, a comparison comes with the memo at which it starts.

Where the type queries end, a comparison ends if all comparisons that it asks for do
(`Comparison.ends_of_asks`).  Conversely, whatever a comparison asks for ends with a smaller budget
than the comparison itself (`Comparison.Asks.answered`).  So the comparisons that end are those from
which no endless chain starts.
-/

namespace Stepwise

open Query

/-! ## Lists of queries -/

section Lists

variable {α β : Type} {ctx : Context} {memo mid : Memo}

theorem Query.Ends.bind {q : Nat → Query α} {f : α → Nat → Query β} (hq : Steady q)
    (hf : ∀ a, Steady (f a)) (h : Ends q ctx memo)
    (hrest : ∀ a mid, Gives q ctx memo a mid → Ends (f a) ctx mid) :
    Ends (fun n => q n >>= fun a => f a n) ctx memo := by
  obtain ⟨a, mid, ha⟩ := h
  obtain ⟨b, after, hb⟩ := hrest a mid ha
  exact ((gives_bind hq hf).2 ⟨a, mid, ha, hb⟩).ends

theorem Query.ends_pure (a : α) : Ends (fun _ => (pure a : Query α)) ctx memo :=
  ⟨a, memo, gives_pure.2 ⟨rfl, rfl⟩⟩

/-- Makes one check after the other for as long as they come out as `goOn`. -/
def Query.whileM (goOn : Bool) (p : α → Query Bool) : List α → Query Bool
  | [] => pure goOn
  | a :: rest => do
    let accepted ← p a
    if accepted = goOn then whileM goOn p rest else pure accepted

theorem allM_eq_whileM (p : α → Query Bool) (as : List α) : as.allM p = whileM true p as := by
  induction as with
  | nil => rfl
  | cons a rest ih =>
    rw [List.allM, whileM, ih]
    refine bind_congr fun accepted => ?_
    cases accepted <;> rfl

theorem anyM_eq_whileM (p : α → Query Bool) (as : List α) : as.anyM p = whileM false p as := by
  induction as with
  | nil => rfl
  | cons a rest ih =>
    rw [List.anyM, whileM, ih]
    refine bind_congr fun accepted => ?_
    cases accepted <;> rfl

section While

variable {goOn : Bool} {p : α → Nat → Query Bool} (hp : ∀ a, Steady (p a))

include hp

theorem steady_whileM (as : List α) : Steady fun n => whileM goOn (fun a => p a n) as := by
  induction as with
  | nil => exact steady_pure goOn
  | cons a rest ih =>
    refine (hp a).bind (f := fun accepted n =>
      if accepted = goOn then whileM goOn (fun a => p a n) rest else pure accepted)
      fun accepted => ?_
    split
    · exact ih
    · exact steady_pure accepted

theorem gives_whileM_cons {a : α} {rest : List α} {accepted : Bool} {after : Memo} :
    Gives (fun n => whileM goOn (fun a => p a n) (a :: rest)) ctx memo accepted after ↔
      ∃ first mid, Gives (p a) ctx memo first mid ∧
        Gives (fun n => if first = goOn then whileM goOn (fun a => p a n) rest else pure first)
          ctx mid accepted after := by
  refine gives_bind (hp a) (f := fun first n =>
    if first = goOn then whileM goOn (fun a => p a n) rest else pure first) fun first => ?_
  split
  · exact steady_whileM hp rest
  · exact steady_pure first

/-- All checks end if each ends that is made after those before it came out as they should. -/
theorem ends_whileM {as : List α}
    (h : ∀ before a rest mid, as = before ++ a :: rest →
      Gives (fun n => whileM goOn (fun a => p a n) before) ctx memo goOn mid → Ends (p a) ctx mid) :
    Ends (fun n => whileM goOn (fun a => p a n) as) ctx memo := by
  induction as generalizing memo with
  | nil => exact ends_pure goOn
  | cons a as ih =>
    obtain ⟨first, mid, ha⟩ : Ends (p a) ctx memo := h [] a as memo rfl (gives_pure.2 ⟨rfl, rfl⟩)
    by_cases hfirst : first = goOn
    · obtain ⟨accepted, after, hrest⟩ :
          Ends (fun n => whileM goOn (fun a => p a n) as) ctx mid := by
        refine ih fun before b rest last heq hbefore => ?_
        refine h (a :: before) b rest last (by rw [heq]; rfl) ((gives_whileM_cons hp).2 ?_)
        exact ⟨first, mid, ha, by simpa [hfirst] using hbefore⟩
      exact ((gives_whileM_cons hp).2 ⟨first, mid, ha, by simpa [hfirst] using hrest⟩).ends
    · have hstop : Gives (fun n => if first = goOn then whileM goOn (fun a => p a n) as
          else pure first) ctx mid first mid := by simp [hfirst]
      exact ((gives_whileM_cons hp).2 ⟨first, mid, ha, hstop⟩).ends

/-- A check that was made had an answer.  `q` makes the checks with the budget that there was. -/
theorem whileM_reaches {q : α → Query Bool}
    (hq : ∀ {a ctx memo accepted after}, q a ctx memo = some (accepted, after) →
      Gives (p a) ctx memo accepted after)
    {before rest : List α} {a : α} {r : Bool × Memo}
    (h : whileM goOn q (before ++ a :: rest) ctx memo = some r)
    (hbefore : Gives (fun n => whileM goOn (fun a => p a n) before) ctx memo goOn mid) :
    ∃ r', q a ctx mid = some r' := by
  induction before generalizing memo with
  | nil =>
    obtain ⟨-, rfl⟩ := gives_pure.1 hbefore
    obtain ⟨accepted, after, ha, -⟩ := bind_eq_some.1 h
    exact ⟨_, ha⟩
  | cons b before ih =>
    obtain ⟨first, after, hb, hrest⟩ := bind_eq_some.1 h
    obtain ⟨first', after', hb', hbefore⟩ := (gives_whileM_cons hp).1 hbefore
    obtain ⟨rfl, rfl⟩ := Gives.unique (hp b) (hq hb) hb'
    by_cases hfirst : first' = goOn
    · rw [if_pos hfirst] at hrest
      exact ih hrest (by simpa [hfirst] using hbefore)
    · simp only [if_neg hfirst, gives_pure] at hbefore
      exact absurd hbefore.1 hfirst

end While

end Lists

/-! ## What a comparison asks for -/

/-- A comparison of two types, with the memo at which it starts. -/
structure Comparison where
  expected : Ty
  given : Ty
  memo : Memo

/-- Whether the type is compared as a whole: it does not go with every type, and it is no union. -/
def Ty.isSingle : Ty → Bool
  | .any => false
  | .var _ => false
  | .union _ => false
  | _ => true

/-- The comparisons that a comparison asks for, each at the memo that those before it have left. -/
inductive Comparison.Asks (ctx : Context) : Comparison → Comparison → Prop where
  /-- A member of the given union, when those before it have been accepted. -/
  | member {expected ty : Ty} {before rest : List Ty} {memo mid : Memo}
      (hopen : expected.isOpen = false)
      (haccepted : Gives (fun n => before.allM fun t => expected.accepts n t) ctx memo true mid) :
      Asks ctx ⟨expected, .union (before ++ ty :: rest), memo⟩ ⟨expected, ty, mid⟩
  /-- A member of the expected union, when those before it have not accepted. -/
  | alternative {given ty : Ty} {before rest : List Ty} {memo mid : Memo}
      (hsingle : given.isSingle = true)
      (hrefused : Gives (fun n => before.anyM fun t => t.accepts n given) ctx memo false mid) :
      Asks ctx ⟨.union (before ++ ty :: rest), given, memo⟩ ⟨ty, given, mid⟩
  /-- The types that written names stand for. -/
  | named {expected given : Ty} {memo : Memo}
      (hsingle : expected.isSingle = true ∧ given.isSingle = true)
      (hname : (expected.isName || given.isName) = true)
      (hresolved : (expected.resolveNames ctx).isName = false ∧
        (given.resolveNames ctx).isName = false) :
      Asks ctx ⟨expected, given, memo⟩ ⟨expected.resolveNames ctx, given.resolveNames ctx, memo⟩
  /-- The elements of lists. -/
  | item {expected given : Ty} {memo : Memo}
      (hknown : (expected.isUnknown || given.isUnknown) = false) :
      Asks ctx ⟨.list expected, .list given, memo⟩ ⟨expected, given, memo⟩
  /-- The types of columns of one name, when those before them have been accepted. -/
  | column {before rest given : List Binder} {column other : Binder} {expectedTy givenTy : Ty}
      {memo mid mid' after : Memo} (hlength : (before ++ column :: rest).length = given.length)
      (haccepted : Gives (fun n => before.allM fun column =>
        columnAccepted (Expr.typeOf n) (Ty.accepts n) given column) ctx memo true mid)
      (hother : given.find? column.sharesName = some other)
      (hexpected : Gives (fun n => column.typeOf n) ctx mid expectedTy mid')
      (hgiven : Gives (fun n => other.typeOf n) ctx mid' givenTy after) :
      Asks ctx ⟨.table (before ++ column :: rest), .table given, memo⟩ ⟨expectedTy, givenTy, after⟩
  /-- What functions yield. -/
  | output {vars vars' : List TypeVariable} {inputs inputs' : List Binder} {output output' : Ty}
      {memo : Memo} :
      Asks ctx ⟨.function vars inputs output, .function vars' inputs' output', memo⟩
        ⟨output, output', memo⟩
  /-- The written types of inputs, when what the functions yield and the inputs before them have
  been accepted. -/
  | input {vars vars' : List TypeVariable} {inputs inputs' : List Binder} {output output' : Ty}
      {before rest : List (Binder × Binder)} {x y : Binder} {expectedTy givenTy : Ty}
      {memo mid after : Memo} (hlength : inputs.length = inputs'.length)
      (houtput : Gives (fun n => output.accepts n output') ctx memo true mid)
      (hzip : inputs.zip inputs' = before ++ (x, y) :: rest)
      (haccepted : Gives (fun n => before.allM fun pair =>
        inputsAgree (Ty.accepts n) pair.1 pair.2) ctx mid true after)
      (hexpected : x.ty = some expectedTy) (hgiven : y.ty = some givenTy) :
      Asks ctx ⟨.function vars inputs output, .function vars' inputs' output', memo⟩
        ⟨expectedTy.resolveNames ctx, givenTy.resolveNames ctx, after⟩

namespace Comparison

/-- With enough budget the comparison has an answer. -/
def Ends (ctx : Context) (c : Comparison) : Prop :=
  Query.Ends (fun n => c.expected.accepts n c.given) ctx c.memo

/-! ### The rules, one by one -/

section Step

variable {ask : Ask} {accepts : Ty → Ty → Query Bool} {expected given : Ty}

theorem acceptsStep_open (h : (expected.isOpen || given.isOpen) = true) :
    expected.acceptsStep ask accepts given = pure true := by
  simp only [Ty.acceptsStep, h, if_true]

theorem acceptsStep_member {members : List Ty} (h : expected.isOpen = false) :
    expected.acceptsStep ask accepts (.union members) = members.allM (accepts expected) := by
  simp only [Ty.acceptsStep, h, Bool.false_or]
  rfl

theorem acceptsStep_alternative {members : List Ty} (h : given.isSingle = true) :
    (Ty.union members).acceptsStep ask accepts given = members.anyM (accepts · given) := by
  cases given <;> simp_all [Ty.acceptsStep, Ty.isOpen, Ty.isSingle]

theorem acceptsStep_single (h : expected.isSingle = true ∧ given.isSingle = true) :
    expected.acceptsStep ask accepts given =
      if expected.isName || given.isName then acceptsNamed accepts expected given
      else acceptsForm ask accepts expected given := by
  obtain ⟨he, hg⟩ := h
  cases given <;> cases expected <;> first | rfl | simp [Ty.isSingle] at he hg

/-- Resolving the names in a type only reads the context. -/
theorem bind_resolved (ty : Ty) (f : Ty → Query α) (ctx : Context) (memo : Memo) :
    (resolved ty >>= f) ctx memo = f (ty.resolveNames ctx) ctx memo :=
  rfl

theorem acceptsNamed_eq {ctx : Context} {memo : Memo}
    (h : (expected.resolveNames ctx).isName = false ∧ (given.resolveNames ctx).isName = false) :
    acceptsNamed accepts expected given ctx memo =
      accepts (expected.resolveNames ctx) (given.resolveNames ctx) ctx memo := by
  obtain ⟨he, hg⟩ := h
  unfold acceptsNamed
  rw [bind_resolved, bind_resolved]
  refine congrFun (congrFun ?_ ctx) memo
  split
  · rename_i heq _
    rw [heq] at he
    cases he
  · rw [he, hg]
    rfl

end Step

/-! ### Budgets -/

section Budgets

variable {ctx : Context} {memo after : Memo}

variable {outer budget : Nat}

/-- What is answered with some budgets, one for type queries and one for comparisons, is the
answer. -/
theorem gives_of_acceptsWith {a b : Ty} {accepted : Bool}
    (h : a.acceptsWith (Expr.typeOf outer) budget b ctx memo = some (accepted, after)) :
    Gives (fun n => a.accepts n b) ctx memo accepted after :=
  ⟨max outer budget, (settles_accepts (settles_typeOf (Nat.le_max_left ..))
    (Nat.le_max_right ..) a b).same h⟩

theorem gives_of_columnAccepted {given : List Binder} {column : Binder} {accepted : Bool}
    (h : columnAccepted (Expr.typeOf outer)
      (fun a b => a.acceptsWith (Expr.typeOf outer) budget b) given column ctx memo =
        some (accepted, after)) :
    Gives (fun n => columnAccepted (Expr.typeOf n) (Ty.accepts n) given column) ctx memo accepted
      after :=
  ⟨max outer budget, (settles_columnAccepted (settles_typeOf (Nat.le_max_left ..))
    (fun a b => settles_accepts (settles_typeOf (Nat.le_max_left ..)) (Nat.le_max_right ..) a b)
    given column).same h⟩

theorem gives_of_inputsAgree {expected given : Binder} {accepted : Bool}
    (h : inputsAgree (fun a b => a.acceptsWith (Expr.typeOf outer) budget b) expected given ctx
      memo = some (accepted, after)) :
    Gives (fun n => inputsAgree (Ty.accepts n) expected given) ctx memo accepted after :=
  ⟨max outer budget, (settles_inputsAgree
    (fun a b => settles_accepts (settles_typeOf (Nat.le_max_left ..)) (Nat.le_max_right ..) a b)
    expected given).same h⟩

/-- Whatever a comparison asks for is answered with less than the budget of the comparison. -/
theorem Asks.answered {c d : Comparison} (h : c.Asks ctx d) {r : Bool × Memo}
    (hc : c.expected.acceptsWith (Expr.typeOf outer) (budget + 1) c.given ctx c.memo = some r) :
    ∃ r', d.expected.acceptsWith (Expr.typeOf outer) budget d.given ctx d.memo = some r' := by
  change c.expected.acceptsStep (Expr.typeOf outer)
    (fun a b => a.acceptsWith (Expr.typeOf outer) budget b) c.given ctx c.memo = some r at hc
  cases h with
  | @member expected ty before rest memo mid hopen haccepted =>
    rw [acceptsStep_member hopen, allM_eq_whileM] at hc
    simp only [allM_eq_whileM] at haccepted
    exact whileM_reaches (p := fun t n => expected.accepts n t) (steady_accepts expected)
      gives_of_acceptsWith hc haccepted
  | @alternative given ty before rest memo mid hsingle hrefused =>
    rw [acceptsStep_alternative hsingle, anyM_eq_whileM] at hc
    simp only [anyM_eq_whileM] at hrefused
    exact whileM_reaches (p := fun t n => t.accepts n given) (fun t => steady_accepts t given)
      (q := fun t => t.acceptsWith (Expr.typeOf outer) budget given) gives_of_acceptsWith hc
      hrefused
  | named hsingle hname hresolved =>
    rw [acceptsStep_single hsingle, if_pos hname, acceptsNamed_eq hresolved] at hc
    exact ⟨r, hc⟩
  | item hknown =>
    rw [acceptsStep_single ⟨rfl, rfl⟩] at hc
    simp only [Ty.isName, Bool.or_self, acceptsForm, hknown] at hc
    exact ⟨r, hc⟩
  | @column before rest given column other expectedTy givenTy memo mid mid' after hlength haccepted
      hother hexpected hgiven =>
    rw [acceptsStep_single ⟨rfl, rfl⟩] at hc
    simp only [Ty.isName, Bool.or_self, acceptsForm, hlength, if_true] at hc
    simp only [allM_eq_whileM] at hc haccepted
    obtain ⟨r', hr'⟩ := whileM_reaches
      (p := fun column n => columnAccepted (Expr.typeOf n) (Ty.accepts n) given column)
      (steady_columnAccepted given) gives_of_columnAccepted hc haccepted
    unfold columnAccepted at hr'
    rw [hother] at hr'
    obtain ⟨ty, last, hty, hr'⟩ := bind_eq_some.1 hr'
    obtain ⟨rfl, rfl⟩ := Gives.unique (steady_binder column) hexpected ⟨outer, hty⟩
    obtain ⟨ty', last', hty', hr'⟩ := bind_eq_some.1 hr'
    obtain ⟨rfl, rfl⟩ := Gives.unique (steady_binder other) hgiven ⟨outer, hty'⟩
    exact ⟨_, hr'⟩
  | output =>
    rw [acceptsStep_single ⟨rfl, rfl⟩] at hc
    obtain ⟨accepted, mid, ha, -⟩ := bind_eq_some.1 hc
    exact ⟨_, ha⟩
  | @input vars vars' inputs inputs' output output' before rest x y expectedTy givenTy memo mid
      after hlength houtput hzip haccepted hexpected hgiven =>
    rw [acceptsStep_single ⟨rfl, rfl⟩] at hc
    obtain ⟨accepted, last, ha, hc⟩ := bind_eq_some.1 hc
    obtain ⟨rfl, rfl⟩ :=
      Gives.unique (steady_accepts output output') houtput (gives_of_acceptsWith ha)
    simp only [hlength, if_true, hzip, allM_eq_whileM] at hc haccepted
    obtain ⟨r', hr'⟩ := whileM_reaches
      (p := fun (pair : Binder × Binder) n => inputsAgree (Ty.accepts n) pair.1 pair.2)
      (fun pair => steady_inputsAgree pair.1 pair.2) gives_of_inputsAgree hc haccepted
    obtain ⟨agree, ending, hagree, -⟩ := bind_eq_some.1 hr'
    unfold inputTypesAgree at hagree
    simp only [hexpected, hgiven] at hagree
    exact ⟨_, hagree⟩

/-- No endless chain of comparisons starts from one that ends. -/
theorem Ends.acc {c : Comparison} (h : c.Ends ctx) : Acc (fun d c => Asks ctx c d) c := by
  obtain ⟨accepted, after, outer, h⟩ := h
  have hacc (budget : Nat) : ∀ (c : Comparison) (r : Bool × Memo),
      c.expected.acceptsWith (Expr.typeOf outer) budget c.given ctx c.memo = some r →
        Acc (fun d c => Asks ctx c d) c := by
    induction budget with
    | zero => exact fun _ _ h => nomatch h
    | succ budget ih =>
      intro c r hc
      refine Acc.intro c fun d hd => ?_
      obtain ⟨r', hr'⟩ := hd.answered hc
      exact ih d r' hr'
  exact hacc outer c _ h

end Budgets

/-! ### Comparisons within a program -/

/-- The types are made of the expressions, and the memo has the property `I`. -/
structure Within (es : List Expr) (I : Memo → Prop) (c : Comparison) : Prop where
  expected : c.expected.nested ⊆ es
  given : c.given.nested ⊆ es
  memo : I c.memo

section Within

variable {ctx : Context} {es : List Expr} {I : Memo → Prop} {E : Prop} (hctx : ctx.Within es)
  (hask : ∀ e : Expr, e.nested ⊆ es →
    Answers E ctx I (fun n => e.typeOf n) fun ty => ty.nested ⊆ es)
  (haccepts : ∀ a b : Ty, a.nested ⊆ es → b.nested ⊆ es →
    Answers False ctx I (fun n => a.accepts n b) fun _ => True)

include hctx hask haccepts

/-- What a comparison within a program asks for is within the program. -/
theorem Asks.within {c d : Comparison} (h : c.Asks ctx d) (hc : c.Within es I) :
    d.Within es I := by
  have hsound (e : Expr) (he : e.nested ⊆ es) := (hask e he).weaken False.elim
  obtain ⟨he, hg, hI⟩ := hc
  cases h with
  | @member expected ty before rest memo mid _ haccepted =>
    have hmembers := nestedInTys_subset.1 hg
    have hbefore := answers_allM (p := fun t n => expected.accepts n t)
      (l := before) fun t ht => haccepts expected t he (hmembers t (by simp [ht]))
    exact ⟨he, hmembers ty (by simp), (hbefore.gives hI haccepted).2⟩
  | @alternative given ty before rest memo mid _ hrefused =>
    have hmembers := nestedInTys_subset.1 he
    have hbefore := answers_anyM (p := fun t n => t.accepts n given)
      (l := before) fun t ht => haccepts t given (hmembers t (by simp [ht])) hg
    exact ⟨hmembers ty (by simp), hg, (hbefore.gives hI hrefused).2⟩
  | named => exact ⟨Ty.nested_resolveNames hctx he, Ty.nested_resolveNames hctx hg, hI⟩
  | item => exact ⟨he, hg, hI⟩
  | @column before rest given column other expectedTy givenTy memo mid mid' after _ haccepted hother
      hexpected hgiven =>
    have hcolumns := nestedInBinders_subset.1 he
    have hbefore := answers_allM (l := before)
      (p := fun column n => columnAccepted (Expr.typeOf n) (Ty.accepts n) given column)
      fun b hb => answers_columnAccepted hctx hsound haccepts hg (hcolumns b (by simp [hb]))
    have hmid := (hbefore.gives hI haccepted).2
    obtain ⟨hexpectedTy, hmid'⟩ :=
      (answers_binder hctx hsound (hcolumns column (by simp))).gives hmid hexpected
    have hothers := nestedInBinders_subset.1 hg other (List.mem_of_find?_eq_some hother)
    obtain ⟨hgivenTy, hafter⟩ := (answers_binder hctx hsound hothers).gives hmid' hgiven
    exact ⟨hexpectedTy, hgivenTy, hafter⟩
  | output =>
    simp only [Ty.nested, List.append_subset] at he hg
    exact ⟨he.2, hg.2, hI⟩
  | @input vars vars' inputs inputs' output output' before rest x y expectedTy givenTy memo mid
      after _ houtput hzip haccepted hexpected hgiven =>
    simp only [Ty.nested, List.append_subset, nestedInBinders_subset] at he hg
    have hmid := ((haccepts output output' he.2 hg.2).gives hI houtput).2
    have hpairs (pair : Binder × Binder) (hp : pair ∈ before ++ (x, y) :: rest) :
        pair.1.nested ⊆ es ∧ pair.2.nested ⊆ es := by
      have hin := List.of_mem_zip (hzip ▸ hp)
      exact ⟨he.1 _ hin.1, hg.1 _ hin.2⟩
    have hbefore := answers_allM (l := before)
      (p := fun (pair : Binder × Binder) n => inputsAgree (Ty.accepts n) pair.1 pair.2)
      fun pair hp => answers_inputsAgree hctx haccepts (hpairs pair (by simp [hp])).1
        (hpairs pair (by simp [hp])).2
    obtain ⟨hx, hy⟩ := hpairs (x, y) (by simp)
    exact ⟨Ty.nested_resolveNames hctx ((Binder.nested_subset.1 hx).1 _ hexpected),
      Ty.nested_resolveNames hctx ((Binder.nested_subset.1 hy).1 _ hgiven),
      (hbefore.gives hmid haccepted).2⟩

end Within

/-! ### Comparisons end -/

section Ends

variable {ctx : Context} {memo : Memo}

theorem exists_members {ty : Ty} (hopen : ty.isOpen = false) (hsingle : ty.isSingle = false) :
    ∃ members, ty = .union members := by
  cases ty <;> first | exact ⟨_, rfl⟩ | simp [Ty.isOpen, Ty.isSingle] at hopen hsingle

/-- Names that stand for nothing are compared as they are. -/
theorem acceptsNamed_of_isName (memo : Memo) {expected given : Ty}
    (h : ((expected.resolveNames ctx).isName || (given.resolveNames ctx).isName) = true) :
    ∃ accepted, ∀ accepts : Ty → Ty → Query Bool,
      acceptsNamed accepts expected given ctx memo = some (accepted, memo) := by
  unfold acceptsNamed
  simp only [bind_resolved]
  by_cases hnames : ∃ a b, expected.resolveNames ctx = .name a ∧ given.resolveNames ctx = .name b
  · obtain ⟨a, b, ha, hb⟩ := hnames
    rw [ha, hb]
    exact ⟨a == b, fun _ => rfl⟩
  · refine ⟨false, fun accepts => ?_⟩
    show _ = (pure false : Query Bool) ctx memo
    refine congrFun (congrFun ?_ ctx) memo
    split
    · rename_i a b ha hb
      exact absurd ⟨a, b, ha, hb⟩ hnames
    · exact if_pos h

theorem ends_columnAccepted {given : List Binder} {column : Binder}
    (hcolumn : Query.Ends (fun n => column.typeOf n) ctx memo)
    (hgiven : ∀ other ty mid, given.find? column.sharesName = some other →
      Gives (fun n => column.typeOf n) ctx memo ty mid →
      Query.Ends (fun n => other.typeOf n) ctx mid)
    (haccepts : ∀ other ty mid ty' after, given.find? column.sharesName = some other →
      Gives (fun n => column.typeOf n) ctx memo ty mid →
      Gives (fun n => other.typeOf n) ctx mid ty' after →
      Query.Ends (fun n => ty.accepts n ty') ctx after) :
    Query.Ends (fun n => columnAccepted (Expr.typeOf n) (Ty.accepts n) given column) ctx memo := by
  unfold columnAccepted
  cases hother : given.find? column.sharesName with
  | none => exact ends_pure false
  | some other =>
    have hlast (ty : Ty) : Steady fun n => other.typeOf n >>= fun ty' => ty.accepts n ty' :=
      (steady_binder other).bind fun ty' => steady_accepts ty ty'
    refine Query.Ends.bind (steady_binder column) hlast hcolumn fun ty mid hty => ?_
    refine Query.Ends.bind (steady_binder other) (fun ty' => steady_accepts ty ty')
      (hgiven other ty mid hother hty) fun ty' after hty' => ?_
    exact haccepts other ty mid ty' after hother hty hty'

theorem ends_inputsAgree {x y : Binder} (h : ∀ expected given, x.ty = some expected →
    y.ty = some given → Query.Ends (fun n => (expected.resolveNames ctx).accepts n
      (given.resolveNames ctx)) ctx memo) :
    Query.Ends (fun n => inputsAgree (Ty.accepts n) x y) ctx memo := by
  have htypes : Query.Ends (fun n => inputTypesAgree (Ty.accepts n) x y) ctx memo := by
    unfold inputTypesAgree
    cases hx : x.ty with
    | none => exact ends_pure true
    | some expected =>
      cases hy : y.ty with
      | none => exact ends_pure true
      | some given => exact h expected given hx hy
  obtain ⟨agree, after, budget, hagree⟩ := htypes
  exact ⟨_, after, budget, bind_eq_some.2 ⟨agree, after, hagree, rfl⟩⟩

variable {es : List Expr} {I : Memo → Prop} (hctx : ctx.Within es)
  (hask : ∀ e : Expr, e.nested ⊆ es →
    Answers True ctx I (fun n => e.typeOf n) fun ty => ty.nested ⊆ es)
  (haccepts : ∀ a b : Ty, a.nested ⊆ es → b.nested ⊆ es →
    Answers False ctx I (fun n => a.accepts n b) fun _ => True)

include hctx hask

theorem ends_binder {b : Binder} (hb : b.nested ⊆ es) (hI : I memo) :
    Query.Ends (fun n => b.typeOf n) ctx memo := by
  obtain ⟨enough, ty, after, h⟩ := (answers_binder hctx hask hb).ends trivial hI
  exact ⟨ty, after, enough, h enough (Nat.le_refl _)⟩

include haccepts

theorem ends_acceptsForm {expected given : Ty} (hc : Within es I ⟨expected, given, memo⟩)
    (h : ∀ d, Asks ctx ⟨expected, given, memo⟩ d → d.Ends ctx) :
    Query.Ends (fun n => acceptsForm (Expr.typeOf n) (Ty.accepts n) expected given) ctx memo := by
  obtain ⟨he, hg, hI⟩ := hc
  unfold acceptsForm
  split
  case h_4 item other =>
    cases hknown : item.isUnknown || other.isUnknown with
    | true => exact ends_pure true
    | false => exact h _ (.item hknown)
  case h_5 columns others =>
    by_cases hlength : columns.length = others.length
    · simp only [if_pos hlength, allM_eq_whileM]
      refine ends_whileM
        (p := fun column n => columnAccepted (Expr.typeOf n) (Ty.accepts n) others column)
        (steady_columnAccepted others) fun before column rest mid heq hbefore => ?_
      subst heq
      simp only [← allM_eq_whileM] at hbefore
      have hcolumns := nestedInBinders_subset.1 he
      have hsound (e : Expr) (he : e.nested ⊆ es) := (hask e he).weaken False.elim
      have hmid : I mid := ((answers_allM (l := before) fun b hb =>
        answers_columnAccepted hctx hsound haccepts hg
          (hcolumns b (by simp [hb]))).gives hI hbefore).2
      have hcolumn : column.nested ⊆ es := hcolumns column (by simp)
      refine ends_columnAccepted (ends_binder hctx hask hcolumn hmid)
        (fun other ty mid' hother hty => ?_) fun other ty mid' ty' after hother hty hty' => ?_
      · have hothers := nestedInBinders_subset.1 hg other (List.mem_of_find?_eq_some hother)
        exact ends_binder hctx hask hothers
          ((answers_binder hctx hask hcolumn).gives hmid hty).2
      · exact h _ (.column hlength hbefore hother hty hty')
    · simp only [if_neg hlength]
      exact ends_pure false
  case h_6 vars inputs output vars' inputs' output' =>
    have hrest (accepted : Bool) : Steady fun n =>
        if accepted = true then
          if inputs.length = inputs'.length then
            (inputs.zip inputs').allM fun pair : Binder × Binder =>
              inputsAgree (Ty.accepts n) pair.1 pair.2
          else pure false
        else pure false := by
      split
      · split
        · exact ⟨fun hle => settles_allM (fun pair : Binder × Binder =>
            (steady_inputsAgree pair.1 pair.2).settles hle) _⟩
        · exact steady_pure false
      · exact steady_pure false
    refine Query.Ends.bind (steady_accepts output output') hrest (h _ .output)
      fun accepted mid houtput => ?_
    cases accepted with
    | false => exact ends_pure false
    | true =>
      by_cases hlength : inputs.length = inputs'.length
      · simp only [if_true, if_pos hlength, allM_eq_whileM]
        refine ends_whileM
          (p := fun (pair : Binder × Binder) n => inputsAgree (Ty.accepts n) pair.1 pair.2)
          (fun pair : Binder × Binder => steady_inputsAgree pair.1 pair.2)
          fun before pair rest after heq hbefore => ?_
        simp only [← allM_eq_whileM] at hbefore
        exact ends_inputsAgree fun expected given hx hy =>
          h _ (.input hlength houtput heq hbefore hx hy)
      · simp only [if_true, if_neg hlength]
        exact ends_pure false
  all_goals exact ends_pure _

/-- Where the type queries end, a comparison ends if all that it asks for end. -/
theorem ends_of_asks {c : Comparison} (hc : c.Within es I)
    (h : ∀ d, c.Asks ctx d → d.Ends ctx) : c.Ends ctx := by
  obtain ⟨expected, given, memo⟩ := c
  suffices hstep : Query.Ends (fun n => expected.acceptsStep (Expr.typeOf n)
      (fun a b => a.accepts n b) given) ctx memo by
    obtain ⟨accepted, after, hstep⟩ := hstep
    exact ⟨accepted, after, gives_accepts.2 hstep⟩
  cases hopen : expected.isOpen || given.isOpen with
  | true =>
    simp only [acceptsStep_open hopen]
    exact ends_pure true
  | false =>
    obtain ⟨he, hg⟩ := Bool.or_eq_false_iff.1 hopen
    cases hgiven : given.isSingle with
    | false =>
      obtain ⟨members, rfl⟩ := exists_members hg hgiven
      simp only [acceptsStep_member he, allM_eq_whileM]
      refine ends_whileM (p := fun t n => expected.accepts n t) (steady_accepts expected)
        fun before ty rest mid heq hbefore => ?_
      subst heq
      simp only [← allM_eq_whileM] at hbefore
      exact h _ (.member he hbefore)
    | true =>
      cases hexpected : expected.isSingle with
      | false =>
        obtain ⟨members, rfl⟩ := exists_members he hexpected
        simp only [acceptsStep_alternative hgiven, anyM_eq_whileM]
        refine ends_whileM (p := fun t n => t.accepts n given) (fun t => steady_accepts t given)
          fun before ty rest mid heq hbefore => ?_
        subst heq
        simp only [← anyM_eq_whileM] at hbefore
        exact h _ (.alternative hgiven hbefore)
      | true =>
        simp only [acceptsStep_single ⟨hexpected, hgiven⟩]
        cases hname : expected.isName || given.isName with
        | false => exact ends_acceptsForm hctx hask haccepts hc h
        | true =>
          simp only [if_true]
          cases hresolved :
              (expected.resolveNames ctx).isName || (given.resolveNames ctx).isName with
          | true =>
            obtain ⟨accepted, haccepted⟩ := acceptsNamed_of_isName memo hresolved
            exact ⟨accepted, memo, 0, haccepted _⟩
          | false =>
            have hboth := Bool.or_eq_false_iff.1 hresolved
            obtain ⟨accepted, after, budget, hd⟩ := h _ (.named ⟨hexpected, hgiven⟩ hname hboth)
            exact ⟨accepted, after, budget, (acceptsNamed_eq hboth).trans hd⟩

/-- A comparison ends if no endless chain of comparisons starts from it. -/
theorem ends_of_acc {c : Comparison} (hacc : Acc (fun d c => Asks ctx c d) c)
    (hc : c.Within es I) : c.Ends ctx := by
  induction hacc with
  | intro c _ ih =>
    have hsound (e : Expr) (he : e.nested ⊆ es) := (hask e he).weaken (F := False) False.elim
    exact ends_of_asks hctx hask haccepts hc fun d hd =>
      ih d hd (hd.within hctx hsound haccepts hc)

end Ends

end Comparison

end Stepwise

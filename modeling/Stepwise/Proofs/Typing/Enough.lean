import Stepwise.Proofs.Typing.Repeatable

/-!
# Enough budget

The budget of a query bounds how deeply queries are nested, and has no other meaning: what a query
answers with enough of it is its answer.  `Query.Gives` is the answer of a query with enough budget,
and `Query.Ends` says that there is one.  `Query.Steady` holds of the queries for which these
notions make sense, in that a larger budget never takes an answer back.

Sequences of steady queries give what their parts give one after the other (`gives_bind`).  For type
queries and comparisons of types, `gives_typeOf` and `gives_accepts` put the budget away: they say
how an answer comes about in terms of other answers.
-/

namespace Stepwise

namespace Query

variable {α β : Type} {ctx : Context} {memo mid after : Memo}

/-- A query with a budget, of which more gives all answers that less does. -/
structure Steady (q : Nat → Query α) : Prop where
  settles : ∀ {budget budget' : Nat}, budget ≤ budget' → (q budget).Settles (q budget')

/-- With enough budget the query has the answer `a`, and leaves the memo `after`. -/
def Gives (q : Nat → Query α) (ctx : Context) (memo : Memo) (a : α) (after : Memo) : Prop :=
  ∃ budget, q budget ctx memo = some (a, after)

/-- With enough budget the query has an answer. -/
def Ends (q : Nat → Query α) (ctx : Context) (memo : Memo) : Prop :=
  ∃ a after, Gives q ctx memo a after

variable {q : Nat → Query α} {f : α → Nat → Query β} {a : α} {b : β}

theorem Gives.ends (h : Gives q ctx memo a after) : Ends q ctx memo :=
  ⟨a, after, h⟩

theorem Gives.enough (hq : Steady q) (h : Gives q ctx memo a after) :
    ∃ enough, ∀ budget, enough ≤ budget → q budget ctx memo = some (a, after) := by
  obtain ⟨enough, h⟩ := h
  exact ⟨enough, fun budget hle => (hq.settles hle).same h⟩

/-- There is one answer, and one memo left. -/
theorem Gives.unique {a' : α} {after' : Memo} (hq : Steady q) (h : Gives q ctx memo a after)
    (h' : Gives q ctx memo a' after') : a' = a ∧ after' = after := by
  obtain ⟨budget, h⟩ := h
  obtain ⟨budget', h'⟩ := h'
  have hfirst := (hq.settles (Nat.le_max_left budget budget')).same h
  have hsecond := (hq.settles (Nat.le_max_right budget budget')).same h'
  rw [hfirst] at hsecond
  obtain ⟨ha, hafter⟩ := Prod.mk.inj (Option.some.inj hsecond)
  exact ⟨ha.symm, hafter.symm⟩

theorem Gives.grows (hq : Steady q) (h : Gives q ctx memo a after) : memo.Grows after := by
  obtain ⟨budget, h⟩ := h
  exact (hq.settles (Nat.le_refl budget)).grows h

/-- What has been given between queries is given ever after. -/
theorem Gives.again {later : Memo} (hq : Steady q) (hrest : memo.AtRest)
    (h : Gives q ctx memo a after) (hlater : after.Extends later) : Gives q ctx later a later := by
  obtain ⟨budget, h⟩ := h
  exact ⟨budget, (hq.settles (Nat.le_refl budget)).again hrest h hlater⟩

/-! ## Sequences -/

theorem steady_pure (a : α) : Steady fun _ => (pure a : Query α) :=
  ⟨fun _ => settles_pure a⟩

theorem Steady.bind (hq : Steady q) (hf : ∀ a, Steady (f a)) :
    Steady fun budget => q budget >>= fun a => f a budget :=
  ⟨fun hle => (hq.settles hle).bind fun a => (hf a).settles hle⟩

/-- One unit of the budget makes no difference. -/
theorem gives_succ (hq : Steady q) :
    Gives q ctx memo a after ↔ Gives (fun budget => q (budget + 1)) ctx memo a after := by
  constructor
  · rintro ⟨budget, h⟩
    exact ⟨budget, (hq.settles (Nat.le_succ budget)).same h⟩
  · rintro ⟨budget, h⟩
    exact ⟨budget + 1, h⟩

@[simp] theorem gives_pure {a' : α} :
    Gives (fun _ => pure a) ctx memo a' after ↔ a = a' ∧ memo = after := by
  constructor
  · rintro ⟨budget, h⟩
    exact pure_eq_some.1 h
  · rintro ⟨rfl, rfl⟩
    exact ⟨0, rfl⟩

theorem gives_bind (hq : Steady q) (hf : ∀ a, Steady (f a)) :
    Gives (fun budget => q budget >>= fun a => f a budget) ctx memo b after ↔
      ∃ a mid, Gives q ctx memo a mid ∧ Gives (f a) ctx mid b after := by
  constructor
  · rintro ⟨budget, h⟩
    obtain ⟨a, mid, ha, hb⟩ := bind_eq_some.1 h
    exact ⟨a, mid, ⟨budget, ha⟩, ⟨budget, hb⟩⟩
  · rintro ⟨a, mid, ⟨budget, ha⟩, ⟨budget', hb⟩⟩
    refine ⟨max budget budget', bind_eq_some.2 ⟨a, mid, ?_, ?_⟩⟩
    · exact (hq.settles (Nat.le_max_left budget budget')).same ha
    · exact ((hf a).settles (Nat.le_max_right budget budget')).same hb

/-! ## Type queries -/

theorem steady_typeOf (e : Expr) : Steady fun budget => e.typeOf budget :=
  ⟨fun hle => settles_typeOf hle e⟩

theorem steady_infer (e : Expr) :
    Steady fun budget => e.inferWith (Expr.typeOf budget) budget :=
  ⟨fun hle => settles_infer (settles_typeOf hle) hle e⟩

/-- How a type query is answered: from what is remembered, as a cycle, or by finding the type. -/
theorem gives_typeOf {e : Expr} {ty : Ty} :
    Gives (fun budget => e.typeOf budget) ctx memo ty after ↔
      (memo.types.find? e.id = some ty ∧ memo = after) ∨
      (∃ depth, memo.types.find? e.id = none ∧ Memo.depthIn? e.id memo.visiting = some depth ∧
        ty = .unknown .cycle (some e.id) ∧
        after = { memo with visiting := Memo.observe depth memo.visiting }) ∨
      (∃ inner, memo.types.find? e.id = none ∧ Memo.depthIn? e.id memo.visiting = none ∧
        Gives (fun budget => e.inferWith (Expr.typeOf budget) budget) ctx (memo.enter e.id) ty
          inner ∧ after = inner.leave ty) := by
  rw [gives_succ (steady_typeOf e)]
  constructor
  · rintro ⟨budget, h⟩
    rcases guarded_eq_some.1 h with hknown | hcycle | ⟨inner, hf, hd, hi, hafter⟩
    · exact .inl hknown
    · exact .inr (.inl hcycle)
    · exact .inr (.inr ⟨inner, hf, hd, ⟨budget, hi⟩, hafter⟩)
  · rintro (hknown | hcycle | ⟨inner, hf, hd, ⟨budget, hi⟩, hafter⟩)
    · exact ⟨0, guarded_eq_some.2 (.inl hknown)⟩
    · exact ⟨0, guarded_eq_some.2 (.inr (.inl hcycle))⟩
    · exact ⟨budget, guarded_eq_some.2 (.inr (.inr ⟨inner, hf, hd, hi, hafter⟩))⟩

/-! ## Comparisons -/

theorem steady_accepts (expected given : Ty) :
    Steady fun budget => expected.accepts budget given :=
  ⟨fun hle => settles_acceptsType hle expected given⟩

/-- One unit of the budget is spent on the comparison itself. -/
theorem gives_accepts {expected given : Ty} {accepted : Bool} :
    Gives (fun budget => expected.accepts budget given) ctx memo accepted after ↔
      Gives (fun budget => expected.acceptsStep (Expr.typeOf budget)
        (fun expected given => expected.accepts budget given) given) ctx memo accepted after := by
  constructor
  · rintro ⟨budget, h⟩
    cases budget with
    | zero => exact nomatch h
    | succ budget =>
      refine ⟨budget + 1, Settles.same (settles_acceptsStep ?_ ?_ _ _) h⟩
      · exact settles_typeOf (Nat.le_refl _)
      · exact settles_accepts (settles_typeOf (Nat.le_refl _)) (Nat.le_succ budget)
  · rintro ⟨budget, h⟩
    refine ⟨budget + 1, Settles.same (settles_acceptsStep ?_ ?_ _ _) h⟩
    · exact settles_typeOf (Nat.le_succ budget)
    · exact settles_accepts (settles_typeOf (Nat.le_succ budget)) (Nat.le_refl budget)

theorem steady_columnAccepted (given : List Binder) (column : Binder) :
    Steady fun n => columnAccepted (Expr.typeOf n) (Ty.accepts n) given column :=
  ⟨fun hle => settles_columnAccepted (settles_typeOf hle)
    (fun a b => settles_acceptsType hle a b) given column⟩

theorem steady_inputsAgree (expected given : Binder) :
    Steady fun n => inputsAgree (Ty.accepts n) expected given :=
  ⟨fun hle => settles_inputsAgree (fun a b => settles_acceptsType hle a b) expected given⟩

theorem steady_binder (b : Binder) : Steady fun n => b.typeOf n :=
  ⟨fun hle => settles_binderType hle b⟩

theorem steady_compatible (a b : Ty) : Steady fun budget => a.compatible budget b :=
  ⟨fun hle => settles_compatibleTypes hle a b⟩

end Query

end Stepwise

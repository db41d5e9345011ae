import Mathlib.Data.List.Forall2
import Stepwise.Proofs.Assoc
import Stepwise.Proofs.Code.Layout

/-!
# Answers settle

A type query changes the memo, so that asking again is not the same as asking once.  Inside a cycle
an answer may be provisional, and a provisional answer is not remembered.  An outermost query,
however, depends on no query under way, so its answer is always remembered, and nothing that is
remembered is ever replaced (`Memo.Grows`).

A query settles (`Query.Settles`) if it answers the same from then on: whatever else has been
remembered in the meantime, asking again gives the answer that was given first and leaves the memo
as it is.  All queries of the library settle, since they are sequences of type queries in between
which they only look at the answers.  The same sequences show that the budget only bounds how deeply
queries are nested: with more of it a query that has an answer has the same answer.  Both are
therefore proved at once, as a relation between a query and the same query with a larger budget.
-/

namespace Stepwise

/-! ## Memos -/

namespace Memo

/-- A memo between queries: nothing is under way. -/
def AtRest (memo : Memo) : Prop :=
  memo.visiting = []

/-- What a query under way turns into: the same query, which may have come to depend on queries
farther out. -/
def Deepens (v w : Visit) : Prop :=
  w.id = v.id ∧ w.dependsOn ≤ v.dependsOn

/-- What a memo turns into while queries are answered.  The queries under way stay the same and get
no answers, and new answers are added behind those that are there. -/
structure Grows (memo after : Memo) : Prop where
  visits : List.Forall₂ Deepens memo.visiting after.visiting
  entries : memo.types.entries <+: after.types.entries
  pending : ∀ v ∈ memo.visiting, memo.types.find? v.id = none → after.types.find? v.id = none

/-- A memo between queries that knows what an earlier one knew. -/
structure Extends (memo later : Memo) : Prop where
  atRest : later.AtRest
  keeps : ∀ id ty, memo.types.find? id = some ty → later.types.find? id = some ty

variable {memo mid after later : Memo}

theorem Deepens.refl (v : Visit) : Deepens v v :=
  ⟨rfl, Nat.le_refl _⟩

theorem Deepens.trans {u v w : Visit} (h : Deepens u v) (h' : Deepens v w) : Deepens u w :=
  ⟨h'.1.trans h.1, Nat.le_trans h'.2 h.2⟩

theorem forall₂_deepens_refl (visits : List Visit) : List.Forall₂ Deepens visits visits :=
  List.forall₂_same.2 fun v _ => .refl v

theorem forall₂_deepens_trans {visits visits' visits'' : List Visit}
    (h : List.Forall₂ Deepens visits visits') (h' : List.Forall₂ Deepens visits' visits'') :
    List.Forall₂ Deepens visits visits'' := by
  induction h generalizing visits'' with
  | nil => exact h'
  | cons hv _ ih =>
    cases h' with
    | cons hw hrest => exact .cons (hv.trans hw) (ih hrest)

theorem Grows.refl (memo : Memo) : memo.Grows memo :=
  ⟨forall₂_deepens_refl _, List.prefix_rfl, fun _ _ h => h⟩

/-- The queries under way stay the same. -/
theorem Grows.ids (h : memo.Grows after) :
    after.visiting.map Visit.id = memo.visiting.map Visit.id := by
  have hids {visits visits' : List Visit} (hvisits : List.Forall₂ Deepens visits visits') :
      visits'.map Visit.id = visits.map Visit.id := by
    induction hvisits with
    | nil => rfl
    | cons hv _ ih => rw [List.map_cons, List.map_cons, hv.1, ih]
  exact hids h.visits

/-- Answers stay. -/
theorem Grows.keeps (h : memo.Grows after) (id : NodeId) (ty : Ty)
    (hty : memo.types.find? id = some ty) : after.types.find? id = some ty :=
  h.entries.lookup_eq_some hty

/-- What is under way at the end was under way before. -/
theorem Grows.exists_visit (h : memo.Grows after) {v : Visit} (hv : v ∈ after.visiting) :
    ∃ w ∈ memo.visiting, w.id = v.id := by
  have hmem : v.id ∈ after.visiting.map Visit.id := List.mem_map_of_mem hv
  rw [h.ids] at hmem
  exact List.mem_map.1 hmem

theorem Grows.exists_visit_after (h : memo.Grows after) {v : Visit} (hv : v ∈ memo.visiting) :
    ∃ w ∈ after.visiting, w.id = v.id := by
  have hmem : v.id ∈ memo.visiting.map Visit.id := List.mem_map_of_mem hv
  rw [← h.ids] at hmem
  exact List.mem_map.1 hmem

theorem Grows.trans (h : memo.Grows mid) (h' : mid.Grows after) : memo.Grows after := by
  refine ⟨forall₂_deepens_trans h.visits h'.visits, h.entries.trans h'.entries, ?_⟩
  intro v hv hnone
  obtain ⟨w, hw, hid⟩ := h.exists_visit_after hv
  have hmid : mid.types.find? w.id = none := by
    rw [hid]
    exact h.pending v hv hnone
  rw [← hid]
  exact h'.pending w hw hmid

theorem Grows.atRest (h : memo.Grows after) (hr : memo.AtRest) : after.AtRest := by
  have hids := h.ids
  rw [show memo.visiting = [] from hr, List.map_nil, List.map_eq_nil_iff] at hids
  exact hids

theorem Extends.of_grows (h : mid.Grows after) (h' : after.Extends later) : mid.Extends later :=
  ⟨h'.atRest, fun id ty hty => h'.keeps id ty (h.keeps id ty hty)⟩

theorem Extends.refl (h : memo.AtRest) : memo.Extends memo :=
  ⟨h, fun _ _ hty => hty⟩

/-! ### Queries under way -/

/-- A node is not under way when it has no depth. -/
theorem depthIn?_eq_none_iff {id : NodeId} {visits : List Visit} :
    depthIn? id visits = none ↔ ∀ v ∈ visits, v.id ≠ id := by
  induction visits with
  | nil => simp [depthIn?]
  | cons v outer ih =>
    rw [depthIn?]
    by_cases hv : v.id = id
    · simp [hv]
    · simp [hv, ih]

/-- Noting a dependency only deepens. -/
theorem forall₂_deepens_observe (depth : Nat) (visits : List Visit) :
    List.Forall₂ Deepens visits (observe depth visits) := by
  cases visits with
  | nil => exact .nil
  | cons v outer => exact .cons ⟨rfl, Nat.min_le_left ..⟩ (forall₂_deepens_refl outer)

/-- Noting a dependency is growing. -/
theorem grows_observe (memo : Memo) (depth : Nat) :
    memo.Grows { memo with visiting := observe depth memo.visiting } :=
  ⟨forall₂_deepens_observe depth _, List.prefix_rfl, fun _ _ h => h⟩

/-- Ending a query is growing, when the query was for a node that had no answer and was not under
way. -/
theorem grows_leave {id : NodeId} {ty : Ty} (hnone : memo.types.find? id = none)
    (hid : ∀ v ∈ memo.visiting, v.id ≠ id) (h : (memo.enter id).Grows after) :
    memo.Grows (after.leave ty) := by
  obtain ⟨hvisits, hentries, hpending⟩ := h
  have hafter : after.types.find? id = none :=
    hpending ⟨id, memo.visiting.length⟩ (List.mem_cons_self ..) hnone
  obtain ⟨types, visiting⟩ := after
  obtain ⟨v, outer, ⟨hv, -⟩, houter, rfl⟩ := List.forall₂_cons_left_iff.1 hvisits
  simp only at hv
  rw [leave]
  dsimp only
  by_cases hd : v.dependsOn < outer.length
  · rw [if_pos hd]
    refine ⟨forall₂_deepens_trans houter (forall₂_deepens_observe _ _), hentries, ?_⟩
    exact fun w hw => hpending w (List.mem_cons_of_mem _ hw)
  · rw [if_neg hd, hv]
    refine ⟨houter, ?_, fun w hw hw' => ?_⟩
    · rw [Assoc.entries_insert hafter]
      exact hentries.trans (List.prefix_append _ _)
    · have hkept := hpending w (List.mem_cons_of_mem _ hw) hw'
      rw [Assoc.find?_insert, beq_false_of_ne (hid w hw)]
      simpa using hkept

end Memo

/-! ## Queries that settle -/

/-- The first query settles as the second: the second has all the answers of the first, and once the
first has been answered between other queries, the second gives this answer ever after. -/
structure Query.Settles {α : Type} (q q' : Query α) : Prop where
  same : ∀ {ctx memo a after}, q ctx memo = some (a, after) → q' ctx memo = some (a, after)
  grows : ∀ {ctx memo a after}, q ctx memo = some (a, after) → memo.Grows after
  again : ∀ {ctx memo a after later}, memo.AtRest → q ctx memo = some (a, after) →
    after.Extends later → q' ctx later = some (a, later)

namespace Query

variable {α β : Type} {q q' : Query α} {f f' : α → Query β}

theorem settles_pure (a : α) : (pure a : Query α).Settles (pure a) := by
  refine ⟨fun h => h, fun h => ?_, fun _ h _ => ?_⟩
  · obtain ⟨-, rfl⟩ := pure_eq_some.1 h
    exact .refl _
  · obtain ⟨rfl, -⟩ := pure_eq_some.1 h
    rfl

theorem settles_read : (read : Query Context).Settles read := by
  refine ⟨fun h => h, fun h => ?_, fun _ h _ => ?_⟩
  · obtain ⟨-, rfl⟩ := Prod.mk.inj (Option.some.inj h)
    exact .refl _
  · obtain ⟨rfl, -⟩ := Prod.mk.inj (Option.some.inj h)
    rfl

/-- A query that has no answer settles as any. -/
theorem settles_outOfBudget (q : Query α) : (outOfBudget : Query α).Settles q :=
  ⟨nofun, nofun, nofun⟩

theorem Settles.bind (hq : q.Settles q') (hf : ∀ a, (f a).Settles (f' a)) :
    (q >>= f).Settles (q' >>= f') := by
  refine ⟨fun h => ?_, fun h => ?_, fun hrest h hlater => ?_⟩
  · obtain ⟨a, mid, ha, hb⟩ := bind_eq_some.1 h
    exact bind_eq_some.2 ⟨a, mid, hq.same ha, (hf a).same hb⟩
  · obtain ⟨a, mid, ha, hb⟩ := bind_eq_some.1 h
    exact (hq.grows ha).trans ((hf a).grows hb)
  · obtain ⟨a, mid, ha, hb⟩ := bind_eq_some.1 h
    have hmid : mid.AtRest := (hq.grows ha).atRest hrest
    have hagain := hq.again hrest ha (.of_grows ((hf a).grows hb) hlater)
    exact bind_eq_some.2 ⟨a, _, hagain, (hf a).again hmid hb hlater⟩

theorem Settles.map {g : α → β} (hq : q.Settles q') : (g <$> q).Settles (g <$> q') := by
  rw [← bind_pure_comp, ← bind_pure_comp]
  exact hq.bind fun a => settles_pure (g a)

/-- How a type query is answered: from what is remembered, as a cycle, or by finding the type. -/
theorem guarded_eq_some {id : NodeId} {infer : Query Ty} {ctx : Context} {memo after : Memo}
    {ty : Ty} :
    guarded id infer ctx memo = some (ty, after) ↔
      (memo.types.find? id = some ty ∧ memo = after) ∨
      (∃ depth, memo.types.find? id = none ∧ Memo.depthIn? id memo.visiting = some depth ∧
        ty = .unknown .cycle (some id) ∧
        after = { memo with visiting := Memo.observe depth memo.visiting }) ∨
      (∃ inner, memo.types.find? id = none ∧ Memo.depthIn? id memo.visiting = none ∧
        infer ctx (memo.enter id) = some (ty, inner) ∧ after = inner.leave ty) := by
  unfold guarded
  cases hf : memo.types.find? id with
  | some found => simp
  | none =>
    cases hd : Memo.depthIn? id memo.visiting with
    | some depth => simp [eq_comm]
    | none =>
      cases hi : infer ctx (memo.enter id) with
      | none => simp
      | some r =>
        obtain ⟨found, inner⟩ := r
        simp only [Option.some.injEq, Prod.mk.injEq, reduceCtorEq, false_and, true_and, false_or,
          exists_false]
        constructor
        · rintro ⟨rfl, rfl⟩
          exact ⟨inner, ⟨rfl, rfl⟩, rfl⟩
        · rintro ⟨_, ⟨rfl, rfl⟩, rfl⟩
          exact ⟨rfl, rfl⟩

/-- The answer of an outermost query is remembered, whatever it depended on. -/
theorem find?_of_guarded {id : NodeId} {infer : Query Ty} {ctx : Context} {memo after : Memo}
    {ty : Ty} (hgrows : ∀ {inner}, infer ctx (memo.enter id) = some (ty, inner) →
      (memo.enter id).Grows inner)
    (hrest : memo.AtRest) (h : guarded id infer ctx memo = some (ty, after)) :
    after.types.find? id = some ty := by
  have hvisiting : memo.visiting = [] := hrest
  rcases guarded_eq_some.1 h with ⟨hf, rfl⟩ | ⟨depth, -, hd, -⟩ | ⟨inner, -, -, hi, rfl⟩
  · exact hf
  · simp [hvisiting, Memo.depthIn?] at hd
  · have hids := (hgrows hi).ids
    rw [Memo.enter, hvisiting, List.map_singleton, List.map_eq_singleton_iff] at hids
    obtain ⟨v, hv, hid⟩ := hids
    simp only at hid
    simp [Memo.leave, hv, Assoc.find?_insert, hid]

/-- A type query settles if finding the type does.  It is here that being the outermost query
matters. -/
theorem settles_guarded (id : NodeId) {infer infer' : Query Ty} (h : infer.Settles infer') :
    (guarded id infer).Settles (guarded id infer') := by
  refine ⟨fun {ctx memo ty after} hq => ?_, fun {ctx memo ty after} hq => ?_,
    fun {ctx memo ty after later} hrest hq hlater => ?_⟩
  · rw [guarded_eq_some] at hq ⊢
    rcases hq with hknown | hcycle | ⟨inner, hf, hd, hi, hafter⟩
    · exact .inl hknown
    · exact .inr (.inl hcycle)
    · exact .inr (.inr ⟨inner, hf, hd, h.same hi, hafter⟩)
  · rcases guarded_eq_some.1 hq with ⟨-, rfl⟩ | ⟨depth, -, -, -, rfl⟩ | ⟨inner, hf, hd, hi, rfl⟩
    · exact .refl _
    · exact Memo.grows_observe memo depth
    · exact Memo.grows_leave hf (Memo.depthIn?_eq_none_iff.1 hd) (h.grows hi)
  · have hknown := find?_of_guarded h.grows hrest hq
    exact guarded_eq_some.2 (.inl ⟨hlater.keeps id ty hknown, rfl⟩)

theorem inScope_eq_some {names : List (String × Definition)} {ctx : Context} {memo after : Memo}
    {a : α} :
    inScope names q ctx memo = some (a, after) ↔
      memo = after ∧ ∃ inner, q (ctx.push names) .empty = some (a, inner) := by
  unfold inScope
  cases hi : q (ctx.push names) .empty with
  | none => simp
  | some r =>
    obtain ⟨found, inner⟩ := r
    simp [and_comm]

/-- What is found in a scope is forgotten, so it is found again. -/
theorem settles_inScope (names : List (String × Definition)) (h : q.Settles q') :
    (inScope names q).Settles (inScope names q') := by
  refine ⟨fun hq => ?_, fun hq => ?_, fun _ hq _ => ?_⟩
  all_goals obtain ⟨rfl, inner, hi⟩ := inScope_eq_some.1 hq
  · exact inScope_eq_some.2 ⟨rfl, inner, h.same hi⟩
  · exact .refl _
  · exact inScope_eq_some.2 ⟨rfl, inner, h.same hi⟩

/-! ### Lists of queries -/

theorem settles_allM {p p' : α → Query Bool} (h : ∀ a, (p a).Settles (p' a)) (as : List α) :
    (as.allM p).Settles (as.allM p') := by
  induction as with
  | nil => exact settles_pure true
  | cons a rest ih =>
    refine (h a).bind fun b => ?_
    cases b with
    | true => exact ih
    | false => exact settles_pure false

theorem settles_anyM {p p' : α → Query Bool} (h : ∀ a, (p a).Settles (p' a)) (as : List α) :
    (as.anyM p).Settles (as.anyM p') := by
  induction as with
  | nil => exact settles_pure false
  | cons a rest ih =>
    refine (h a).bind fun b => ?_
    cases b with
    | true => exact settles_pure true
    | false => exact ih

theorem settles_foldlM {g g' : β → α → Query β} (h : ∀ b a, (g b a).Settles (g' b a))
    (as : List α) (b : β) : (as.foldlM g b).Settles (as.foldlM g' b) := by
  induction as generalizing b with
  | nil => exact settles_pure b
  | cons a rest ih =>
    rw [List.foldlM_cons, List.foldlM_cons]
    exact (h b a).bind fun next => ih next

end Query

/-! ## Types of declarations -/

section Types

open Query

theorem settles_resolved (ty : Ty) : (resolved ty).Settles (resolved ty) :=
  settles_read.bind fun ctx => settles_pure (ty.resolveNames ctx)

variable {ask ask' : Ask} (hask : ∀ e, (ask e).Settles (ask' e))

include hask

theorem settles_binder (b : Binder) : (b.typeWith ask).Settles (b.typeWith ask') := by
  unfold Binder.typeWith
  dsimp only
  split
  · exact (settles_resolved _).bind fun _ => settles_pure _
  · exact (hask _).bind fun _ => settles_pure _
  · exact (settles_pure _).bind fun _ => settles_pure _

theorem settles_function (f : FunctionDef) : (f.typeWith ask).Settles (f.typeWith ask') := by
  unfold FunctionDef.typeWith
  dsimp only
  split
  · exact (settles_resolved _).bind fun _ => settles_pure _
  · exact (hask _).bind fun _ => settles_pure _
  · exact (settles_pure _).bind fun _ => settles_pure _

theorem settles_definition (d : Definition) : (d.typeWith ask).Settles (d.typeWith ask') := by
  cases d with
  | bind b => exact settles_binder hask b
  | function f => exact settles_function hask f
  | _ => exact settles_pure _

theorem settles_memberType (s : StructDef) (args : List Ty) (name : String) :
    (s.memberTypeWith ask args name).Settles (s.memberTypeWith ask' args name) := by
  unfold StructDef.memberTypeWith
  dsimp only
  split
  · exact (settles_binder hask _).map.bind fun _ => settles_pure _
  · split
    · exact (settles_function hask _).map.bind fun _ => settles_pure _
    · split
      · exact (settles_binder hask _).map.bind fun _ => settles_pure _
      · exact (settles_pure _).bind fun _ => settles_pure _

omit hask

/-! ## Comparing types -/

section Accepts

variable {accepts accepts' : Ty → Ty → Query Bool}
  (haccepts : ∀ a b, (accepts a b).Settles (accepts' a b))

include haccepts

theorem settles_inputsAgree (expected given : Binder) :
    (inputsAgree accepts expected given).Settles (inputsAgree accepts' expected given) := by
  unfold inputsAgree inputTypesAgree
  refine Settles.bind ?_ fun agree => settles_pure _
  split
  · exact (settles_resolved _).bind fun a => (settles_resolved _).bind fun b => haccepts a b
  · exact settles_pure _

theorem settles_acceptsNamed (expected given : Ty) :
    (acceptsNamed accepts expected given).Settles (acceptsNamed accepts' expected given) := by
  unfold acceptsNamed
  refine (settles_resolved expected).bind fun a => (settles_resolved given).bind fun b => ?_
  split
  · exact settles_pure _
  · split
    · exact settles_pure _
    · exact haccepts a b

include hask

theorem settles_columnAccepted (given : List Binder) (column : Binder) :
    (columnAccepted ask accepts given column).Settles
      (columnAccepted ask' accepts' given column) := by
  unfold columnAccepted
  split
  · exact (settles_binder hask _).bind fun a => (settles_binder hask _).bind fun b => haccepts a b
  · exact settles_pure _

theorem settles_acceptsForm (expected given : Ty) :
    (acceptsForm ask accepts expected given).Settles
      (acceptsForm ask' accepts' expected given) := by
  unfold acceptsForm
  split
  · exact settles_pure _
  · exact settles_pure _
  · exact settles_pure _
  · split
    · exact settles_pure _
    · exact haccepts _ _
  · split
    · exact settles_allM (settles_columnAccepted hask haccepts _) _
    · exact settles_pure _
  · refine (haccepts _ _).bind fun output => ?_
    split
    · split
      · exact settles_allM (fun _ => settles_inputsAgree haccepts _ _) _
      · exact settles_pure _
    · exact settles_pure _
  · exact settles_pure _
  · exact settles_pure _
  · exact settles_pure _

/-- A comparison of types, in terms of the comparisons that it asks for. -/
def Ty.acceptsStep (ask : Ask) (accepts : Ty → Ty → Query Bool) (expected given : Ty) :
    Query Bool :=
  if expected.isOpen || given.isOpen then pure true
  else
    match given with
    | .union members => members.allM (accepts expected)
    | _ =>
      match expected with
      | .union members => members.anyM (accepts · given)
      | _ =>
        if expected.isName || given.isName then acceptsNamed accepts expected given
        else acceptsForm ask accepts expected given

theorem settles_acceptsStep (expected given : Ty) :
    (expected.acceptsStep ask accepts given).Settles
      (expected.acceptsStep ask' accepts' given) := by
  unfold Ty.acceptsStep
  split
  · exact settles_pure _
  · split
    · exact settles_allM (fun member => haccepts expected member) _
    · split
      · exact settles_anyM (fun member => haccepts member given) _
      · split
        · exact settles_acceptsNamed haccepts _ _
        · exact settles_acceptsForm hask haccepts _ _

end Accepts

include hask

/-- By induction on the smaller budget, as one unit is spent on every comparison within. -/
theorem settles_accepts {budget budget' : Nat} (hle : budget ≤ budget') (expected given : Ty) :
    (expected.acceptsWith ask budget given).Settles
      (expected.acceptsWith ask' budget' given) := by
  induction budget generalizing budget' expected given with
  | zero => exact settles_outOfBudget _
  | succ budget ih =>
    obtain ⟨more, rfl⟩ : ∃ more, budget' = more + 1 := ⟨budget' - 1, by omega⟩
    exact settles_acceptsStep hask (fun expected given => ih (by omega) expected given) _ _

theorem settles_compatible {budget budget' : Nat} (hle : budget ≤ budget') (a b : Ty) :
    (a.compatibleWith ask budget b).Settles (a.compatibleWith ask' budget' b) := by
  unfold Ty.compatibleWith
  refine (settles_accepts hask hle a b).bind fun there => ?_
  split
  · exact settles_accepts hask hle b a
  · exact settles_pure _

omit hask

section Unions

variable {compatible compatible' : Ty → Ty → Query Bool}
  (hcompatible : ∀ a b, (compatible a b).Settles (compatible' a b))

include hcompatible

theorem settles_joinMember (members : List Ty) (ty : Ty) :
    (joinMember compatible members ty).Settles (joinMember compatible' members ty) := by
  unfold joinMember
  refine (settles_anyM (fun member => hcompatible member ty) _).bind fun found => ?_
  split <;> exact settles_pure _

theorem settles_joinType (members : List Ty) (ty : Ty) :
    (joinType compatible members ty).Settles (joinType compatible' members ty) := by
  unfold joinType
  split
  · exact settles_foldlM (settles_joinMember hcompatible) _ _
  · exact settles_joinMember hcompatible _ _

end Unions

/-! ## Substituting type variables -/

section Substitution

variable {answer answer' : String → Query (Option Ty)}

mutual

theorem settles_substitute (hanswer : ∀ name, (answer name).Settles (answer' name)) : ∀ ty : Ty,
    (ty.substituteM answer).Settles (ty.substituteM answer')
  | .var name => by
    unfold Ty.substituteM
    refine (hanswer name).bind fun found => ?_
    split <;> exact settles_pure _
  | .list item => (settles_substitute hanswer item).bind fun _ => settles_pure _
  | .function _ inputs output =>
    (settles_substituteInBinders hanswer inputs).bind fun _ =>
      (settles_substitute hanswer output).bind fun _ => settles_pure _
  | .table columns => (settles_substituteInBinders hanswer columns).bind fun _ => settles_pure _
  | .struct _ args => (settles_substituteInTys hanswer args).bind fun _ => settles_pure _
  | .structDef _ args => (settles_substituteInTys hanswer args).bind fun _ => settles_pure _
  | .union members => (settles_substituteInTys hanswer members).bind fun _ => settles_pure _
  | .number _ | .text _ | .boolean | .name _ | .any | .unknown .. => settles_pure _

theorem settles_substituteInTys (hanswer : ∀ name, (answer name).Settles (answer' name)) :
    ∀ tys : List Ty, (substituteInTysM answer tys).Settles (substituteInTysM answer' tys)
  | [] => settles_pure _
  | t :: rest =>
    (settles_substitute hanswer t).bind fun _ =>
      (settles_substituteInTys hanswer rest).bind fun _ => settles_pure _

theorem settles_substituteInBinder (hanswer : ∀ name, (answer name).Settles (answer' name)) :
    ∀ b : Binder, (b.substituteM answer).Settles (b.substituteM answer')
  | ⟨_, _, ty, _, _⟩ => (settles_substituteInTy? hanswer ty).bind fun _ => settles_pure _

theorem settles_substituteInBinders (hanswer : ∀ name, (answer name).Settles (answer' name)) :
    ∀ bs : List Binder,
      (substituteInBindersM answer bs).Settles (substituteInBindersM answer' bs)
  | [] => settles_pure _
  | b :: rest =>
    (settles_substituteInBinder hanswer b).bind fun _ =>
      (settles_substituteInBinders hanswer rest).bind fun _ => settles_pure _

theorem settles_substituteInTy? (hanswer : ∀ name, (answer name).Settles (answer' name)) :
    ∀ ty : Option Ty, (substituteInTyM? answer ty).Settles (substituteInTyM? answer' ty)
  | none => settles_pure _
  | some t => (settles_substitute hanswer t).bind fun _ => settles_pure _

end

end Substitution

/-! ## Calls -/

include hask

theorem settles_typeFor (call : Call) (callee : Callee) (name : String) :
    (call.typeFor? ask callee name).Settles (call.typeFor? ask' callee name) := by
  have hreceiver : (receiverType? ask call.callee name).Settles
      (receiverType? ask' call.callee name) := by
    unfold receiverType?
    split
    · exact (hask _).bind fun _ => settles_pure _
    · exact settles_pure _
  have hargument : (argumentType? ask call callee name).Settles
      (argumentType? ask' call callee name) := by
    unfold argumentType?
    split
    · exact (hask _).bind fun _ => settles_pure _
    · exact settles_pure _
  unfold Call.typeFor?
  split
  · exact (settles_resolved _).map
  · refine hreceiver.bind fun found => ?_
    split
    · exact settles_pure _
    · exact hargument

theorem settles_instantiate (call : Call) (callee : Callee) (ty : Ty) :
    (call.instantiate ask callee ty).Settles (call.instantiate ask' callee ty) :=
  settles_substitute (settles_typeFor hask call callee) ty

theorem settles_structArgs (call : Call) (callee : Callee) (vars : List TypeVariable) :
    (call.structArgs ask callee vars).Settles (call.structArgs ask' callee vars) := by
  induction vars with
  | nil => exact settles_pure _
  | cons v rest ih =>
    exact (settles_typeFor hask call callee _).bind fun _ => ih.bind fun _ => settles_pure _

theorem settles_output (call : Call) :
    (call.outputWith ask).Settles (call.outputWith ask') := by
  unfold Call.outputWith
  refine (hask call.callee).bind fun ty => ?_
  split
  · exact settles_instantiate hask call _ _
  · exact (settles_structArgs hask call _ _).bind fun _ => settles_pure _
  · exact settles_pure _

/-! ## Inferring types -/

theorem settles_listType {budget budget' : Nat} (hle : budget ≤ budget') (id : NodeId)
    (items : List Expr) :
    (listTypeWith ask budget id items).Settles (listTypeWith ask' budget' id items) := by
  unfold listTypeWith
  refine Settles.bind (settles_foldlM (fun members e => ?_) _ _) fun _ => settles_pure _
  exact (hask e).bind fun ty => settles_joinType (settles_compatible hask hle) members ty

theorem settles_accessType (id : NodeId) (subject : Expr) (member : String) :
    (accessTypeWith ask id subject member).Settles (accessTypeWith ask' id subject member) := by
  unfold accessTypeWith
  refine (hask subject).bind fun found => (settles_resolved found).bind fun ty => ?_
  split
  · exact (settles_memberType hask _ _ member).bind fun _ => settles_pure _
  · exact settles_pure _

theorem settles_referenceType (id : NodeId) (name : String) :
    (referenceTypeWith ask id name).Settles (referenceTypeWith ask' id name) := by
  unfold referenceTypeWith
  refine settles_read.bind fun ctx => ?_
  split
  · exact settles_definition hask _
  · exact settles_pure _

theorem settles_infer {budget budget' : Nat} (hle : budget ≤ budget') (e : Expr) :
    (e.inferWith ask budget).Settles (e.inferWith ask' budget') := by
  unfold Expr.inferWith
  split
  · exact settles_pure _
  · exact settles_pure _
  · exact settles_pure _
  · exact settles_listType hask hle _ _
  · split
    · exact settles_pure _
    · exact hask _
  · exact settles_output hask _
  · exact hask _
  · exact hask _
  · exact settles_referenceType hask _ _
  · exact settles_accessType hask _ _ _
  · split
    · exact (hask _).bind fun _ => (hask _).bind fun _ => settles_pure _
    · exact settles_pure _
  · exact settles_pure _
  · exact (hask _).bind fun _ => settles_pure _
  · exact settles_function hask _
  · exact settles_pure _
  · split
    · exact hask _
    · exact settles_pure _
  · exact settles_binder hask _
  · exact settles_pure _

omit hask

/-- Type queries settle, and a larger budget gives the same answers. -/
theorem settles_typeOf {budget budget' : Nat} (hle : budget ≤ budget') (e : Expr) :
    (e.typeOf budget).Settles (e.typeOf budget') := by
  induction budget generalizing budget' e with
  | zero => exact settles_outOfBudget _
  | succ budget ih =>
    obtain ⟨more, rfl⟩ : ∃ more, budget' = more + 1 := ⟨budget' - 1, by omega⟩
    have hmore : budget ≤ more := by omega
    exact settles_guarded e.id (settles_infer (fun inner => ih hmore inner) hmore e)

end Types

end Stepwise

import Mathlib.Data.List.Nodup
import Mathlib.Data.List.Perm.Subperm
import Mathlib.Order.WellFounded
import Stepwise.Proofs.Typing.Answers

/-!
# The states of a context

The states that a context can be in while queries about a program are answered.  `Memo.Known` says
how a memo comes about: it starts out empty, and changes when a query for an expression of the
program begins or ends.  `Context.Over` says which local names there can be: the columns of tables
that type queries have found.  Both are about all sequences of queries, so that what is proved of
them holds at any time.

Everything in such a state is made of the program.  What is remembered are answers for expressions
of the program, at most one for each, and their types are made of it (`Memo.Within`); the same goes
for the definitions behind local names (`Context.Over.within`).  Since memos only grow, there comes
a time when they do not change any more (`Memo.eventually_constant`).
-/

namespace Stepwise

open Query

/-! ## Memos within a program -/

/-- What is remembered are answers for the expressions, one for each at most, and made of them. -/
structure Memo.Within (memo : Memo) (es : List Expr) : Prop where
  nodup : memo.types.keys.Nodup
  known : ∀ id ∈ memo.types.keys, ∃ e ∈ es, e.id = id
  types : ∀ id ty, memo.types.find? id = some ty → ty.nested ⊆ es

section Within

variable {es : List Expr} {memo inner : Memo}

theorem Memo.within_empty : Memo.empty.Within es :=
  ⟨List.nodup_nil, fun _ h => (nomatch h), fun _ _ h => (nomatch h)⟩

theorem Memo.Within.enter (h : memo.Within es) (id : NodeId) : (memo.enter id).Within es :=
  ⟨h.nodup, h.known, h.types⟩

theorem Memo.Within.withVisiting (h : memo.Within es) (visits : List Visit) :
    Memo.Within { memo with visiting := visits } es :=
  ⟨h.nodup, h.known, h.types⟩

/-- Remembering an answer for a new expression. -/
theorem Memo.Within.insert {types : Assoc NodeId Ty} {visits : List Visit} {e : Expr} {ty : Ty}
    (h : Memo.Within { types := types, visiting := visits } es) (he : e.nested ⊆ es)
    (hty : ty.nested ⊆ es) (hnone : types.find? e.id = none) (visits' : List Visit) :
    Memo.Within { types := types.insert e.id ty, visiting := visits' } es := by
  have hkeys : (types.insert e.id ty).keys = types.keys ++ [e.id] := by
    rw [Assoc.keys, Assoc.entries_insert hnone, List.map_append]
    rfl
  have hnew : e.id ∉ types.keys := by
    intro hmem
    obtain ⟨⟨id, found⟩, hpair, hid⟩ := List.mem_map.1 hmem
    have hne := List.lookup_eq_none_iff.1 hnone _ hpair
    simp only at hid
    simp [hid] at hne
  refine ⟨?_, fun id hid => ?_, fun id found hfound => ?_⟩
  · rw [hkeys]
    refine List.nodup_append.2 ⟨h.nodup, List.nodup_singleton _, ?_⟩
    intro a ha b hb hab
    rw [List.mem_singleton.1 hb] at hab
    exact hnew (hab ▸ ha)
  · rw [hkeys] at hid
    rcases List.mem_append.1 hid with hold | hid
    · exact h.known id hold
    · exact ⟨e, he e.mem_nested_self, (List.mem_singleton.1 hid).symm⟩
  · rw [Assoc.find?_insert] at hfound
    split at hfound
    · obtain rfl := Option.some.inj hfound
      exact hty
    · exact h.types id found hfound

/-- The end of a query for a new expression. -/
theorem Memo.Within.leave {e : Expr} {ty : Ty} (h : inner.Within es) (he : e.nested ⊆ es)
    (hty : ty.nested ⊆ es) (hnone : memo.types.find? e.id = none)
    (hgrows : (memo.enter e.id).Grows inner) : (inner.leave ty).Within es := by
  have hinner : inner.types.find? e.id = none :=
    hgrows.pending ⟨e.id, memo.visiting.length⟩ (List.mem_cons_self ..) hnone
  obtain ⟨types, visiting⟩ := inner
  obtain ⟨v, outer, ⟨hv, -⟩, -, rfl⟩ := List.forall₂_cons_left_iff.1 hgrows.visits
  simp only at hv
  rw [Memo.leave]
  dsimp only
  split
  · exact h.withVisiting _
  · rw [hv]
    exact h.insert he hty hinner _

end Within

/-! ## Answers within a program -/

section Sound

variable {ctx : Context} {es : List Expr} {I : Memo → Prop} (hctx : ctx.Within es)

include hctx

/-- Whatever the budget, a comparison keeps what type queries keep. -/
theorem answers_acceptsWith {ask : Ask}
    (hask : ∀ e, e.nested ⊆ es → Answers False ctx I (fun _ => ask e) fun ty => ty.nested ⊆ es)
    (budget : Nat) {a b : Ty} (ha : a.nested ⊆ es) (hb : b.nested ⊆ es) :
    Answers False ctx I (fun _ => a.acceptsWith ask budget b) fun _ => True := by
  induction budget generalizing a b with
  | zero => exact ⟨fun _ h => (nomatch h), False.elim⟩
  | succ budget ih =>
    exact answers_acceptsStep hctx hask (fun a b ha hb => ih ha hb) ha hb

/-- Type queries answer types that are made of the program. -/
theorem answers_typeOf (budget : Nat) {e : Expr} (he : e.nested ⊆ es) :
    Answers False ctx (Memo.Within · es) (fun _ => e.typeOf budget) fun ty => ty.nested ⊆ es := by
  induction budget generalizing e with
  | zero => exact ⟨fun _ h => (nomatch h), False.elim⟩
  | succ budget ih =>
    refine ⟨fun {_ memo ty after} hmemo h => ?_, False.elim⟩
    rcases guarded_eq_some.1 h with ⟨hf, rfl⟩ | ⟨depth, -, -, rfl, rfl⟩ | ⟨inner, hf, -, hi, rfl⟩
    · exact ⟨hmemo.types _ _ hf, hmemo⟩
    · exact ⟨by simp [Ty.nested], hmemo.withVisiting _⟩
    · have hinfer : Answers False ctx (Memo.Within · es)
          (fun _ => e.inferWith (Expr.typeOf budget) budget) fun ty => ty.nested ⊆ es :=
        answers_infer hctx (fun e he => ih he)
          (fun a b ha hb => answers_acceptsWith hctx (fun e he => ih he) budget ha hb) he
      obtain ⟨hty, hinner⟩ := hinfer.gives (hmemo.enter e.id) ⟨0, hi⟩
      have hgrows := ((steady_infer e).settles (Nat.le_refl budget)).grows hi
      exact ⟨hty, hinner.leave he hty hf hgrows⟩

end Sound

/-! ## How a memo comes about -/

/-- The memos that there are in a context while queries about the expressions are answered. -/
inductive Memo.Known (ctx : Context) (es : List Expr) : Memo → Prop where
  | empty : Known ctx es .empty
  /-- A query begins for an expression without an answer that is not under way. -/
  | enter {memo : Memo} {e : Expr} (h : Known ctx es memo) (he : e.nested ⊆ es)
      (hnone : memo.types.find? e.id = none) (hnew : Memo.depthIn? e.id memo.visiting = none) :
      Known ctx es (memo.enter e.id)
  /-- A query has been answered. -/
  | after {memo after : Memo} {e : Expr} {ty : Ty} (h : Known ctx es memo) (he : e.nested ⊆ es)
      (hgives : Gives (fun n => e.typeOf n) ctx memo ty after) : Known ctx es after

/-- The contexts that there are over a lexicon while queries about the expressions are answered: the
lexicon alone, and what a query about a table operation sees. -/
inductive Context.Over (lexicon : Lexicon) (es : List Expr) : Context → Prop where
  | lexicon : Over lexicon es { lexicon := lexicon }
  | columns {ctx : Context} {memo after : Memo} {table : Expr} {ty : Ty} (h : Over lexicon es ctx)
      (hmemo : memo.Known ctx es) (htable : table.nested ⊆ es)
      (hgives : Gives (fun n => tableOperand n table) ctx memo ty after) :
      Over lexicon es (ctx.push (columnNames ty.columns))

section Known

variable {ctx : Context} {es : List Expr} {memo after : Memo}

theorem Memo.Known.within (hctx : ctx.Within es) (h : memo.Known ctx es) : memo.Within es := by
  induction h with
  | empty => exact Memo.within_empty
  | enter _ _ _ _ ih => exact ih.enter _
  | after _ he hgives ih =>
    obtain ⟨budget, hgives⟩ := hgives
    exact ((answers_typeOf hctx budget he).gives ih ⟨0, hgives⟩).2

/-- The answer of a type query, in any state, and the state that it leaves. -/
theorem Memo.Known.typeOf (hctx : ctx.Within es) (h : memo.Known ctx es) {e : Expr} {ty : Ty}
    (he : e.nested ⊆ es) (hgives : Gives (fun n => e.typeOf n) ctx memo ty after) :
    ty.nested ⊆ es ∧ after.Known ctx es := by
  refine ⟨?_, h.after he hgives⟩
  obtain ⟨budget, hgives⟩ := hgives
  exact ((answers_typeOf hctx budget he).gives (h.within hctx) ⟨0, hgives⟩).1

/-- Type queries lead from known states to known states. -/
theorem answers_typeOf_known (hctx : ctx.Within es) (budget : Nat) {e : Expr}
    (he : e.nested ⊆ es) :
    Answers False ctx (Memo.Known ctx es) (fun _ => e.typeOf budget) fun ty => ty.nested ⊆ es :=
  ⟨fun hmemo h => hmemo.typeOf hctx he ⟨budget, h⟩, False.elim⟩

/-- Comparisons lead from known states to known states. -/
theorem Memo.Known.accepts (hctx : ctx.Within es) (h : memo.Known ctx es) {a b : Ty}
    (ha : a.nested ⊆ es) (hb : b.nested ⊆ es) {accepted : Bool}
    (hgives : Gives (fun n => a.accepts n b) ctx memo accepted after) : after.Known ctx es := by
  obtain ⟨budget, hgives⟩ := hgives
  have hanswers := answers_acceptsWith hctx
    (fun e he => answers_typeOf_known hctx budget he) budget ha hb
  exact (hanswers.gives h ⟨0, hgives⟩).2

/-- What a query about a table operation sees is made of the program. -/
theorem nested_columnNames {columns : List Binder} (h : nestedInBinders columns ⊆ es)
    {name : String} {d : Definition} (hd : (name, d) ∈ columnNames columns) : d.nested ⊆ es := by
  obtain ⟨column, hcolumn, hmem⟩ := List.mem_flatMap.1 hd
  obtain ⟨other, -, heq⟩ := List.mem_map.1 hmem
  obtain ⟨-, rfl⟩ := Prod.mk.inj heq
  exact nestedInBinders_subset.1 h column hcolumn

theorem Ty.nested_columns {ty : Ty} (h : ty.nested ⊆ es) : nestedInBinders ty.columns ⊆ es := by
  cases ty with
  | table columns => exact h
  | _ => exact List.nil_subset _

theorem Context.Over.within {lexicon : Lexicon}
    (hlexicon : ∀ name d, lexicon.find? name = some d → d.nested ⊆ es)
    (h : ctx.Over lexicon es) : ctx.Within es := by
  induction h with
  | lexicon => exact fun name d hd => hlexicon name d (by simpa [Context.find?] using hd)
  | @columns ctx memo after table ty _ hmemo htable hgives ih =>
    refine ih.push fun name d hd => ?_
    obtain ⟨budget, hgives⟩ := hgives
    have hoperand : Answers False ctx (Memo.Known ctx es) (fun _ => tableOperand budget table)
        fun ty => ty.nested ⊆ es :=
      (answers_typeOf_known ih budget htable).bind fun ty hty => answers_resolved ih hty
    have hty := (hoperand.gives hmemo ⟨0, hgives⟩).1
    exact nested_columnNames (Ty.nested_columns hty) hd

end Known

/-! ## Memos come to rest

Each answer is added once and each query under way comes to depend on outer queries only so far, so
a memo cannot change for ever. -/

namespace Memo

variable {es : List Expr} {memo after : Memo}

/-- No more answers are remembered than there are expressions. -/
theorem Within.size_le (h : memo.Within es) : memo.types.size ≤ es.length := by
  have hsubset : memo.types.keys ⊆ es.map Expr.id := by
    intro id hid
    obtain ⟨e, he, rfl⟩ := h.known id hid
    exact List.mem_map_of_mem he
  have hle := (List.subperm_of_subset h.nodup hsubset).length_le
  simpa only [Assoc.keys, List.length_map, Assoc.size] using hle

/-- The sum of the depths on which the queries under way depend. -/
def depths : List Visit → Nat
  | [] => 0
  | v :: outer => v.dependsOn + depths outer

theorem depths_le {visits visits' : List Visit} (h : List.Forall₂ Deepens visits visits') :
    depths visits' ≤ depths visits := by
  induction h with
  | nil => exact Nat.le_refl _
  | cons hv _ ih =>
    have hle := hv.2
    simp only [depths] at ih ⊢
    omega

theorem eq_of_depths_le {visits visits' : List Visit} (h : List.Forall₂ Deepens visits visits')
    (hle : depths visits ≤ depths visits') : visits' = visits := by
  induction h with
  | nil => rfl
  | @cons v w outer outer' hv houter ih =>
    have hdepth := hv.2
    have hrest := depths_le houter
    simp only [depths] at ih hrest hle
    have hw : w = v := by
      obtain ⟨id, depth⟩ := v
      obtain ⟨id', depth'⟩ := w
      simp only [Visit.mk.injEq] at hv hdepth hle ⊢
      exact ⟨hv.1, by omega⟩
    rw [hw, ih (by omega)]

/-- How much a memo within the expressions may still change. -/
def slack (memo : Memo) (es : List Expr) : Nat :=
  (es.length - memo.types.size) + depths memo.visiting

/-- A memo that has used up none of its slack has not changed. -/
theorem Grows.eq_of_slack_le (h : memo.Grows after) (hafter : after.Within es)
    (hle : memo.slack es ≤ after.slack es) : after = memo := by
  have hsize := h.entries.length_le
  have hdepths := depths_le h.visits
  have hbound := hafter.size_le
  unfold slack Assoc.size at hle
  unfold Assoc.size at hbound
  have hentries : memo.types.entries = after.types.entries :=
    h.entries.eq_of_length (by omega)
  have hvisiting : after.visiting = memo.visiting := eq_of_depths_le h.visits (by omega)
  obtain ⟨⟨entries⟩, visiting⟩ := memo
  obtain ⟨⟨entries'⟩, visiting'⟩ := after
  simp only at hentries hvisiting
  rw [hentries, hvisiting]

theorem Grows.antisymm (h : memo.Grows after) (h' : after.Grows memo) : after = memo := by
  have hentries : memo.types.entries = after.types.entries :=
    h.entries.eq_of_length (Nat.le_antisymm h.entries.length_le h'.entries.length_le)
  have hvisiting : after.visiting = memo.visiting := eq_of_depths_le h.visits (depths_le h'.visits)
  obtain ⟨⟨entries⟩, visiting⟩ := memo
  obtain ⟨⟨entries'⟩, visiting'⟩ := after
  simp only at hentries hvisiting
  rw [hentries, hvisiting]

/-- Of memos that grow out of each other all are the same from some point on. -/
theorem eventually_constant {f : Nat → Memo} (hwithin : ∀ i, (f i).Within es)
    (hgrows : ∀ i, (f i).Grows (f (i + 1))) :
    ∃ start, ∀ i, f (start + i) = f start := by
  -- The point is one where the slack is least.
  obtain ⟨start, hleast⟩ : ∃ start, ∀ i, (f start).slack es ≤ (f i).slack es :=
    ⟨_, fun i => Function.argmin_le (fun i => (f i).slack es) i⟩
  refine ⟨start, fun i => ?_⟩
  have hfrom : (f start).Grows (f (start + i)) := by
    induction i with
    | zero => exact .refl _
    | succ i ih => exact ih.trans (hgrows (start + i))
  exact hfrom.eq_of_slack_le (hwithin _) (hleast _)

end Memo

end Stepwise

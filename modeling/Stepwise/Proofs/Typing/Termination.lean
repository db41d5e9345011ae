import Stepwise.Proofs.Sample
import Stepwise.Proofs.Typing.Analysed
import Stepwise.Proofs.Typing.Cycle

/-!
# When queries end

Of all the recursions in type queries and analysis, only comparing types can fail to end.  A type
query does not begin while it is under way, and there are finitely many expressions to ask for; what
is left are the comparisons that it makes.  They may go on for ever, since the columns of a table
may have values in place of written types, and asking for their types may give the same table again.

`queries_end_iff` is the result: over a program all type queries, comparisons and analyses end if
and only if no comparison comes back to itself, and a comparison that does passes by such a column.
`selfColumn` is a program for which analysis does not end: a function yields a table with a column
that has a call of the function as its value.
-/

namespace Stepwise

open Query Relation

/-! ## Type queries end where comparisons do -/

/-- A memo that queries lead to, while queries for the nodes `ids` are under way. -/
def Memo.KnownAt (ctx : Context) (es : List Expr) (ids : List NodeId) (memo : Memo) : Prop :=
  memo.Known ctx es ∧ memo.visiting.map Visit.id = ids

/-- A steady query that ends answers in the strong sense. -/
theorem Query.Answers.of_ends {α : Type} {E : Prop} {ctx : Context} {I : Memo → Prop}
    {q : Nat → Query α} {P : α → Prop} (hq : Steady q) (hsound : Answers False ctx I q P)
    (hends : ∀ memo, I memo → Ends q ctx memo) : Answers E ctx I q P := by
  refine ⟨hsound.sound, fun _ memo hI => ?_⟩
  obtain ⟨a, after, hgives⟩ := hends memo hI
  obtain ⟨enough, h⟩ := hgives.enough hq
  exact ⟨enough, a, after, h⟩

/-- What holds with any queries under way holds in general. -/
theorem Query.Answers.of_knownAt {α : Type} {E : Prop} {ctx : Context} {es : List Expr}
    {q : Nat → Query α} {P : α → Prop}
    (h : ∀ ids, Answers E ctx (Memo.KnownAt ctx es ids) q P) :
    Answers E ctx (Memo.Known ctx es) q P := by
  refine ⟨fun {budget memo a after} hmemo heq => ?_, fun hE memo hmemo => ?_⟩
  · obtain ⟨hP, hafter⟩ := (h (memo.visiting.map Visit.id)).sound ⟨hmemo, rfl⟩ heq
    exact ⟨hP, hafter.1⟩
  · exact (h _).ends hE ⟨hmemo, rfl⟩

section Guard

variable {ctx : Context} {es : List Expr} (hctx : ctx.Within es)

include hctx

theorem answers_typeOf_at (ids : List NodeId) {e : Expr} (he : e.nested ⊆ es) :
    Answers False ctx (Memo.KnownAt ctx es ids) (fun n => e.typeOf n) fun ty => ty.nested ⊆ es := by
  refine ⟨fun hmemo heq => ?_, False.elim⟩
  obtain ⟨hty, hafter⟩ := hmemo.1.typeOf hctx he ⟨_, heq⟩
  have hgrows := Gives.grows (steady_typeOf e) ⟨_, heq⟩
  exact ⟨hty, hafter, hgrows.ids.trans hmemo.2⟩

theorem answers_accepts_at (ids : List NodeId) {a b : Ty} (ha : a.nested ⊆ es)
    (hb : b.nested ⊆ es) :
    Answers False ctx (Memo.KnownAt ctx es ids) (fun n => a.accepts n b) fun _ => True := by
  refine ⟨fun hmemo heq => ?_, False.elim⟩
  have hgrows := Gives.grows (steady_accepts a b) ⟨_, heq⟩
  exact ⟨trivial, hmemo.1.accepts hctx ha hb ⟨_, heq⟩, hgrows.ids.trans hmemo.2⟩

variable (hback : ∀ c : Comparison, c.Within es (Memo.Known ctx es) →
  ¬ TransGen (Comparison.Asks ctx) c c)

include hback

/-- Where type queries end and no comparison comes back to itself, comparisons end. -/
theorem accepts_ends {ids : List NodeId}
    (hask : ∀ e : Expr, e.nested ⊆ es →
      Answers True ctx (Memo.KnownAt ctx es ids) (fun n => e.typeOf n) fun ty => ty.nested ⊆ es)
    {a b : Ty} (ha : a.nested ⊆ es) (hb : b.nested ⊆ es) :
    Answers True ctx (Memo.KnownAt ctx es ids) (fun n => a.accepts n b) fun _ => True := by
  refine .of_ends (steady_accepts a b) (answers_accepts_at hctx ids ha hb) fun memo hmemo => ?_
  have haccepts (a b : Ty) (ha : a.nested ⊆ es) (hb : b.nested ⊆ es) :=
    answers_accepts_at hctx ids ha hb
  have hc : Comparison.Within es (Memo.KnownAt ctx es ids) ⟨a, b, memo⟩ := ⟨ha, hb, hmemo⟩
  have hacc := Comparison.acc_of_forall_not_transGen hctx
    (fun e he => (hask e he).weaken False.elim) haccepts (fun memo h => h.1.within hctx)
    (fun c hc => hback c ⟨hc.expected, hc.given, hc.memo.1⟩) hc
  exact Comparison.ends_of_acc hctx hask haccepts hacc hc

/-- Where no comparison comes back to itself, type queries end.  By induction on the number of
expressions that are not under way. -/
theorem typeOf_ends (ids : List NodeId) {e : Expr} (he : e.nested ⊆ es) :
    Answers True ctx (Memo.KnownAt ctx es ids) (fun n => e.typeOf n) fun ty => ty.nested ⊆ es := by
  induction hcount : (es.filter fun x => x.id ∉ ids).length using Nat.strong_induction_on
    generalizing ids e with
  | _ count ih =>
    refine .of_ends (steady_typeOf e) (answers_typeOf_at hctx ids he) fun memo hmemo => ?_
    cases hf : memo.types.find? e.id with
    | some ty => exact (gives_typeOf.2 (.inl ⟨hf, rfl⟩)).ends
    | none =>
      cases hd : Memo.depthIn? e.id memo.visiting with
      | some depth => exact (gives_typeOf.2 (.inr (.inl ⟨depth, hf, hd, rfl, rfl⟩))).ends
      | none =>
        have hnew : e.id ∉ ids := by
          rw [← hmemo.2, List.mem_map]
          rintro ⟨v, hv, hid⟩
          exact Memo.depthIn?_eq_none_iff.1 hd v hv hid
        have hfewer : (es.filter fun x => x.id ∉ e.id :: ids).length < count := by
          have hsplit : (es.filter fun x => x.id ∉ e.id :: ids) =
              (es.filter fun x => x.id ∉ ids).filter fun x => x.id ≠ e.id := by
            rw [List.filter_filter]
            refine List.filter_congr fun x _ => ?_
            simp [List.mem_cons, not_or]
          have hmem : e ∈ es.filter fun x => x.id ∉ ids :=
            List.mem_filter.2 ⟨he e.mem_nested_self, by simpa using hnew⟩
          rw [← hcount, hsplit]
          exact List.length_filter_lt_length_iff_exists.2 ⟨e, hmem, by simp⟩
        have hask (x : Expr) (hx : x.nested ⊆ es) := ih _ hfewer (e.id :: ids) hx rfl
        have hinfer := answers_infer hctx hask
          (fun a b ha hb => accepts_ends hctx hback hask ha hb) he
        have henter : (memo.enter e.id).KnownAt ctx es (e.id :: ids) :=
          ⟨hmemo.1.enter he hf hd, congrArg (e.id :: ·) hmemo.2⟩
        obtain ⟨enough, ty, inner, hty⟩ := hinfer.ends trivial henter
        exact (gives_typeOf.2 (.inr (.inr ⟨inner, hf, hd, ⟨enough, hty enough (Nat.le_refl _)⟩,
          rfl⟩))).ends

end Guard

/-! ## Whole programs -/

/-- The expressions nested in the definitions of a lexicon. -/
def Lexicon.nested (lexicon : Lexicon) : List Expr :=
  lexicon.entries.entries.flatMap fun entry => entry.2.nested

/-- The expressions of a program: those of its root, and those of all that its names stand for. -/
def expressionsOf (root : Expr) (lexicon : Lexicon) : List Expr :=
  root.nested ++ lexicon.nested

theorem Lexicon.nested_find {lexicon : Lexicon} {name : String} {d : Definition}
    (h : lexicon.find? name = some d) : d.nested ⊆ lexicon.nested := by
  obtain ⟨before, after, heq, -⟩ := List.lookup_eq_some_iff.1 h
  intro e he
  exact List.mem_flatMap.2 ⟨(name, d), by simp [heq], he⟩

theorem Context.Over.within_expressionsOf {root : Expr} {lexicon : Lexicon} {ctx : Context}
    (h : ctx.Over lexicon (expressionsOf root lexicon)) :
    ctx.Within (expressionsOf root lexicon) :=
  h.within fun _ _ hd =>
    List.Subset.trans (Lexicon.nested_find hd) (List.subset_append_right _ _)

/-- In this state of a context all type queries, all comparisons and the analysis end. -/
structure QueriesEnd (root : Expr) (lexicon : Lexicon) (ctx : Context) (memo : Memo) : Prop where
  typeOf : ∀ e : Expr, e.nested ⊆ expressionsOf root lexicon →
    Ends (fun n => e.typeOf n) ctx memo
  accepts : ∀ a b : Ty, a.nested ⊆ expressionsOf root lexicon →
    b.nested ⊆ expressionsOf root lexicon → Ends (fun n => a.accepts n b) ctx memo
  analyze : Ends (fun n => root.analyze n) ctx memo

theorem Query.Answers.ends_at {α : Type} {ctx : Context} {I : Memo → Prop} {q : Nat → Query α}
    {P : α → Prop} {memo : Memo} (h : Answers True ctx I q P) (hI : I memo) : Ends q ctx memo := by
  obtain ⟨enough, a, after, heq⟩ := h.ends trivial hI
  exact ⟨a, after, enough, heq enough (Nat.le_refl _)⟩

/-- Over a program everything ends in all states of all contexts if and only if there no comparison
comes back to itself; and one that does passes by a table with a column whose type has to be asked
for. -/
theorem queries_end_iff (root : Expr) (lexicon : Lexicon) :
    ((∀ ctx memo, Context.Over lexicon (expressionsOf root lexicon) ctx →
        Memo.Known ctx (expressionsOf root lexicon) memo → QueriesEnd root lexicon ctx memo) ↔
      ∀ ctx c, Context.Over lexicon (expressionsOf root lexicon) ctx →
        Comparison.Within (expressionsOf root lexicon)
          (Memo.Known ctx (expressionsOf root lexicon)) c →
        ¬ TransGen (Comparison.Asks ctx) c c) ∧
    ∀ ctx c, TransGen (Comparison.Asks ctx) c c → ∃ d, ReflTransGen (Comparison.Asks ctx) c d ∧
      ReflTransGen (Comparison.Asks ctx) d c ∧ d.AsksColumn := by
  have hroot : root.nested ⊆ expressionsOf root lexicon := List.subset_append_left _ _
  refine ⟨⟨fun hends ctx c hctx hc => ?_, fun hback ctx memo hctx hmemo => ?_⟩,
    fun ctx c hc => Comparison.exists_asksColumn hc⟩
  · have hend := (hends ctx c.memo hctx hc.memo).accepts _ _ hc.expected hc.given
    exact not_transGen_of_acc (Comparison.Ends.acc hend)
  · have hanswering : Answering True lexicon (expressionsOf root lexicon) := by
      refine ⟨fun hctx => hctx.within_expressionsOf, fun {ctx} hctx e he => ?_,
        fun {ctx} hctx a b ha hb => ?_⟩
      · exact .of_knownAt fun ids =>
          typeOf_ends hctx.within_expressionsOf (hback ctx · hctx) ids he
      · exact .of_knownAt fun ids => accepts_ends hctx.within_expressionsOf (hback ctx · hctx)
          (fun e he => typeOf_ends hctx.within_expressionsOf (hback ctx · hctx) ids he) ha hb
    exact ⟨fun e he => (hanswering.ask hctx e he).ends_at hmemo,
      fun a b ha hb => (hanswering.accepts hctx a b ha hb).ends_at hmemo,
      (answers_analyze hanswering hroot hctx).ends_at hmemo⟩

/-! ## A program that is never analysed -/

namespace SelfColumn

/-- The column `c`, which has a call of `f` as its value. -/
def column : Binder :=
  bindingOf 3 "c" (callOf 4 5 "f")

/-- The type of the tables that `f` yields. -/
def tableTy : Ty :=
  .table [column]

/-- A function `f` without inputs and body. -/
def function : Expr :=
  .function (functionOf 2 "f" [] (some tableTy) none)

/-- A choice between two calls of `f`. -/
def choice : Expr :=
  choiceOf 6 (booleanOf 7 true) (callOf 8 9 "f") (callOf 10 11 "f")

end SelfColumn

/-- A function that yields a table with a column that has a call of the function as its value, and a
choice between two calls of it. -/
def selfColumn : Program :=
  ⟨.block ⟨1⟩ [SelfColumn.function, SelfColumn.choice]⟩

namespace SelfColumn

/-- Where the program is analysed. -/
def context : Context :=
  { lexicon := selfColumn.lexicon }

/-- What is known when the two branches are compared. -/
def memo : Memo :=
  let functionTy : Ty := .function [] [] tableTy
  { types := ⟨[(⟨5⟩, functionTy), (⟨7⟩, .boolean), (⟨9⟩, functionTy), (⟨8⟩, tableTy),
      (⟨11⟩, functionTy), (⟨10⟩, tableTy)]⟩ }

/-- What is known when the column has been asked for too. -/
def memo' : Memo :=
  { types := ⟨memo.types.entries ++ [(⟨4⟩, tableTy)]⟩ }

theorem gives_column : Gives (fun n => column.typeOf n) context memo tableTy memo' :=
  ⟨20, rfl⟩

theorem gives_column_again : Gives (fun n => column.typeOf n) context memo' tableTy memo' :=
  ⟨20, rfl⟩

/-- Comparing the type of the tables with itself asks for the type of the column twice, and then
compares what it has found. -/
theorem asks_column {start mid after : Memo}
    (h : Gives (fun n => column.typeOf n) context start tableTy mid)
    (h' : Gives (fun n => column.typeOf n) context mid tableTy after) :
    Comparison.Asks context ⟨tableTy, tableTy, start⟩ ⟨tableTy, tableTy, after⟩ :=
  @Comparison.Asks.column context [] [] [column] column column tableTy tableTy start start mid after
    rfl (gives_pure.2 ⟨rfl, rfl⟩) rfl h h'

/-- The comparison comes back to itself as soon as the type of the column is known. -/
theorem comparison_never_ends : ¬ Comparison.Ends context ⟨tableTy, tableTy, memo⟩ := by
  intro hends
  have hknown := hends.acc.inv (asks_column gives_column gives_column_again)
  exact not_transGen_of_acc hknown (.single (asks_column gives_column_again gives_column_again))

/-- What analysis has asked for when it comes to comparing the branches. -/
def branchTypes (budget : Nat) : Query (Ty × Ty) := do
  let _ ← function.analyze budget
  let _ ← conditionConflict budget (booleanOf 7 true)
  let yesTy ← (callOf 8 9 "f").typeOf budget
  let noTy ← (callOf 10 11 "f").typeOf budget
  pure (yesTy, noTy)

theorem steady_branchTypes : Steady branchTypes :=
  ⟨fun hle => (settles_analyze hle _).bind fun _ => (settles_conditionConflict hle _).bind fun _ =>
    (settles_typeOf hle _).bind fun _ => (settles_typeOf hle _).bind fun _ => settles_pure _⟩

theorem gives_branchTypes : Gives branchTypes context .empty (tableTy, tableTy) memo :=
  ⟨20, rfl⟩

/-- The analysis of the program does not end, whatever the budget. -/
theorem never_analysed : ¬ Ends (fun n => selfColumn.conflicts n) context .empty := by
  rintro ⟨conflicts, after, budget, h⟩
  -- The block itself has no conflicts; its statements are analysed one after the other.
  obtain ⟨_, _, hblock, h⟩ := bind_eq_some.1 h
  obtain ⟨rfl, rfl⟩ := pure_eq_some.1 hblock
  obtain ⟨_, _, hstatements, -⟩ := bind_eq_some.1 h
  obtain ⟨_, _, hfunction, h⟩ := bind_eq_some.1 hstatements
  obtain ⟨_, _, hlast, -⟩ := bind_eq_some.1 h
  obtain ⟨_, _, hchoice, -⟩ := bind_eq_some.1 hlast
  -- The conflicts of the choice are those of its condition and of its branches.
  obtain ⟨_, _, hconflicts, -⟩ := bind_eq_some.1 hchoice
  obtain ⟨_, _, hcondition, h⟩ := bind_eq_some.1 hconflicts
  obtain ⟨_, _, hbranches, -⟩ := bind_eq_some.1 h
  obtain ⟨yesTy, _, hyes, hbranches⟩ := bind_eq_some.1 hbranches
  obtain ⟨noTy, last, hno, hbranches⟩ := bind_eq_some.1 hbranches
  have htypes : Gives branchTypes context .empty (yesTy, noTy) last :=
    ⟨budget, bind_eq_some.2 ⟨_, _, hfunction, bind_eq_some.2 ⟨_, _, hcondition,
      bind_eq_some.2 ⟨_, _, hyes, bind_eq_some.2 ⟨_, _, hno, rfl⟩⟩⟩⟩⟩
  obtain ⟨heq, rfl⟩ := gives_branchTypes.unique steady_branchTypes htypes
  obtain ⟨rfl, rfl⟩ := Prod.mk.inj heq
  obtain ⟨_, _, hcompatible, -⟩ := bind_eq_some.1 hbranches
  obtain ⟨accepted, mid, haccepts, -⟩ := bind_eq_some.1 hcompatible
  exact comparison_never_ends ⟨accepted, mid, budget, haccepts⟩

end SelfColumn

end Stepwise

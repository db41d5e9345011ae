import Stepwise.Proofs.Typing.States

/-!
# What analysis asks

Analysis is a sequence of type queries and comparisons, like finding a type is.  This module makes
the walk through its checks: where type queries and comparisons answer what is made of the program,
and where they end, so does analysis.

The query of a table operation is analysed in a context of its own, which is why the walk through
whole trees is made in all contexts over a lexicon at once (`Answering`).
-/

namespace Stepwise

open Query

section Checks

variable {E : Prop} {ctx : Context} {I : Memo → Prop} {es : List Expr} (hctx : ctx.Within es)
  (hask : ∀ e : Expr, e.nested ⊆ es →
    Answers E ctx I (fun n => e.typeOf n) fun ty => ty.nested ⊆ es)
  (haccepts : ∀ a b : Ty, a.nested ⊆ es → b.nested ⊆ es →
    Answers E ctx I (fun n => a.accepts n b) fun _ => True)

include haccepts

/-- Most checks report one conflict unless one type accepts another. -/
theorem answers_unlessAccepts {expected given : Ty} (he : expected.nested ⊆ es)
    (hg : given.nested ⊆ es) (conflicts : List Conflict) :
    Answers E ctx I (fun n => do
      if ← expected.accepts n given then pure [] else pure conflicts) fun _ => True := by
  refine (haccepts expected given he hg).bind fun accepted _ => ?_
  cases accepted <;> exact answers_pure trivial

theorem answers_operandConflict {expected given : Ty} (he : expected.nested ⊆ es)
    (hg : given.nested ⊆ es) (symbol : String) (operand : Expr) :
    Answers E ctx I (fun n => operandConflict n symbol expected given operand) fun _ => True :=
  answers_unlessAccepts haccepts he hg _

theorem answers_operationConflicts {leftTy rightTy : Ty} (hl : leftTy.nested ⊆ es)
    (hr : rightTy.nested ⊆ es) (op : BinaryOperator) (left right : Expr) :
    Answers E ctx I (fun n => operationConflicts n op left right leftTy rightTy) fun _ => True := by
  have hnumber : Ty.anyNumber.nested ⊆ es := List.nil_subset _
  have hboolean : Ty.boolean.nested ⊆ es := List.nil_subset _
  have hright : (rightOperandType op leftTy).nested ⊆ es := by
    cases op <;> first | exact hl | exact List.nil_subset _
  have hboth : Answers E ctx I (fun n => do
      let own ← operandConflict n op.symbol .boolean leftTy left
      let others ← operandConflict n op.symbol .boolean rightTy right
      pure (own ++ others)) fun _ => True :=
    (answers_operandConflict haccepts hboolean hl _ _).bind fun _ _ =>
      (answers_operandConflict haccepts hboolean hr _ _).bind fun _ _ => answers_pure trivial
  cases op with
  | equal | notEqual => exact answers_pure trivial
  | and | or => exact hboth
  | _ =>
    refine (answers_operandConflict haccepts hnumber hl _ _).bind fun found _ => ?_
    cases found with
    | nil => exact answers_operandConflict haccepts hright hr _ _
    | cons => exact answers_pure trivial

include hask

theorem answers_queryConflict {query : Expr} (h : query.nested ⊆ es) :
    Answers E ctx I (fun n => queryConflict n query) fun _ => True := by
  refine (hask query h).bind fun ty hty => ?_
  split
  · exact answers_pure trivial
  · exact answers_unlessAccepts haccepts (List.nil_subset _) hty _

theorem answers_conditionConflict {condition : Expr} (h : condition.nested ⊆ es) :
    Answers E ctx I (fun n => conditionConflict n condition) fun _ => True := by
  refine (hask condition h).bind fun ty hty => ?_
  split
  · exact answers_pure trivial
  · exact answers_unlessAccepts haccepts (List.nil_subset _) hty _

theorem answers_branchConflict {yes no : Expr} (hy : yes.nested ⊆ es) (hn : no.nested ⊆ es) :
    Answers E ctx I (fun n => branchConflict n yes no) fun _ => True := by
  unfold branchConflict
  split
  · exact answers_pure trivial
  · refine (hask yes hy).bind fun yesTy hyes => (hask no hn).bind fun noTy hno => ?_
    split
    · exact answers_pure trivial
    · refine (answers_compatible haccepts hyes hno).bind fun agree _ => ?_
      cases agree <;> exact answers_pure trivial

theorem answers_binaryConflicts {left right : Expr} (hl : left.nested ⊆ es)
    (hr : right.nested ⊆ es) (op : BinaryOperator) :
    Answers E ctx I (fun n => binaryConflicts n op left right) fun _ => True := by
  refine (hask left hl).bind fun leftTy hleft => (hask right hr).bind fun rightTy hright => ?_
  split
  · exact answers_pure trivial
  · exact answers_operationConflicts haccepts hleft hright op left right

theorem answers_unaryConflicts {operand : Expr} (h : operand.nested ⊆ es) (op : UnaryOperator) :
    Answers E ctx I (fun n => unaryConflicts n op operand) fun _ => True := by
  have hoperand : op.operandType.nested ⊆ es := by cases op <;> exact List.nil_subset _
  refine (hask operand h).bind fun ty hty => ?_
  split
  · exact answers_pure trivial
  · exact answers_operandConflict haccepts hoperand hty _ _

/-! ## Calls -/

theorem answers_checkArgument {expected : Ty} {argument : Expr} (ha : argument.nested ⊆ es)
    (he : expected.nested ⊆ es) (input : Binder) :
    Answers E ctx I (fun n => checkArgument n input argument expected) fun _ => True := by
  have hvalue := nested_argumentValue ha
  unfold checkArgument
  split
  · exact answers_pure trivial
  · exact (hask _ hvalue).bind fun given hg => answers_unlessAccepts haccepts he hg _

theorem answers_checkRequired {expected : Ty} {argument : Expr} (ha : argument.nested ⊆ es)
    (he : expected.nested ⊆ es) (input : Binder) :
    Answers E ctx I (fun n => checkRequired n input argument expected) fun _ => True := by
  unfold checkRequired
  split
  · split
    · exact answers_checkArgument hask haccepts ha he input
    · exact answers_pure trivial
  · exact answers_checkArgument hask haccepts ha he input

theorem answers_checkRest {expected : Ty} {arguments : List Expr}
    (ha : ∀ e ∈ arguments, e.nested ⊆ es) (he : expected.nested ⊆ es) (input : Binder) :
    Answers E ctx I (fun n => checkRest n input expected arguments) fun _ => True := by
  induction arguments with
  | nil => exact answers_pure trivial
  | cons argument rest ih =>
    obtain ⟨hargument, hrest⟩ := List.forall_mem_cons.1 ha
    exact (answers_checkArgument hask haccepts hargument he input).bind fun _ _ =>
      (ih hrest).bind fun _ _ => answers_pure trivial

include hctx

theorem answers_checkInputs {call : Call} {inputs : List Binder} {pool : List Expr}
    (hcall : call.nested ⊆ es) (callee : Callee) (hi : ∀ b ∈ inputs, b.nested ⊆ es)
    (hp : ∀ e ∈ pool, e.nested ⊆ es) :
    Answers E ctx I (fun n => checkInputs n call callee inputs pool) fun _ => True := by
  induction inputs generalizing pool with
  | nil => exact answers_pure trivial
  | cons input inputs ih =>
    obtain ⟨hinput, hinputs⟩ := List.forall_mem_cons.1 hi
    have hleft : ∀ e ∈ (takeFor input pool).2, e.nested ⊆ es := fun e he => hp e (mem_of_takeFor he)
    have htaken : ∀ e ∈ (takeFor input pool).1.arguments, e.nested ⊆ es :=
      fun e he => hp e (mem_of_taken he)
    have hothers := ih hinputs hleft
    unfold checkInputs
    refine (answers_binder hctx hask hinput).bind fun declared hdeclared => ?_
    refine (answers_instantiate hctx hask hcall callee hdeclared).bind fun expected hexpected => ?_
    dsimp only
    cases ht : (takeFor input pool).1 with
    | nothing =>
      dsimp only
      split
      · exact answers_pure trivial
      · exact hothers
    | argument e =>
      have he : e.nested ⊆ es := htaken e (by simp [ht, Taken.arguments])
      dsimp only
      split
      · exact (answers_checkRequired hask haccepts he hexpected input).bind fun _ _ =>
          hothers.bind fun _ _ => answers_pure trivial
      · exact (answers_checkArgument hask haccepts he hexpected input).bind fun _ _ =>
          hothers.bind fun _ _ => answers_pure trivial
    | rest arguments =>
      have harguments : ∀ e ∈ arguments, e.nested ⊆ es := by
        simpa [ht, Taken.arguments] using htaken
      have hitem : (itemOf expected).nested ⊆ es := by
        cases expected <;> exact hexpected
      exact (answers_checkRest hask haccepts harguments hitem input).bind fun _ _ =>
        hothers.bind fun _ _ => answers_pure trivial

theorem answers_callConflicts {call : Call} (hcall : call.nested ⊆ es) :
    Answers E ctx I (fun n => call.conflicts n) fun _ => True := by
  obtain ⟨-, hcallee, hinputs⟩ := Call.nested_subset.1 hcall
  unfold Call.conflicts
  split
  · exact answers_pure trivial
  · refine (hask call.callee hcallee).bind fun ty hty => ?_
    cases hc : Callee.ofTy? ty with
    | none => exact answers_pure trivial
    | some callee =>
      dsimp only
      split
      · split
        · exact answers_checkInputs hctx hask haccepts hcall callee (Callee.nested_inputs hty hc)
            hinputs
        · exact answers_pure trivial
      · exact answers_pure trivial

omit haccepts

theorem answers_accessConflicts {subject : Expr} (h : subject.nested ⊆ es) (id : NodeId)
    (member : String) :
    Answers E ctx I (fun n => accessConflicts n id subject member) fun _ => True := by
  refine (hask subject h).bind fun found hfound => ?_
  refine (answers_resolved hctx hfound).bind fun ty hty => ?_
  cases ty with
  | struct definition args =>
    simp only [Ty.nested, List.append_subset, nestedInTys_subset] at hty
    refine (answers_memberType hctx hask hty.1 hty.2 member).bind fun declared _ => ?_
    cases declared <;> exact answers_pure trivial
  | _ => exact answers_pure trivial

/-! ## Tables -/

theorem answers_tableOperand {table : Expr} (h : table.nested ⊆ es) :
    Answers E ctx I (fun n => tableOperand n table) fun ty => ty.nested ⊆ es :=
  (hask table h).bind fun _ hty => answers_resolved hctx hty

theorem answers_tableConflict {table : Expr} (h : table.nested ⊆ es) :
    Answers E ctx I (fun n => tableConflict n table) fun _ => True := by
  unfold tableConflict
  split
  · exact answers_pure trivial
  · refine (answers_tableOperand hctx hask h).bind fun ty _ => ?_
    cases ty <;> exact answers_pure trivial

include haccepts

theorem answers_cellConflict {columns : List Binder} {cell : Binder}
    (hcolumns : nestedInBinders columns ⊆ es) (hcell : cell.nested ⊆ es) :
    Answers E ctx I (fun n => cellConflict n columns cell) fun _ => True := by
  unfold cellConflict
  cases hf : columns.find? (·.sharesName cell) with
  | none => exact answers_pure trivial
  | some column =>
    have hcolumn : column.nested ⊆ es :=
      nestedInBinders_subset.1 hcolumns column (List.mem_of_find?_eq_some hf)
    cases hv : cell.value with
    | none => exact answers_pure trivial
    | some value =>
      have hvalue : value.nested ⊆ es := (Binder.nested_subset.1 hcell).2 value hv
      dsimp only
      split
      · exact answers_pure trivial
      · refine (answers_binder hctx hask hcolumn).bind fun expected he => ?_
        refine (hask value hvalue).bind fun given hg => ?_
        split
        · exact answers_pure trivial
        · exact answers_unlessAccepts haccepts he hg _

theorem answers_cellConflicts {columns cells : List Binder}
    (hcolumns : nestedInBinders columns ⊆ es) (hcells : ∀ cell ∈ cells, cell.nested ⊆ es) :
    Answers E ctx I (fun n => cellConflicts n columns cells) fun _ => True := by
  induction cells with
  | nil => exact answers_pure trivial
  | cons cell cells ih =>
    obtain ⟨hcell, hcells⟩ := List.forall_mem_cons.1 hcells
    exact (answers_cellConflict hctx hask haccepts hcolumns hcell).bind fun _ _ =>
      (ih hcells).bind fun _ _ => answers_pure trivial

theorem answers_insertConflicts {table : Expr} {cells : List Binder} (htable : table.nested ⊆ es)
    (hcells : ∀ cell ∈ cells, cell.nested ⊆ es) :
    Answers E ctx I (fun n => insertConflicts n table cells) fun _ => True := by
  refine (answers_tableConflict hctx hask htable).bind fun own _ => ?_
  refine (answers_tableOperand hctx hask htable).bind fun ty hty => ?_
  cases ty with
  | table columns =>
    exact (answers_cellConflicts hctx hask haccepts hty hcells).bind fun _ _ => answers_pure trivial
  | _ => exact answers_pure trivial

end Checks

/-! ## Whole trees -/

/-- In all contexts over the lexicon queries about the expressions answer what is made of them, and
if `E` holds they end. -/
structure Answering (E : Prop) (lexicon : Lexicon) (es : List Expr) : Prop where
  within : ∀ {ctx}, Context.Over lexicon es ctx → ctx.Within es
  ask : ∀ {ctx}, Context.Over lexicon es ctx → ∀ e : Expr, e.nested ⊆ es →
    Answers E ctx (Memo.Known ctx es) (fun n => e.typeOf n) fun ty => ty.nested ⊆ es
  accepts : ∀ {ctx}, Context.Over lexicon es ctx → ∀ a b : Ty, a.nested ⊆ es → b.nested ⊆ es →
    Answers E ctx (Memo.Known ctx es) (fun n => a.accepts n b) fun _ => True

section Trees

variable {E : Prop} {lexicon : Lexicon} {es : List Expr} (h : Answering E lexicon es)

theorem Query.Answers.andThen {ctx : Context} {I : Memo → Prop}
    {first second : Nat → Query (List Conflict)} (hfirst : Answers E ctx I first fun _ => True)
    (hsecond : Answers E ctx I second fun _ => True) :
    Answers E ctx I (fun n => (first n).andThen (second n)) fun _ => True :=
  hfirst.bind fun _ _ => hsecond.bind fun _ _ => answers_pure trivial

include h

/-- A query about a table operation runs in a context over the lexicon. -/
theorem answers_inQueryOf {ctx : Context} (hctx : ctx.Over lexicon es) {table : Expr}
    (htable : table.nested ⊆ es) {q : Nat → Query (List Conflict)}
    (hq : ∀ {ctx}, Context.Over lexicon es ctx →
      Answers E ctx (Memo.Known ctx es) q fun _ => True) :
    Answers E ctx (Memo.Known ctx es) (fun n => inQueryOf n table (q n)) fun _ => True := by
  have hoperand : Answers E ctx (Memo.Known ctx es) (fun n => tableOperand n table)
      fun ty => Context.Over lexicon es (ctx.push (columnNames ty.columns)) := by
    have hwalk := answers_tableOperand (h.within hctx) (h.ask hctx) htable
    refine ⟨fun {budget memo ty after} hmemo heq => ⟨?_, (hwalk.sound hmemo heq).2⟩, hwalk.ends⟩
    exact hctx.columns hmemo htable ⟨budget, heq⟩
  refine hoperand.bind fun ty hover => ⟨fun hmemo heq => ?_, fun hE memo hmemo => ?_⟩
  · obtain ⟨rfl, -⟩ := inScope_eq_some.1 heq
    exact ⟨trivial, hmemo⟩
  · obtain ⟨enough, found, after, hfound⟩ := (hq hover).ends hE .empty
    exact ⟨enough, found, memo, fun budget hle => inScope_eq_some.2 ⟨rfl, after, hfound budget hle⟩⟩

theorem answers_conflicts {ctx : Context} (hctx : ctx.Over lexicon es) {e : Expr}
    (he : e.nested ⊆ es) :
    Answers E ctx (Memo.Known ctx es) (fun n => e.conflicts n) fun _ => True := by
  have hwithin := h.within hctx
  have hask := h.ask hctx
  have haccepts := h.accepts hctx
  cases e with
  | conditional id condition question yes no =>
    simp only [Expr.nested, List.cons_subset, List.append_subset] at he
    exact (answers_conditionConflict hask haccepts he.2.1.1).bind fun _ _ =>
      (answers_branchConflict hask haccepts he.2.1.2 he.2.2).bind fun _ _ => answers_pure trivial
  | call c =>
    simp only [Expr.nested, List.cons_subset] at he
    exact answers_callConflicts hwithin hask haccepts he.2
  | delete id table mark query =>
    simp only [Expr.nested, List.cons_subset, List.append_subset] at he
    exact (answers_tableConflict hwithin hask he.2.1).bind fun _ _ =>
      (answers_inQueryOf h hctx he.2.1 fun hover =>
        answers_queryConflict (h.ask hover) (h.accepts hover) he.2.2).bind
          fun _ _ => answers_pure trivial
  | insert id table mark cells =>
    simp only [Expr.nested, List.cons_subset, List.append_subset, nestedInBinders_subset] at he
    exact answers_insertConflicts hwithin hask haccepts he.2.1 he.2.2
  | reference id name =>
    refine answers_read.bind fun found _ => ?_
    cases found.find? name.text <;> exact answers_pure trivial
  | access id subject dot name =>
    simp only [Expr.nested, List.cons_subset] at he
    exact answers_accessConflicts hwithin hask he.2 id name.text
  | binary id left mark op right =>
    simp only [Expr.nested, List.cons_subset, List.append_subset] at he
    exact answers_binaryConflicts hask haccepts he.2.1 he.2.2 op
  | unary id mark op operand =>
    simp only [Expr.nested, List.cons_subset] at he
    exact answers_unaryConflicts hask haccepts he.2 op
  | _ => exact answers_pure trivial

theorem analysisClosed_answers :
    AnalysisClosed es fun q _ => ∀ {ctx}, Context.Over lexicon es ctx →
      Answers E ctx (Memo.Known ctx es) q fun _ => True where
  found _ _ _ := answers_pure trivial
  own _ he _ hctx := answers_conflicts h hctx he
  andThen hfirst hsecond _ hctx := (hfirst hctx).andThen (hsecond hctx)
  inQueryOf htable hquery _ hctx := answers_inQueryOf h hctx htable hquery

/-- Analysis answers, of every part of the program and in every context over the lexicon. -/
theorem answers_analyze {e : Expr} (he : e.nested ⊆ es) {ctx : Context}
    (hctx : ctx.Over lexicon es) :
    Answers E ctx (Memo.Known ctx es) (fun n => e.analyze n) fun _ => True :=
  (analysisClosed_answers h).expr he hctx

end Trees

end Stepwise

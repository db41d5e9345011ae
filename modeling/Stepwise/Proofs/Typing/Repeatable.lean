import Stepwise.Proofs.Sample
import Stepwise.Proofs.Typing.Gathering
import Stepwise.Proofs.Typing.Settling
import Stepwise.Program

/-!
# Analysis and lowering are repeatable

Analysis and lowering change the memo as type queries do, and inside a cycle of declarations they
meet provisional answers.  They settle nevertheless, since both are sequences of queries that
settle: each conflict check and each piece of code looks at answers of outermost queries alone.

`analyzes_and_lowers_again` is the result: from any memo between queries, analysing a second time
finds the same conflicts in the same order, and lowering a second time gives the same code.
-/

namespace Stepwise

open Query

section Checks

variable {budget budget' : Nat} (hle : budget ≤ budget')

include hle

theorem settles_binderType (b : Binder) : (b.typeOf budget).Settles (b.typeOf budget') :=
  settles_binder (settles_typeOf hle) b

theorem settles_member (s : StructDef) (args : List Ty) (name : String) :
    (s.memberTypeOf budget args name).Settles (s.memberTypeOf budget' args name) :=
  settles_memberType (settles_typeOf hle) s args name

theorem settles_acceptsType (expected given : Ty) :
    (expected.accepts budget given).Settles (expected.accepts budget' given) :=
  settles_accepts (settles_typeOf hle) hle expected given

theorem settles_compatibleTypes (a b : Ty) :
    (a.compatible budget b).Settles (a.compatible budget' b) :=
  settles_compatible (settles_typeOf hle) hle a b

/-- Most checks report one conflict unless one type accepts another. -/
theorem settles_unlessAccepts (expected given : Ty) (conflicts : List Conflict) :
    (do if ← expected.accepts budget given then pure [] else pure conflicts :
        Query (List Conflict)).Settles
      (do if ← expected.accepts budget' given then pure [] else pure conflicts) := by
  refine (settles_acceptsType hle expected given).bind fun accepted => ?_
  split <;> exact settles_pure _

/-! ## Tables -/

theorem settles_tableOperand (table : Expr) :
    (tableOperand budget table).Settles (tableOperand budget' table) :=
  (settles_typeOf hle table).bind settles_resolved

theorem settles_inQueryOf {α : Type} {q q' : Query α} (hq : q.Settles q') (table : Expr) :
    (inQueryOf budget table q).Settles (inQueryOf budget' table q') :=
  (settles_tableOperand hle table).bind fun _ => settles_inScope _ hq

theorem settles_tableConflict (table : Expr) :
    (tableConflict budget table).Settles (tableConflict budget' table) := by
  unfold tableConflict
  split
  · exact settles_pure _
  · refine (settles_tableOperand hle table).bind fun ty => ?_
    split <;> exact settles_pure _

theorem settles_queryConflict (query : Expr) :
    (queryConflict budget query).Settles (queryConflict budget' query) := by
  refine (settles_typeOf hle query).bind fun ty => ?_
  split
  · exact settles_pure _
  · exact settles_unlessAccepts hle _ _ _

theorem settles_cellConflict (columns : List Binder) (cell : Binder) :
    (cellConflict budget columns cell).Settles (cellConflict budget' columns cell) := by
  unfold cellConflict
  split
  · exact settles_pure _
  · split
    · exact settles_pure _
    · split
      · exact settles_pure _
      · refine (settles_binderType hle _).bind fun expected => ?_
        refine (settles_typeOf hle _).bind fun given => ?_
        split
        · exact settles_pure _
        · exact settles_unlessAccepts hle _ _ _

theorem settles_cellConflicts (columns cells : List Binder) :
    (cellConflicts budget columns cells).Settles (cellConflicts budget' columns cells) := by
  induction cells with
  | nil => exact settles_pure _
  | cons cell cells ih =>
    exact (settles_cellConflict hle columns cell).bind fun _ => ih.bind fun _ => settles_pure _

theorem settles_insertConflicts (table : Expr) (cells : List Binder) :
    (insertConflicts budget table cells).Settles (insertConflicts budget' table cells) := by
  refine (settles_tableConflict hle table).bind fun own => ?_
  refine (settles_tableOperand hle table).bind fun ty => ?_
  split
  · exact (settles_cellConflicts hle _ _).bind fun _ => settles_pure _
  · exact settles_pure _

/-! ## Conditionals and operators -/

theorem settles_conditionConflict (condition : Expr) :
    (conditionConflict budget condition).Settles (conditionConflict budget' condition) := by
  refine (settles_typeOf hle condition).bind fun ty => ?_
  split
  · exact settles_pure _
  · exact settles_unlessAccepts hle _ _ _

theorem settles_branchConflict (yes no : Expr) :
    (branchConflict budget yes no).Settles (branchConflict budget' yes no) := by
  unfold branchConflict
  split
  · exact settles_pure _
  · refine (settles_typeOf hle yes).bind fun yesTy => ?_
    refine (settles_typeOf hle no).bind fun noTy => ?_
    split
    · exact settles_pure _
    · refine (settles_compatibleTypes hle yesTy noTy).bind fun agree => ?_
      split <;> exact settles_pure _

theorem settles_operandConflict (symbol : String) (expected given : Ty) (operand : Expr) :
    (operandConflict budget symbol expected given operand).Settles
      (operandConflict budget' symbol expected given operand) :=
  settles_unlessAccepts hle _ _ _

theorem settles_operationConflicts (op : BinaryOperator) (left right : Expr)
    (leftTy rightTy : Ty) :
    (operationConflicts budget op left right leftTy rightTy).Settles
      (operationConflicts budget' op left right leftTy rightTy) := by
  unfold operationConflicts
  split
  · exact settles_pure _
  · exact settles_pure _
  · exact (settles_operandConflict hle _ _ _ _).bind fun _ =>
      (settles_operandConflict hle _ _ _ _).bind fun _ => settles_pure _
  · exact (settles_operandConflict hle _ _ _ _).bind fun _ =>
      (settles_operandConflict hle _ _ _ _).bind fun _ => settles_pure _
  · refine (settles_operandConflict hle _ _ _ _).bind fun found => ?_
    split
    · exact settles_operandConflict hle _ _ _ _
    · exact settles_pure _

theorem settles_binaryConflicts (op : BinaryOperator) (left right : Expr) :
    (binaryConflicts budget op left right).Settles (binaryConflicts budget' op left right) := by
  refine (settles_typeOf hle left).bind fun leftTy => ?_
  refine (settles_typeOf hle right).bind fun rightTy => ?_
  split
  · exact settles_pure _
  · exact settles_operationConflicts hle op left right leftTy rightTy

theorem settles_unaryConflicts (op : UnaryOperator) (operand : Expr) :
    (unaryConflicts budget op operand).Settles (unaryConflicts budget' op operand) := by
  refine (settles_typeOf hle operand).bind fun ty => ?_
  split
  · exact settles_pure _
  · exact settles_operandConflict hle _ _ _ _

/-! ## Names -/

omit hle in
theorem settles_referenceConflicts (id : NodeId) (name : String) :
    (referenceConflicts id name).Settles (referenceConflicts id name) := by
  refine settles_read.bind fun ctx => ?_
  split <;> exact settles_pure _

theorem settles_accessConflicts (id : NodeId) (subject : Expr) (member : String) :
    (accessConflicts budget id subject member).Settles
      (accessConflicts budget' id subject member) := by
  refine (settles_typeOf hle subject).bind fun found => ?_
  refine (settles_resolved found).bind fun ty => ?_
  split
  · refine (settles_member hle _ _ _).bind fun declared => ?_
    split <;> exact settles_pure _
  · exact settles_pure _

/-! ## Calls -/

theorem settles_checkArgument (input : Binder) (argument : Expr) (expected : Ty) :
    (checkArgument budget input argument expected).Settles
      (checkArgument budget' input argument expected) := by
  unfold checkArgument
  split
  · exact settles_pure _
  · exact (settles_typeOf hle _).bind fun given => settles_unlessAccepts hle _ _ _

theorem settles_checkRequired (input : Binder) (argument : Expr) (expected : Ty) :
    (checkRequired budget input argument expected).Settles
      (checkRequired budget' input argument expected) := by
  unfold checkRequired
  split
  · split
    · exact settles_checkArgument hle _ _ _
    · exact settles_pure _
  · exact settles_checkArgument hle _ _ _

theorem settles_checkRest (input : Binder) (expected : Ty) (arguments : List Expr) :
    (checkRest budget input expected arguments).Settles
      (checkRest budget' input expected arguments) := by
  induction arguments with
  | nil => exact settles_pure _
  | cons argument rest ih =>
    exact (settles_checkArgument hle _ _ _).bind fun _ => ih.bind fun _ => settles_pure _

theorem settles_checkInputs (call : Call) (callee : Callee) (inputs : List Binder)
    (pool : List Expr) :
    (checkInputs budget call callee inputs pool).Settles
      (checkInputs budget' call callee inputs pool) := by
  induction inputs generalizing pool with
  | nil => exact settles_pure _
  | cons input inputs ih =>
    unfold checkInputs
    refine (settles_binderType hle input).bind fun declared => ?_
    refine (settles_instantiate (settles_typeOf hle) call callee declared).bind fun expected => ?_
    dsimp only
    split
    · split
      · exact settles_pure _
      · exact ih _
    · split
      · exact (settles_checkRequired hle _ _ _).bind fun _ => (ih _).bind fun _ => settles_pure _
      · exact (settles_checkArgument hle _ _ _).bind fun _ => (ih _).bind fun _ => settles_pure _
    · exact (settles_checkRest hle _ _ _).bind fun _ => (ih _).bind fun _ => settles_pure _

theorem settles_callConflicts (call : Call) :
    (call.conflicts budget).Settles (call.conflicts budget') := by
  unfold Call.conflicts
  split
  · exact settles_pure _
  · refine (settles_typeOf hle call.callee).bind fun calleeTy => ?_
    split
    · exact settles_pure _
    · split
      · split
        · exact settles_checkInputs hle _ _ _ _
        · exact settles_pure _
      · exact settles_pure _

theorem settles_conflicts (e : Expr) : (e.conflicts budget).Settles (e.conflicts budget') := by
  unfold Expr.conflicts
  split
  · exact (settles_conditionConflict hle _).bind fun _ =>
      (settles_branchConflict hle _ _).bind fun _ => settles_pure _
  · exact settles_callConflicts hle _
  · exact (settles_tableConflict hle _).bind fun _ =>
      (settles_inQueryOf hle (settles_queryConflict hle _) _).bind fun _ => settles_pure _
  · exact settles_insertConflicts hle _ _
  · exact settles_referenceConflicts _ _
  · exact settles_accessConflicts hle _ _ _
  · exact settles_binaryConflicts hle _ _ _
  · exact settles_unaryConflicts hle _ _
  all_goals exact settles_pure _

end Checks

/-! ## Whole trees -/

theorem Query.Settles.andThen {first first' second second' : Query (List Conflict)}
    (h : first.Settles first') (h' : second.Settles second') :
    (first.andThen second).Settles (first'.andThen second') :=
  h.bind fun _ => h'.bind fun _ => settles_pure _

section Trees

variable {budget budget' : Nat} (hle : budget ≤ budget')

include hle

theorem analysisClosed_settles (es : List Expr) :
    AnalysisClosed es fun q _ => (q budget).Settles (q budget') where
  found := settles_pure
  own e _ := settles_conflicts hle e
  andThen hfirst hsecond := hfirst.andThen hsecond
  inQueryOf _ hquery := settles_inQueryOf hle hquery _

theorem settles_analyze (e : Expr) : (e.analyze budget).Settles (e.analyze budget') :=
  (analysisClosed_settles hle e.nested).expr (List.Subset.refl _)

theorem settles_analyzeBinder (b : Binder) :
    (b.analyzeParts budget).Settles (b.analyzeParts budget') :=
  (analysisClosed_settles hle b.nested).binder (List.Subset.refl _)

theorem settles_analyzeTypeInput (i : TypeInput) :
    (i.analyzeParts budget).Settles (i.analyzeParts budget') :=
  (analysisClosed_settles hle i.nested).typeInput (List.Subset.refl _)

theorem settles_analyzeTy (t : Ty) : (t.analyzeParts budget).Settles (t.analyzeParts budget') :=
  (analysisClosed_settles hle t.nested).ty (List.Subset.refl _)

end Trees

/-! ## Lowering -/

section Lowering

variable {ask ask' : Ask} {code code' : Expr → Query Code}
  (hask : ∀ e, (ask e).Settles (ask' e)) (hcode : ∀ e, (code e).Settles (code' e))

include hcode

theorem settles_lowerAll (es : List Expr) : (lowerAll code es).Settles (lowerAll code' es) := by
  induction es with
  | nil => exact settles_pure _
  | cons e rest ih => exact (hcode e).bind fun _ => ih.bind fun _ => settles_pure _

theorem settles_lowerSlot (call : NodeId) (slot : Slot) :
    (lowerSlot code call slot).Settles (lowerSlot code' call slot) := by
  cases slot with
  | given value => exact hcode value
  | default value => exact hcode value
  | missing input => exact settles_pure _
  | rest values => exact settles_lowerAll hcode values

theorem settles_lowerSlots (call : NodeId) (slots : List Slot) :
    (lowerSlots code call slots).Settles (lowerSlots code' call slots) := by
  induction slots with
  | nil => exact settles_pure _
  | cons slot slots ih =>
    exact (settles_lowerSlot hcode call slot).bind fun _ => ih.bind fun _ => settles_pure _

theorem settles_lowerValue (b : Binder) : (lowerValue code b).Settles (lowerValue code' b) := by
  unfold lowerValue
  split
  · exact hcode _
  · exact settles_pure _

theorem settles_lowerValues (bs : List Binder) :
    (lowerValues code bs).Settles (lowerValues code' bs) := by
  induction bs with
  | nil => exact settles_pure _
  | cons b rest ih =>
    exact (settles_lowerValue hcode b).bind fun _ => ih.bind fun _ => settles_pure _

include hask

theorem settles_lowerCall (call : Call) :
    (lowerCall ask code call).Settles (lowerCall ask' code' call) := by
  refine (hask call.callee).bind fun ty => ?_
  split
  · exact settles_pure _
  · split
    · exact settles_pure _
    · exact (settles_lowerSlots hcode _ _).bind fun _ => (hcode _).bind fun _ => settles_pure _

theorem settles_lowerWith (e : Expr) :
    (e.lowerWith ask code).Settles (e.lowerWith ask' code') := by
  cases e with
  | list => exact (settles_lowerAll hcode _).bind fun _ => settles_pure _
  | conditional =>
    exact (hcode _).bind fun _ => (hcode _).bind fun _ => (hcode _).bind fun _ => settles_pure _
  | call c => exact settles_lowerCall hask hcode c
  | delete => exact (hcode _).bind fun _ => settles_pure _
  | insert =>
    exact (hcode _).bind fun _ => (settles_lowerValues hcode _).bind fun _ => settles_pure _
  | access => exact (hcode _).bind fun _ => settles_pure _
  | binary => exact (settles_lowerAll hcode _).bind fun _ => settles_pure _
  | unary => exact (hcode _).bind fun _ => settles_pure _
  | block => exact (settles_lowerAll hcode _).bind fun _ => settles_pure _
  | bind => exact (settles_lowerValue hcode _).bind fun _ => settles_pure _
  | boolean | number | text | reference | function | struct | unparsable => exact settles_pure _

end Lowering

theorem settles_lower {budget budget' : Nat} (hle : budget ≤ budget') (e : Expr) :
    (e.lower budget).Settles (e.lower budget') := by
  induction budget generalizing budget' e with
  | zero => exact settles_outOfBudget _
  | succ budget ih =>
    obtain ⟨more, rfl⟩ : ∃ more, budget' = more + 1 := ⟨budget' - 1, by omega⟩
    have hmore : budget ≤ more := by omega
    exact settles_lowerWith (settles_typeOf hmore) (fun part => ih hmore part) e

/-! ## Asking twice -/

theorem Memo.atRest_empty : Memo.empty.AtRest :=
  rfl

/-- A query that settles, asked between queries, leaves the memo between queries. -/
theorem Query.Settles.atRest {α : Type} {q : Query α} {ctx : Context} {memo after : Memo} {a : α}
    (hq : q.Settles q) (hrest : memo.AtRest) (h : q ctx memo = some (a, after)) : after.AtRest :=
  (hq.grows h).atRest hrest

section Twice

variable {α : Type} {ctx : Context} {memo : Memo}

/-- What has been answered is answered the same again, at once and at any later time, with the
budget of the first time and with any budget that suffices. -/
theorem Query.answers_again {q : Nat → Query α}
    (hq : ∀ {budget budget' : Nat}, budget ≤ budget' → (q budget).Settles (q budget'))
    (hrest : memo.AtRest) {budget : Nat} {a : α} {after later : Memo}
    (h : q budget ctx memo = some (a, after)) (hlater : after.Extends later) :
    q budget ctx later = some (a, later) ∧
      ∀ {budget' : Nat} {a' : α} {last : Memo},
        q budget' ctx later = some (a', last) → a' = a ∧ last = later := by
  refine ⟨(hq (Nat.le_refl budget)).again hrest h hlater, ?_⟩
  intro budget' a' last h'
  -- Both answers are those that the larger of the budgets gives.
  have hfirst := (hq (Nat.le_max_left budget budget')).again hrest h hlater
  have hsecond := (hq (Nat.le_max_right budget budget')).same h'
  rw [hfirst] at hsecond
  obtain ⟨ha, hlast⟩ := Prod.mk.inj (Option.some.inj hsecond)
  exact ⟨ha.symm, hlast.symm⟩

/-- Analysing a root twice in a row finds the same conflicts, and lowering it twice in a row gives
the same code.  The second time needs no more budget than the first. -/
theorem analyzes_and_lowers_again (hrest : memo.AtRest) (root : Expr) :
    (∀ {budget : Nat} {found : List Conflict} {after : Memo},
      root.analyze budget ctx memo = some (found, after) →
        root.analyze budget ctx after = some (found, after) ∧
        ∀ {budget' : Nat} {found' : List Conflict} {last : Memo},
          root.analyze budget' ctx after = some (found', last) → found' = found) ∧
    (∀ {budget : Nat} {code : Code} {after : Memo},
      root.lower budget ctx memo = some (code, after) →
        root.lower budget ctx after = some (code, after) ∧
        ∀ {budget' : Nat} {code' : Code} {last : Memo},
          root.lower budget' ctx after = some (code', last) → code' = code) := by
  constructor
  · intro budget found after h
    have hafter : after.AtRest := (settles_analyze (Nat.le_refl budget) root).atRest hrest h
    obtain ⟨hagain, hunique⟩ :=
      answers_again (fun hle => settles_analyze hle root) hrest h (.refl hafter)
    exact ⟨hagain, fun h' => (hunique h').1⟩
  · intro budget code after h
    have hafter : after.AtRest := (settles_lower (Nat.le_refl budget) root).atRest hrest h
    obtain ⟨hagain, hunique⟩ :=
      answers_again (fun hle => settles_lower hle root) hrest h (.refl hafter)
    exact ⟨hagain, fun h' => (hunique h').1⟩

/-- Two declarations that are each other's value, followed by a name that nothing declares. -/
def mutualValues : Program :=
  ⟨.block ⟨1⟩ [.bind (bindingOf 2 "a" (referenceOf 3 "b")),
    .bind (bindingOf 4 "b" (referenceOf 5 "a")), referenceOf 6 "c"]⟩

/-- A program with a cycle, analysed and lowered twice. -/
theorem analyzes_and_lowers_again_mutualValues :
    let ctx : Context := { lexicon := mutualValues.lexicon }
    ∃ found after code last,
      mutualValues.root.analyze 20 ctx .empty = some (found, after) ∧ found.length = 1 ∧
      mutualValues.root.analyze 20 ctx after = some (found, after) ∧
      mutualValues.root.lower 20 ctx .empty = some (code, last) ∧
      mutualValues.root.lower 20 ctx last = some (code, last) := by
  intro ctx
  have hanalyzed : (mutualValues.root.analyze 20 ctx .empty).any
      (fun found => found.1.length == 1) = true := by decide +kernel
  have hlowered : (mutualValues.root.lower 20 ctx .empty).isSome = true := by decide +kernel
  obtain ⟨⟨found, after⟩, hfound, hone⟩ := (Option.any_eq_true _ _).1 hanalyzed
  obtain ⟨⟨code, last⟩, hcode⟩ := Option.isSome_iff_exists.1 hlowered
  obtain ⟨hanalyze, hlower⟩ :=
    @analyzes_and_lowers_again ctx .empty Memo.atRest_empty mutualValues.root
  exact ⟨found, after, code, last, hfound, by simpa using hone, (hanalyze hfound).1, hcode,
    (hlower hcode).1⟩

end Twice

end Stepwise

import Stepwise.Call.Check
import Stepwise.Proofs.Call.Matching
import Stepwise.Proofs.Code.Layout
import Stepwise.Program
import Stepwise.Proofs.Sample

/-!
# Conflicts of a call and its plan

Checking a call and planning it go through the inputs in the same way, except that checking ends at
the first required input that gets nothing.  What is reported is therefore about the plan.  The
conflicts of single inputs come first (`Concerns`), each about a value in the slot of its input.
One thing may follow (`closing`): the input of the first missing slot, or, if no slot is missing,
the arguments that feed none.
-/

namespace Stepwise

namespace Query

/-- Lists that queries answer one after the other, put together. -/
theorem append_eq_some {α : Type} {q r : Query (List α)} {ctx : Context} {memo after : Memo}
    {found : List α} :
    (do
        let own ← q
        let others ← r
        pure (own ++ others) : Query (List α)) ctx memo = some (found, after) ↔
      ∃ own mid others, q ctx memo = some (own, mid) ∧ r ctx mid = some (others, after) ∧
        own ++ others = found := by
  constructor
  · intro h
    obtain ⟨own, mid, hq, h⟩ := bind_eq_some.1 h
    obtain ⟨others, last, hr, h⟩ := bind_eq_some.1 h
    obtain ⟨heq, rfl⟩ := pure_eq_some.1 h
    exact ⟨own, mid, others, hq, hr, heq⟩
  · rintro ⟨own, mid, others, hq, hr, heq⟩
    exact bind_eq_some.2
      ⟨own, mid, hq, bind_eq_some.2 ⟨others, after, hr, pure_eq_some.2 ⟨heq, rfl⟩⟩⟩

end Query

/-! ## Kinds of conflicts -/

/-- The conflict of an input that gets nothing. -/
def missingConflict (call : Call) (input : Binder) : Conflict where
  kind := .missingInput input.primaryName
  primary := [call.id]
  secondary := some [input.id]

/-- Whether a conflict is that of an input that gets nothing. -/
def Conflict.isMissingInput (conflict : Conflict) : Bool :=
  match conflict.kind with
  | .missingInput _ => true
  | _ => false

/-- Whether a conflict is that of arguments that no input takes. -/
def Conflict.isUnexpectedInputs (conflict : Conflict) : Bool :=
  match conflict.kind with
  | .unexpectedInputs _ => true
  | _ => false

/-! ## One input -/

/-- The conflicts that checking one input reports, given what the input has taken. -/
inductive Concerns (input : Binder) (taken : Taken) : Conflict → Prop
  | value {argument : Expr} (hmem : argument ∈ taken.arguments) (expected given : Ty) :
      Concerns input taken
        { kind := .incompatibleInput input.primaryName expected given,
          primary := [(argumentValue argument).id], secondary := some [input.id] }
  | name {argument : Expr} {b : Binder} (htaken : taken = .argument argument)
      (hrequired : input.isRequired = true) (hb : namedArgument? argument = some b)
      (hshares : input.sharesName b = false) :
      Concerns input taken
        { kind := .unexpectedInput input.primaryName b.primaryName, primary := [argument.id],
          secondary := some [input.id] }

section Input

variable {budget : Nat} {ctx : Context} {memo after : Memo} {input : Binder} {taken : Taken}
  {argument : Expr} {expected : Ty} {found : List Conflict}

theorem concerns_checkArgument (hmem : argument ∈ taken.arguments)
    (h : checkArgument budget input argument expected ctx memo = some (found, after)) :
    ∀ c ∈ found, Concerns input taken c := by
  unfold checkArgument at h
  generalize hvalue : argumentValue argument = value at h
  split at h
  · obtain ⟨rfl, -⟩ := Query.pure_eq_some.1 h
    exact fun c hc => nomatch hc
  · obtain ⟨given, mid, -, h⟩ := Query.bind_eq_some.1 h
    obtain ⟨accepted, last, -, h⟩ := Query.bind_eq_some.1 h
    cases accepted with
    | true =>
      obtain ⟨rfl, -⟩ := Query.pure_eq_some.1 h
      exact fun c hc => nomatch hc
    | false =>
      obtain ⟨rfl, -⟩ := Query.pure_eq_some.1 h
      intro c hc
      rw [List.mem_singleton.1 hc, ← hvalue]
      exact .value hmem expected given

theorem concerns_checkRequired (hrequired : input.isRequired = true)
    (h : checkRequired budget input argument expected ctx memo = some (found, after)) :
    ∀ c ∈ found, Concerns input (.argument argument) c := by
  have hself : argument ∈ (Taken.argument argument).arguments := List.mem_singleton.2 rfl
  unfold checkRequired at h
  cases hb : namedArgument? argument with
  | none =>
    rw [hb] at h
    exact concerns_checkArgument hself h
  | some b =>
    rw [hb] at h
    cases hs : input.sharesName b with
    | true => exact concerns_checkArgument hself (by simpa [hs] using h)
    | false =>
      simp only [hs, Bool.false_eq_true, if_false] at h
      obtain ⟨rfl, -⟩ := Query.pure_eq_some.1 h
      intro c hc
      rw [List.mem_singleton.1 hc]
      exact .name rfl hrequired hb hs

theorem concerns_checkRest {arguments : List Expr} (hsub : arguments ⊆ taken.arguments)
    (h : checkRest budget input expected arguments ctx memo = some (found, after)) :
    ∀ c ∈ found, Concerns input taken c := by
  induction arguments generalizing memo found with
  | nil =>
    obtain ⟨rfl, -⟩ := Query.pure_eq_some.1 h
    exact fun c hc => nomatch hc
  | cons argument arguments ih =>
    obtain ⟨hargument, hrest⟩ := List.cons_subset.1 hsub
    obtain ⟨own, mid, others, hown, hothers, rfl⟩ := Query.append_eq_some.1 h
    intro c hc
    rcases List.mem_append.1 hc with hc | hc
    · exact concerns_checkArgument hargument hown c hc
    · exact ih hrest hothers c hc

end Input

/-- The type that the arguments of an input should have at a call. -/
def expectedAt (budget : Nat) (call : Call) (callee : Callee) (input : Binder) : Query Ty := do
  let declared ← input.typeOf budget
  call.instantiate (Expr.typeOf budget) callee declared

/-- The conflicts of the arguments that an input has taken. -/
def checkTaken (budget : Nat) (input : Binder) (expected : Ty) : Taken → Query (List Conflict)
  | .argument e =>
    if input.isRequired then checkRequired budget input e expected
    else checkArgument budget input e expected
  | .rest es => checkRest budget input (itemOf expected) es
  | .nothing => pure []

theorem concerns_checkTaken {budget : Nat} {ctx : Context} {memo after : Memo} {input : Binder}
    {taken : Taken} {expected : Ty} {found : List Conflict}
    (h : checkTaken budget input expected taken ctx memo = some (found, after)) :
    ∀ c ∈ found, Concerns input taken c := by
  cases taken with
  | argument e =>
    cases hq : input.isRequired with
    | true =>
      simp only [checkTaken, hq, if_true] at h
      exact concerns_checkRequired hq h
    | false =>
      simp only [checkTaken, hq, Bool.false_eq_true, if_false] at h
      exact concerns_checkArgument (List.mem_singleton.2 rfl) h
  | rest es => exact concerns_checkRest (List.Subset.refl _) h
  | nothing =>
    obtain ⟨rfl, -⟩ := Query.pure_eq_some.1 h
    exact List.forall_mem_nil _

/-! ## All inputs -/

/-- What is reported after the conflicts of the single inputs. -/
def closing (call : Call) (inputs : List Binder) (pool : List Expr) : List Conflict :=
  match (plan inputs pool).findSome? Slot.missing? with
  | some input => [missingConflict call input]
  | none => leftoverConflict call (unused inputs pool)

/-- A conflict concerns one of the inputs and what it takes from the pool. -/
inductive ConcernsOne : List Binder → List Expr → Conflict → Prop
  | here {input : Binder} {inputs : List Binder} {pool : List Expr} {c : Conflict}
      (h : Concerns input (takeFor input pool).1 c) : ConcernsOne (input :: inputs) pool c
  | later {input : Binder} {inputs : List Binder} {pool : List Expr} {c : Conflict}
      (h : ConcernsOne inputs (takeFor input pool).2 c) : ConcernsOne (input :: inputs) pool c

/-- An input that takes nothing has a missing slot if it is required. -/
theorem missing?_ofTaken_nothing {input : Binder} (hrest : input.rest = false) :
    (Slot.ofTaken input .nothing).missing? = if input.isRequired then some input else none := by
  cases hv : input.value <;> simp [Slot.ofTaken, Slot.missing?, Binder.isRequired, hv, hrest]

section Inputs

variable {input : Binder} {inputs : List Binder} {pool : List Expr}

theorem closing_cons_of_missing {call : Call} {missing : Binder}
    (h : (Slot.ofTaken input (takeFor input pool).1).missing? = some missing) :
    closing call (input :: inputs) pool = [missingConflict call missing] := by
  simp [closing, plan_cons, h]

theorem closing_cons {call : Call}
    (h : (Slot.ofTaken input (takeFor input pool).1).missing? = none) :
    closing call (input :: inputs) pool = closing call inputs (takeFor input pool).2 := by
  simp [closing, plan_cons, unused, h]

/-- Checking ends at an input that should get something and gets nothing.  Otherwise what it takes
is checked, and then the other inputs are checked against the arguments that are left. -/
theorem checkInputs_cons {budget : Nat} {ctx : Context} {memo after : Memo} {call : Call}
    {callee : Callee} {found : List Conflict}
    (h : checkInputs budget call callee (input :: inputs) pool ctx memo = some (found, after)) :
    ((Slot.ofTaken input (takeFor input pool).1).missing? = some input ∧
        found = [missingConflict call input]) ∨
      (Slot.ofTaken input (takeFor input pool).1).missing? = none ∧
        ∃ expected start own mid others,
          expectedAt budget call callee input ctx memo = some (expected, start) ∧
          checkTaken budget input expected (takeFor input pool).1 ctx start = some (own, mid) ∧
          checkInputs budget call callee inputs (takeFor input pool).2 ctx mid =
            some (others, after) ∧ found = own ++ others := by
  obtain ⟨declared, afterDeclared, hdeclared, hinstantiate⟩ := Query.bind_eq_some.1 h
  obtain ⟨expected, start, hexpected, hmatch⟩ := Query.bind_eq_some.1 hinstantiate
  clear h hinstantiate
  have hat : expectedAt budget call callee input ctx memo = some (expected, start) :=
    Query.bind_eq_some.2 ⟨declared, afterDeclared, hdeclared, hexpected⟩
  have htakes := takes_takeFor input pool
  generalize takeFor input pool = result at hmatch htakes ⊢
  obtain ⟨taken, left⟩ := result
  cases htakes with
  | all hrest =>
    obtain ⟨own, mid, others, hown, hothers, rfl⟩ := Query.append_eq_some.1 hmatch
    exact .inr ⟨rfl, expected, start, own, mid, others, hat, hown, hothers, rfl⟩
  | @one hrest before behind e hpool =>
    have hjoin : ∃ own mid others,
        checkTaken budget input expected (.argument e) ctx start = some (own, mid) ∧
          checkInputs budget call callee inputs (before ++ behind) ctx mid = some (others, after) ∧
          own ++ others = found := by
      cases hq : input.isRequired with
      | true =>
        simp only [checkTaken, hq, if_true] at hmatch ⊢
        exact Query.append_eq_some.1 hmatch
      | false =>
        simp only [checkTaken, hq, Bool.false_eq_true, if_false] at hmatch ⊢
        exact Query.append_eq_some.1 hmatch
    obtain ⟨own, mid, others, hown, hothers, rfl⟩ := hjoin
    exact .inr ⟨rfl, expected, start, own, mid, others, hat, hown, hothers, rfl⟩
  | nothing hrest hempty =>
    have hslot := missing?_ofTaken_nothing hrest
    cases hq : input.isRequired with
    | true =>
      simp only [hq, if_true] at hmatch hslot
      obtain ⟨rfl, -⟩ := Query.pure_eq_some.1 hmatch
      exact .inl ⟨hslot, rfl⟩
    | false =>
      simp only [hq, Bool.false_eq_true, if_false] at hmatch hslot
      exact .inr ⟨hslot, expected, start, [], start, found, hat, Query.pure_eq_some.2 ⟨rfl, rfl⟩,
        hmatch, rfl⟩

/-- Checking reports what concerns single inputs, and then what is left to say. -/
theorem checkInputs_eq_some {budget : Nat} {ctx : Context} {memo after : Memo} {call : Call}
    {callee : Callee} {found : List Conflict}
    (h : checkInputs budget call callee inputs pool ctx memo = some (found, after)) :
    ∃ single, found = single ++ closing call inputs pool ∧
      ∀ c ∈ single, ConcernsOne inputs pool c := by
  induction inputs generalizing pool memo found with
  | nil =>
    obtain ⟨rfl, -⟩ := Query.pure_eq_some.1 h
    exact ⟨[], rfl, fun c hc => nomatch hc⟩
  | cons input inputs ih =>
    rcases checkInputs_cons h with
      ⟨hslot, rfl⟩ | ⟨hslot, expected, start, own, mid, others, -, hown, hothers, rfl⟩
    · exact ⟨[], (closing_cons_of_missing hslot).symm, List.forall_mem_nil _⟩
    · obtain ⟨single, rfl, hsingle⟩ := ih hothers
      refine ⟨own ++ single, by rw [closing_cons hslot, List.append_assoc], fun c hc => ?_⟩
      rcases List.mem_append.1 hc with hc | hc
      · exact .here (concerns_checkTaken hown c hc)
      · exact .later (hsingle c hc)

end Inputs

/-! ## Conflicts about the plan -/

/-- The conflicts of a call are about its plan against the inputs. -/
structure ReportsPlan (call : Call) (inputs : List Binder) (found : List Conflict) : Prop where
  /-- An input is reported as missing just if a slot is missing: that of the first such slot,
  once. -/
  missing : found.filter Conflict.isMissingInput =
    ((plan inputs call.inputs).findSome? Slot.missing?).toList.map (missingConflict call)
  /-- If no slot is missing, the arguments that feed none are reported, once and in order. -/
  leftover : (plan inputs call.inputs).findSome? Slot.missing? = none →
    found.filter Conflict.isUnexpectedInputs = leftoverConflict call (unused inputs call.inputs)
  /-- The slots get from arguments what the arguments that feed them give. -/
  feeds : (plan inputs call.inputs).map Slot.fromArguments =
    (fed inputs call.inputs).map (List.map argumentValue)
  /-- Every argument feeds one slot or none. -/
  splits : ((fed inputs call.inputs).flatten ++ unused inputs call.inputs).Perm call.inputs
  inOrder : (unused inputs call.inputs).Sublist call.inputs
  /-- An incompatible value is one that an argument gives to the slot of the input. -/
  incompatible : ∀ c ∈ found, ∀ name expected given,
    c.kind = .incompatibleInput name expected given →
      ∃ (i : Nat) (input : Binder) (slot : Slot) (value : Expr), inputs[i]? = some input ∧
        (plan inputs call.inputs)[i]? = some slot ∧ value ∈ slot.fromArguments ∧
        c = { kind := .incompatibleInput input.primaryName expected given, primary := [value.id],
              secondary := some [input.id] }
  /-- An unexpected argument is one with other names than the required input whose slot it feeds. -/
  misnamed : ∀ c ∈ found, ∀ expected given, c.kind = .unexpectedInput expected given →
    ∃ (i : Nat) (input : Binder) (argument : Expr) (b : Binder), inputs[i]? = some input ∧
      argument ∈ call.inputs ∧ namedArgument? argument = some b ∧
      (plan inputs call.inputs)[i]? = some (.given (argumentValue argument)) ∧
      input.isRequired = true ∧ input.sharesName b = false ∧
      c = { kind := .unexpectedInput input.primaryName b.primaryName, primary := [argument.id],
            secondary := some [input.id] }

section Plan

variable {inputs : List Binder} {pool : List Expr} {c : Conflict}

/-- A conflict that concerns one of the inputs is about the slot of an input. -/
theorem ConcernsOne.slot (h : ConcernsOne inputs pool c) :
    ∃ (i : Nat) (input : Binder) (taken : Taken), inputs[i]? = some input ∧
      (plan inputs pool)[i]? = some (.ofTaken input taken) ∧ Concerns input taken c ∧
      taken.arguments ⊆ pool := by
  induction h with
  | @here input inputs pool c h =>
    exact ⟨0, input, (takeFor input pool).1, rfl, rfl, h, fun e he => mem_of_taken he⟩
  | @later first inputs pool c _ ih =>
    obtain ⟨i, input, taken, hinput, hslot, hc, hsub⟩ := ih
    exact ⟨i + 1, input, taken, hinput, hslot, hc, fun e he => mem_of_takeFor (hsub he)⟩

theorem ConcernsOne.filters (h : ConcernsOne inputs pool c) :
    c.isMissingInput = false ∧ c.isUnexpectedInputs = false := by
  obtain ⟨i, input, taken, -, -, hc, -⟩ := h.slot
  cases hc <;> exact ⟨rfl, rfl⟩

theorem closing_kind {call : Call} (h : c ∈ closing call inputs pool) :
    c.isMissingInput = true ∨ c.isUnexpectedInputs = true := by
  unfold closing at h
  split at h
  · rw [List.mem_singleton.1 h]
    exact .inl rfl
  · unfold leftoverConflict at h
    split at h
    · cases h
    · rw [List.mem_singleton.1 h]
      exact .inr rfl

end Plan

theorem reportsPlan_of_checkInputs {budget : Nat} {ctx : Context} {memo after : Memo} {call : Call}
    {callee : Callee} {inputs : List Binder} {found : List Conflict}
    (h : checkInputs budget call callee inputs call.inputs ctx memo = some (found, after)) :
    ReportsPlan call inputs found := by
  obtain ⟨single, rfl, hsingle⟩ := checkInputs_eq_some h
  have hmissing : single.filter Conflict.isMissingInput = [] :=
    List.filter_eq_nil_iff.2 fun c hc => by simp [(hsingle c hc).filters.1]
  have hleftover : single.filter Conflict.isUnexpectedInputs = [] :=
    List.filter_eq_nil_iff.2 fun c hc => by simp [(hsingle c hc).filters.2]
  refine
    { missing := ?_, leftover := fun hnone => ?_, feeds := map_fromArguments_plan ..,
      splits := perm_fed_unused .., inOrder := sublist_unused ..,
      incompatible := fun c hc name expected given hkind => ?_,
      misnamed := fun c hc expected given hkind => ?_ }
  · rw [List.filter_append, hmissing, List.nil_append, closing]
    cases (plan inputs call.inputs).findSome? Slot.missing? with
    | some input => rfl
    | none =>
      dsimp only [leftoverConflict]
      split <;> rfl
  · rw [List.filter_append, hleftover, List.nil_append, closing, hnone]
    dsimp only [leftoverConflict]
    split <;> rfl
  · rcases List.mem_append.1 hc with hc | hc
    · obtain ⟨i, input, taken, hinput, hslot, hconcerns, -⟩ := (hsingle c hc).slot
      cases hconcerns with
      | @value argument hmem expected' given' =>
        obtain ⟨-, rfl, rfl⟩ : _ ∧ expected' = expected ∧ given' = given := by simpa using hkind
        refine ⟨i, input, _, argumentValue argument, hinput, hslot, ?_, rfl⟩
        rw [Slot.fromArguments_ofTaken]
        exact List.mem_map_of_mem hmem
      | name => exact nomatch hkind
    · rcases closing_kind hc with hkind' | hkind' <;>
        simp [Conflict.isMissingInput, Conflict.isUnexpectedInputs, hkind] at hkind'
  · rcases List.mem_append.1 hc with hc | hc
    · obtain ⟨i, input, taken, hinput, hslot, hconcerns, hsub⟩ := (hsingle c hc).slot
      cases hconcerns with
      | value => exact nomatch hkind
      | @name argument b htaken hrequired hb hshares =>
        subst htaken
        exact ⟨i, input, argument, b, hinput, hsub (List.mem_singleton.2 rfl), hb, hslot, hrequired,
          hshares, rfl⟩
    · rcases closing_kind hc with hkind' | hkind' <;>
        simp [Conflict.isMissingInput, Conflict.isUnexpectedInputs, hkind] at hkind'

/-- Checking a call is checking its arguments against the inputs of its callee, if the callee can be
called at all, its inputs are in order, and no argument failed to parse.  (An unparsable callee has
no type that can be called.) -/
theorem Call.checkInputs_of_conflicts {budget : Nat} {ctx : Context} {memo mid after : Memo}
    {call : Call} {callee : Callee} {calleeTy : Ty} {found : List Conflict}
    (hparsed : call.callee.isUnparsable = false)
    (htype : call.callee.typeOf budget ctx memo = some (calleeTy, mid))
    (hcallee : Callee.ofTy? calleeTy = some callee)
    (hconcrete : ∀ definition args, callee = .struct definition args →
      definition.abstractFunctions = [])
    (hinputs : inputListConflicts callee.inputs = [])
    (harguments : ∀ argument ∈ call.inputs, (argumentValue argument).isUnparsable = false)
    (h : call.conflicts budget ctx memo = some (found, after)) :
    checkInputs budget call callee callee.inputs call.inputs ctx mid = some (found, after) := by
  have hdirect : abstractConflict call callee = [] := by
    cases callee with
    | function => rfl
    | struct definition args => simp [abstractConflict, hconcrete definition args rfl]
  have hcheckable : isCheckable call callee = true := by
    simp only [isCheckable, hinputs, List.isEmpty_nil, Bool.true_and, List.all_eq_true,
      Bool.not_eq_true']
    exact harguments
  rw [conflicts, hparsed] at h
  obtain ⟨ty, mid', hty, h⟩ := Query.bind_eq_some.1 h
  obtain ⟨rfl, rfl⟩ : calleeTy = ty ∧ mid = mid' := by simpa [htype] using hty
  simpa only [hcallee, hdirect, hcheckable, if_true] using h

/-- Checking a call reports what planning it finds, if the callee can be called at all, its inputs
are in order, and no argument failed to parse. -/
theorem Call.conflicts_about_plan {budget : Nat} {ctx : Context} {memo mid after : Memo}
    {call : Call} {callee : Callee} {calleeTy : Ty} {found : List Conflict}
    (hparsed : call.callee.isUnparsable = false)
    (htype : call.callee.typeOf budget ctx memo = some (calleeTy, mid))
    (hcallee : Callee.ofTy? calleeTy = some callee)
    (hconcrete : ∀ definition args, callee = .struct definition args →
      definition.abstractFunctions = [])
    (hinputs : inputListConflicts callee.inputs = [])
    (harguments : ∀ argument ∈ call.inputs, (argumentValue argument).isUnparsable = false)
    (h : call.conflicts budget ctx memo = some (found, after)) :
    ReportsPlan call callee.inputs found :=
  reportsPlan_of_checkInputs
    (checkInputs_of_conflicts hparsed htype hcallee hconcrete hinputs harguments h)

/-- The function `f(a: ?, b: ⊥)`. -/
def twoInputs : FunctionDef :=
  functionOf 1 "f" [binderOf 2 "a" (some .boolean) none, bindingOf 3 "b" (booleanOf 4 false)]
    (some .boolean) (some (referenceOf 5 "a"))

/-- The call `f(x: ⊤, ⊤, ⊤)`. -/
def crowdedCall : Call :=
  callWith 6 (referenceOf 7 "f")
    [.bind (bindingOf 8 "x" (booleanOf 9 true)), booleanOf 10 true, booleanOf 11 true]

/-- The call has a conflict about its first argument, and one about its last. -/
theorem Call.conflicts_about_plan_crowdedCall :
    let ctx : Context :=
      { lexicon := Program.lexicon ⟨.block ⟨0⟩ [.function twoInputs, .call crowdedCall]⟩ }
    ∃ found after, crowdedCall.conflicts 20 ctx .empty = some (found, after) ∧
      found.map Conflict.primary = [[⟨8⟩], [⟨11⟩]] ∧
      ReportsPlan crowdedCall twoInputs.inputs found := by
  intro ctx
  have hfound : (crowdedCall.conflicts 20 ctx .empty).any
      (fun found => found.1.map Conflict.primary == [[⟨8⟩], [⟨11⟩]]) = true := by decide +kernel
  have htype : ∃ mid, crowdedCall.callee.typeOf 20 ctx .empty =
      some (.function [] twoInputs.inputs .boolean, mid) := ⟨_, rfl⟩
  obtain ⟨⟨found, after⟩, h, hprimary⟩ := (Option.any_eq_true _ _).1 hfound
  obtain ⟨mid, htype⟩ := htype
  refine ⟨found, after, h, by simpa using hprimary, ?_⟩
  exact Call.conflicts_about_plan rfl htype rfl (fun _ _ => nofun) rfl (by decide) h

end Stepwise

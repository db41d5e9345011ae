import Stepwise.Proofs.Call.Reports
import Stepwise.Proofs.Sample
import Stepwise.Proofs.Typing.Enough
import Stepwise.Proofs.Typing.Repeatable

/-!
# Leaving out a required input

Required inputs take the arguments one after the other, whatever these are named.  So when a call
names its arguments, in the order of the inputs, but leaves one input out, the inputs before that
one get what is meant for them, and from there on each input takes the argument for the next one.
Every such argument is reported as misplaced.  What is reported as missing is the last input, for
which nothing is left (`Call.conflicts_of_omitted`); it is the input that was left out only if that
is the last one itself.
-/

namespace Stepwise

open Query

/-- The conflict of an argument that a required input takes although it is not named after it. -/
def misplacedConflict (input argument : Binder) : Conflict where
  kind := .unexpectedInput input.primaryName argument.primaryName
  primary := [argument.id]
  secondary := some [input.id]

/-- The named argument is for the input and for no other one, and gives a value that has been
parsed. -/
structure NamedAfter (inputs : List Binder) (input argument : Binder) : Prop where
  shares : input.sharesName argument = true
  alone : ∀ other ∈ inputs, other.sharesName argument = true → other = input
  value : ∃ value, argument.value = some value ∧ value.isUnparsable = false

/-- Whether the input accepts the type of the value that the named argument gives. -/
def valueAccepted (budget : Nat) (call : Call) (callee : Callee) (input argument : Binder) :
    Query Bool := do
  let expected ← expectedAt budget call callee input
  match argumentValue (.bind argument) with
  | .bind _ => pure true
  | value => do
    let given ← value.typeOf budget
    expected.accepts budget given

/-- What follows a query that has an answer. -/
theorem Query.bind_of_eq_some {α β : Type} {q : Query α} {f : α → Query β} {ctx : Context}
    {memo mid : Memo} {a : α} (h : q ctx memo = some (a, mid)) :
    (q >>= f) ctx memo = f a ctx mid := by
  change (q ctx memo).bind (fun r => f r.1 ctx r.2) = f a ctx mid
  rw [h]
  rfl

section Step

variable {budget : Nat} {call : Call} {callee : Callee} {input argument : Binder}
  {inputs : List Binder} {pool : List Expr}

/-- A required input takes the next argument. -/
theorem checkInputs_named (hrequired : input.isRequired = true) :
    checkInputs budget call callee (input :: inputs) (.bind argument :: pool) =
      expectedAt budget call callee input >>= fun expected =>
        checkRequired budget input (.bind argument) expected >>= fun own =>
          checkInputs budget call callee inputs pool >>= fun others => pure (own ++ others) := by
  rw [checkInputs]
  simp only [expectedAt, bind_assoc, takeFor, hrequired, takeFirst, if_true]

theorem checkInputs_nothing (hrequired : input.isRequired = true) :
    checkInputs budget call callee (input :: inputs) [] =
      expectedAt budget call callee input >>= fun _ => pure [missingConflict call input] := by
  rw [checkInputs]
  simp only [expectedAt, bind_assoc, takeFor, hrequired, takeFirst, if_true]
  rfl

theorem checkInputs_misplaced (hrequired : input.isRequired = true)
    (hshares : input.sharesName argument = false) :
    checkInputs budget call callee (input :: inputs) (.bind argument :: pool) =
      expectedAt budget call callee input >>= fun _ =>
        checkInputs budget call callee inputs pool >>= fun others =>
          pure (misplacedConflict input argument :: others) := by
  rw [checkInputs_named hrequired]
  refine bind_congr fun expected => ?_
  simp only [checkRequired, namedArgument?, hshares, Bool.false_eq_true, if_false, pure_bind]
  rfl

/-- Nothing is reported of a value that is accepted where the input stands. -/
theorem checkInputs_accepted {ctx : Context} {memo mid : Memo} (hrequired : input.isRequired = true)
    (hshares : input.sharesName argument = true)
    (haccepted : valueAccepted budget call callee input argument ctx memo = some (true, mid)) :
    checkInputs budget call callee (input :: inputs) (.bind argument :: pool) ctx memo =
      checkInputs budget call callee inputs pool ctx mid := by
  obtain ⟨expected, start, hexpected, haccepted⟩ := bind_eq_some.1 haccepted
  have hown : checkRequired budget input (.bind argument) expected ctx start = some ([], mid) := by
    simp only [checkRequired, namedArgument?, hshares, if_true]
    unfold checkArgument
    generalize argumentValue (.bind argument) = value at haccepted ⊢
    cases value with
    | bind binder =>
      obtain ⟨-, rfl⟩ := pure_eq_some.1 haccepted
      rfl
    | _ =>
      obtain ⟨given, typed, hgiven, haccepted⟩ := bind_eq_some.1 haccepted
      dsimp only
      rw [bind_of_eq_some hgiven, bind_of_eq_some haccepted]
      rfl
  rw [checkInputs_named hrequired, bind_of_eq_some hexpected, bind_of_eq_some hown]
  exact congrFun (congrFun (bind_pure _) ctx) mid

end Step

section Rows

variable {budget : Nat} {call : Call} {callee : Callee} {ctx : Context}

/-- Nothing is reported of inputs whose arguments are accepted.  By induction on the inputs. -/
theorem checkInputs_accepted_append {inputs rest arguments : List Binder} {pool : List Expr}
    {memo mid : Memo} (hrequired : ∀ input ∈ inputs, input.isRequired = true)
    (hnamed : List.Forall₂ (fun input argument => input.sharesName argument = true) inputs
      arguments)
    (haccepted : ((inputs.zip arguments).allM fun pair =>
      valueAccepted budget call callee pair.1 pair.2) ctx memo = some (true, mid)) :
    checkInputs budget call callee (inputs ++ rest) (arguments.map .bind ++ pool) ctx memo =
      checkInputs budget call callee rest pool ctx mid := by
  induction hnamed generalizing memo with
  | nil =>
    obtain ⟨-, rfl⟩ := pure_eq_some.1 haccepted
    rfl
  | @cons input argument inputs arguments hshares _ ih =>
    obtain ⟨hfirst, hrest⟩ := List.forall_mem_cons.1 hrequired
    obtain ⟨accepted, start, hown, hothers⟩ := bind_eq_some.1 haccepted
    cases accepted with
    | false => exact absurd (pure_eq_some.1 hothers).1 Bool.false_ne_true
    | true =>
      refine Eq.trans (checkInputs_accepted hfirst hshares hown) ?_
      exact ih hrest hothers

/-- What the inputs report does not depend on the types that they expect, but these are asked for.
By induction on the inputs behind the first one. -/
theorem checkInputs_shifted {input : Binder} {inputs arguments : List Binder}
    (hrequired : ∀ other ∈ input :: inputs, other.isRequired = true)
    (hshares : List.Forall₂ (fun other argument => other.sharesName argument = false)
      ((input :: inputs).dropLast) arguments) :
    checkInputs budget call callee (input :: inputs) (arguments.map .bind) =
      (input :: inputs).mapM (expectedAt budget call callee) >>= fun _ =>
        pure (((input :: inputs).zip arguments).map (fun pair => misplacedConflict pair.1 pair.2) ++
          [missingConflict call ((input :: inputs).getLast (List.cons_ne_nil input inputs))]) := by
  induction inputs generalizing input arguments with
  | nil =>
    cases hshares with
    | nil =>
      rw [List.map_nil, checkInputs_nothing (hrequired input (List.mem_singleton_self _))]
      simp only [List.mapM_cons, List.mapM_nil, bind_assoc, pure_bind]
      rfl
  | cons next inputs ih =>
    cases hshares with
    | @cons _ argument _ arguments hfirst hrest =>
      obtain ⟨hq, hothers⟩ := List.forall_mem_cons.1 hrequired
      rw [List.map_cons, checkInputs_misplaced hq hfirst, List.mapM_cons, bind_assoc]
      refine bind_congr fun expected => ?_
      rw [ih hothers hrest]
      simp only [bind_assoc, pure_bind]
      rfl

/-- Where an input is left out, each one takes an argument for another. -/
theorem forall₂_dropLast {all inputs arguments : List Binder} {input : Binder}
    (hsub : ∀ other ∈ input :: inputs, other ∈ all)
    (hapart : (input :: inputs).Pairwise fun input other => input.sharesName other = false)
    (hnamed : List.Forall₂ (NamedAfter all) inputs arguments) :
    List.Forall₂ (fun other argument => other.sharesName argument = false)
      (input :: inputs).dropLast arguments := by
  induction hnamed generalizing input with
  | nil => exact .nil
  | @cons next argument inputs arguments hnext _ ih =>
    obtain ⟨hinput, hothers⟩ := List.forall_mem_cons.1 hsub
    obtain ⟨hfirst, hrest⟩ := List.pairwise_cons.1 hapart
    refine .cons (Bool.eq_false_iff.2 fun hshares => ?_) (ih hothers hrest)
    obtain rfl := hnext.alone input hinput hshares
    obtain ⟨name, -, hname⟩ := Binder.sharesName_iff.1 hnext.shares
    have hself : input.sharesName input = true := Binder.sharesName_iff.2 ⟨name, hname, hname⟩
    exact absurd (hself.symm.trans (hfirst input (List.mem_cons_self ..))) (by decide)

theorem parsed_of_namedAfter {all inputs arguments : List Binder}
    (h : List.Forall₂ (NamedAfter all) inputs arguments) :
    ∀ argument ∈ arguments, (argumentValue (.bind argument)).isUnparsable = false := by
  induction h with
  | nil => exact nofun
  | @cons input argument _ _ hnamed _ ih =>
    obtain ⟨value, hvalue, hparsed⟩ := hnamed.value
    have hfirst : argumentValue (.bind argument) = value := by simp [argumentValue, hvalue]
    exact List.forall_mem_cons.2 ⟨by rwa [hfirst], ih⟩

theorem inputListConflicts_of_required {inputs : List Binder}
    (hrequired : ∀ input ∈ inputs, input.isRequired = true) : inputListConflicts inputs = [] := by
  unfold inputListConflicts
  induction inputs with
  | nil => rfl
  | cons input inputs ih =>
    obtain ⟨hq, hothers⟩ := List.forall_mem_cons.1 hrequired
    have hrest := Binder.rest_eq_false_of_isRequired hq
    simpa [inputConflictsAfter, orderConflict, restConflict, hq, hrest] using ih hothers

/-- Checking a call of a function whose inputs are in order, all arguments of which have been
parsed. -/
theorem Call.conflicts_eq_checkInputs {vars : List TypeVariable} {inputs : List Binder}
    {output : Ty} {memo start : Memo} (hparsed : call.callee.isUnparsable = false)
    (htype : call.callee.typeOf budget ctx memo = some (.function vars inputs output, start))
    (hinputs : inputListConflicts inputs = [])
    (harguments : ∀ argument ∈ call.inputs, (argumentValue argument).isUnparsable = false) :
    call.conflicts budget ctx memo =
      checkInputs budget call (.function vars inputs output) inputs call.inputs ctx start := by
  have hcheckable : isCheckable call (.function vars inputs output) = true := by
    simp only [isCheckable, Callee.inputs, hinputs, List.isEmpty_nil, Bool.true_and,
      List.all_eq_true, Bool.not_eq_true']
    exact harguments
  rw [conflicts, hparsed]
  refine Eq.trans (bind_of_eq_some htype) ?_
  simp only [Callee.ofTy?, abstractConflict, hcheckable, if_true, Callee.inputs]

end Rows

/-! ## The call as a whole -/

section Call

variable {budget budget' : Nat} {call : Call} {callee : Callee} {ctx : Context}

theorem settles_expectedAt (hle : budget ≤ budget') (call : Call) (callee : Callee)
    (input : Binder) :
    (expectedAt budget call callee input).Settles (expectedAt budget' call callee input) :=
  (settles_binderType hle input).bind fun declared =>
    settles_instantiate (settles_typeOf hle) call callee declared

theorem settles_valueAccepted (hle : budget ≤ budget') (call : Call) (callee : Callee)
    (input argument : Binder) :
    (valueAccepted budget call callee input argument).Settles
      (valueAccepted budget' call callee input argument) := by
  refine (settles_expectedAt hle call callee input).bind fun expected => ?_
  split
  · exact settles_pure _
  · exact (settles_typeOf hle _).bind fun given => settles_acceptsType hle expected given

/-- If the first inputs accept the first arguments then, once the budget is large enough, a call
reports what the other inputs report of the other arguments. -/
theorem Call.conflicts_after_accepted {vars : List TypeVariable}
    {inputs before rest given : List Binder} {pool : List Expr} {output : Ty}
    {memo start mid : Memo} (hparsed : call.callee.isUnparsable = false)
    (htype : Gives (fun n => call.callee.typeOf n) ctx memo (.function vars inputs output) start)
    (hinputs : inputs = before ++ rest) (hrequired : ∀ input ∈ inputs, input.isRequired = true)
    (harguments : call.inputs = given.map .bind ++ pool)
    (hvalues : ∀ argument ∈ call.inputs, (argumentValue argument).isUnparsable = false)
    (hshares : List.Forall₂ (fun input argument => input.sharesName argument = true) before given)
    (haccepted : Gives (fun n => (before.zip given).allM fun pair =>
      valueAccepted n call (.function vars inputs output) pair.1 pair.2) ctx start true mid) :
    ∃ enough, ∀ n, enough ≤ n → call.conflicts n ctx memo =
      checkInputs n call (.function vars inputs output) rest pool ctx mid := by
  have hbefore (input : Binder) (h : input ∈ before) : input.isRequired = true :=
    hrequired input (hinputs ▸ List.mem_append_left _ h)
  obtain ⟨enough, htype⟩ := htype.enough (steady_typeOf call.callee)
  obtain ⟨enough', haccepted⟩ := haccepted.enough ⟨fun hle => settles_allM
    (fun pair : Binder × Binder => settles_valueAccepted hle call _ pair.1 pair.2) _⟩
  refine ⟨max enough enough', fun n hle => ?_⟩
  have hchecked : checkInputs n call (.function vars inputs output) (before ++ rest)
      (given.map .bind ++ pool) ctx start =
        checkInputs n call (.function vars inputs output) rest pool ctx mid :=
    checkInputs_accepted_append hbefore hshares (haccepted n (by omega))
  rw [Call.conflicts_eq_checkInputs hparsed (htype n (by omega))
    (inputListConflicts_of_required hrequired) hvalues, harguments]
  rwa [← hinputs] at hchecked

/-- A call of a function whose inputs are all required, and which gives all of them by name and in
order but for one.  The values for the inputs before that one are accepted.  Then each input from
that one on, but for the last, is reported to have taken the argument for the next one, the last
input is reported as missing, and nothing else is reported.  Checking ends if and only if the types
that these inputs expect can be worked out. -/
theorem Call.conflicts_of_omitted {vars : List TypeVariable}
    {inputs before behind given others : List Binder} {missing : Binder} {output : Ty}
    {memo start mid after : Memo} {found : List Conflict}
    (hparsed : call.callee.isUnparsable = false)
    (htype : Gives (fun n => call.callee.typeOf n) ctx memo (.function vars inputs output) start)
    (hinputs : inputs = before ++ missing :: behind)
    (hrequired : ∀ input ∈ inputs, input.isRequired = true)
    (hapart : inputs.Pairwise fun input other => input.sharesName other = false)
    (harguments : call.inputs = (given ++ others).map .bind)
    (hgiven : List.Forall₂ (NamedAfter inputs) before given)
    (hothers : List.Forall₂ (NamedAfter inputs) behind others)
    (haccepted : Gives (fun n => (before.zip given).allM fun pair =>
      valueAccepted n call (.function vars inputs output) pair.1 pair.2) ctx start true mid) :
    Gives (fun n => call.conflicts n) ctx memo found after ↔
      found = ((missing :: behind).zip others).map
          (fun pair => misplacedConflict pair.1 pair.2) ++
        [missingConflict call ((missing :: behind).getLast (List.cons_ne_nil missing behind))] ∧
      ∃ types, Gives (fun n => (missing :: behind).mapM
        (expectedAt n call (.function vars inputs output))) ctx mid types after := by
  have hbehind (input : Binder) (h : input ∈ missing :: behind) : input.isRequired = true :=
    hrequired input (by rw [hinputs]; exact List.mem_append_right _ h)
  have hshifted : List.Forall₂ (fun input argument => input.sharesName argument = false)
      (missing :: behind).dropLast others :=
    forall₂_dropLast (fun input h => by rw [hinputs]; exact List.mem_append_right _ h)
      (List.pairwise_append.1 (hinputs ▸ hapart)).2.1 hothers
  have hvalues : ∀ argument ∈ call.inputs, (argumentValue argument).isUnparsable = false := by
    intro argument hargument
    rw [harguments, List.map_append, List.mem_append] at hargument
    rcases hargument with h | h <;> obtain ⟨b, hb, rfl⟩ := List.mem_map.1 h
    · exact parsed_of_namedAfter hgiven b hb
    · exact parsed_of_namedAfter hothers b hb
  have hcheck : ∃ enough, ∀ n, enough ≤ n → call.conflicts n ctx memo =
      checkInputs n call (.function vars inputs output) (missing :: behind) (others.map .bind) ctx
        mid :=
    Call.conflicts_after_accepted hparsed htype hinputs hrequired
      (harguments.trans List.map_append) hvalues (hgiven.imp fun _ _ h => h.shares) haccepted
  obtain ⟨enough, hcheck⟩ := hcheck
  constructor
  · rintro ⟨n, h⟩
    have hmore := (settles_callConflicts (Nat.le_max_left n enough) call).same h
    rw [hcheck _ (Nat.le_max_right n enough), checkInputs_shifted hbehind hshifted] at hmore
    obtain ⟨types, last, htypes, hmore⟩ := bind_eq_some.1 hmore
    obtain ⟨rfl, rfl⟩ := pure_eq_some.1 hmore
    exact ⟨rfl, types, _, htypes⟩
  · rintro ⟨rfl, types, n, htypes⟩
    have hless := (congrFun (congrFun (checkInputs_shifted hbehind hshifted) ctx) mid).trans
      (bind_of_eq_some htypes)
    exact ⟨max n enough, (hcheck _ (Nat.le_max_right n enough)).trans
      ((settles_checkInputs (Nat.le_max_left n enough) _ _ _ _).same hless)⟩

end Call

namespace OneLeftOut

/-- The input `a•?`. -/
def first : Binder :=
  binderOf 2 "a" (some .boolean) none

/-- The input `b•?`. -/
def second : Binder :=
  binderOf 3 "b" (some .boolean) none

/-- The function `f(a•? b•?)`, which yields `a`. -/
def function : FunctionDef :=
  functionOf 1 "f" [first, second] (some .boolean) (some (referenceOf 4 "a"))

/-- The argument `b: ⊤`. -/
def forSecond : Binder :=
  bindingOf 7 "b" (booleanOf 8 true)

/-- The call `f(b: ⊤)`. -/
def call : Call :=
  callWith 5 (referenceOf 6 "f") [.bind forSecond]

def context : Context :=
  { lexicon := Program.lexicon ⟨.block ⟨0⟩ [.function function, .call call]⟩ }

theorem forSecond_namedAfter : NamedAfter function.inputs second forSecond := by
  refine ⟨rfl, fun other hother hshares => ?_, _, rfl, rfl⟩
  rcases List.mem_cons.1 hother with rfl | hother
  · exact absurd hshares (by decide)
  · exact List.mem_singleton.1 hother

/-- In `f(b: ⊤)` the input `a` is left out, and `b` gets a value that it accepts.  What is reported
is not that `a` is missing, but that `b` is given where `a` stands and that `b` is missing. -/
theorem second_missing :
    (∀ input ∈ function.inputs, input.isRequired = true) ∧
    (function.inputs.Pairwise fun input other => input.sharesName other = false) ∧
    NamedAfter function.inputs second forSecond ∧
    (∃ mid, Gives (fun n => valueAccepted n call (.function [] function.inputs .boolean) second
      forSecond) context .empty true mid) ∧
    ∃ after, Gives (fun n => call.conflicts n) context .empty
      [misplacedConflict first forSecond, missingConflict call second] after ∧
      [misplacedConflict first forSecond, missingConflict call second] ≠
        [missingConflict call first] :=
  ⟨by decide, by decide, forSecond_namedAfter, ⟨_, 20, rfl⟩, _, ⟨20, rfl⟩, by simp⟩

/-- The input `c•?`. -/
def third : Binder :=
  binderOf 9 "c" (some .boolean) none

/-- The same function with one more input. -/
def wider : FunctionDef :=
  { function with inputs := [first, second, third] }

/-- The argument `a: ⊥`. -/
def forFirst : Binder :=
  bindingOf 10 "a" (booleanOf 11 false)

/-- The argument `c: ⊤`. -/
def forThird : Binder :=
  bindingOf 12 "c" (booleanOf 13 true)

/-- The call `f(a: ⊥ c: ⊤)`. -/
def gap : Call :=
  { call with inputs := [.bind forFirst, .bind forThird] }

def widerContext : Context :=
  { lexicon := Program.lexicon ⟨.block ⟨0⟩ [.function wider, .call gap]⟩ }

theorem namedAfter_wider :
    NamedAfter wider.inputs first forFirst ∧ NamedAfter wider.inputs third forThird := by
  constructor <;> refine ⟨rfl, fun other hother hshares => ?_, _, rfl, rfl⟩ <;>
    rcases List.mem_cons.1 hother with rfl | hother
  · rfl
  · rcases List.mem_pair.1 hother with rfl | rfl <;> exact absurd hshares (by decide)
  · exact absurd hshares (by decide)
  · rcases List.mem_pair.1 hother with rfl | rfl
    · exact absurd hshares (by decide)
    · rfl

/-- Of three inputs the middle one is left out. -/
theorem conflicts_middle_left_out :
    ∃ after, Gives (fun n => gap.conflicts n) widerContext .empty
      [misplacedConflict second forThird, missingConflict gap third] after := by
  obtain ⟨start, htype, mid, haccepted, htypes⟩ : ∃ start,
      Gives (fun n => gap.callee.typeOf n) widerContext .empty (.function [] wider.inputs .boolean)
        start ∧
      ∃ mid, Gives (fun n => ([first].zip [forFirst]).allM fun pair => valueAccepted n gap
          (.function [] wider.inputs .boolean) pair.1 pair.2) widerContext start true mid ∧
        Gives (fun n => [second, third].mapM
          (expectedAt n gap (.function [] wider.inputs .boolean))) widerContext mid
            [.boolean, .boolean] mid :=
    ⟨_, ⟨20, rfl⟩, _, ⟨20, rfl⟩, 20, rfl⟩
  obtain ⟨hfirst, hthird⟩ := namedAfter_wider
  exact ⟨mid, (Call.conflicts_of_omitted rfl htype rfl (by decide) (by decide) rfl
    (.cons hfirst .nil) (.cons hthird .nil) haccepted).2 ⟨rfl, _, htypes⟩⟩

end OneLeftOut

end Stepwise

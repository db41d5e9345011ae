import Stepwise.Proofs.Call.Reports
import Stepwise.Proofs.Sample

/-!
# What optional inputs get

An optional input should get the argument named after it, else the next argument without a name,
else its default.  `owed?` is that argument.  Matching looks for an argument without a name at the
front of the pool only (`picked?`).  So an argument that is named after another input withholds the
ones behind it (`Withheld`), and just then an optional input does not get what it is owed
(`picked?_eq_owed?_iff`).

`Call.optional_filled` says so for each optional input of a callee, wherever it stands and whatever
the inputs before it have taken, and that checking the call consumes the same argument as planning
it.
-/

namespace Stepwise

/-! ## One input -/

/-- The argument of a pool that an optional input is owed: the first one named after it, else the
first one without a name, wherever it stands. -/
def owed? (input : Binder) (pool : List Expr) : Option Expr :=
  (pool.find? (isNamedFor input)).or (pool.find? isPositional)

/-- The argument of a pool that an optional input gets: the first one named after it, else the one
at the front if that has no name. -/
def picked? (input : Binder) (pool : List Expr) : Option Expr :=
  (pool.find? (isNamedFor input)).or (pool.head?.filter isPositional)

/-- No argument is named after the input, and a named one stands in front of those without a
name. -/
structure Withheld (input : Binder) (pool : List Expr) : Prop where
  unnamed : ∀ e ∈ pool, isNamedFor input e = false
  front : ∃ e, pool.head? = some e ∧ isPositional e = false
  behind : ∃ e ∈ pool, isPositional e = true

/-- What an optional input takes that gets this argument, or none. -/
def Taken.ofArgument? : Option Expr → Taken
  | some e => .argument e
  | none => .nothing

/-- The slot of an optional input that gets this argument, or none. -/
def Slot.ofArgument? (default : Expr) : Option Expr → Slot
  | some e => .given (argumentValue e)
  | none => .default default

section Input

variable {input : Binder} {pool : List Expr}

theorem Binder.isRequired_eq_false_of_value {default : Expr} (h : input.value = some default) :
    input.isRequired = false := by
  simp [Binder.isRequired, h]

theorem find?_isNamedFor_eq_none (h : ∀ e ∈ pool, isNamedFor input e = false) :
    pool.find? (isNamedFor input) = none :=
  List.find?_eq_none.2 fun e he => by simp [h e he]

theorem Withheld.picked?_eq_none (h : Withheld input pool) : picked? input pool = none := by
  obtain ⟨first, hfirst, hname⟩ := h.front
  rw [picked?, find?_isNamedFor_eq_none h.unnamed, Option.none_or, hfirst]
  simp [hname]

theorem Withheld.owed?_eq_some (h : Withheld input pool) : ∃ e, owed? input pool = some e := by
  obtain ⟨e, he, hpositional⟩ := h.behind
  rw [owed?, find?_isNamedFor_eq_none h.unnamed, Option.none_or]
  exact Option.isSome_iff_exists.1 (List.find?_isSome.2 ⟨e, he, hpositional⟩)

/-- An optional input gets what it is owed, unless that is withheld from it. -/
theorem picked?_eq_owed? (h : ¬ Withheld input pool) : picked? input pool = owed? input pool := by
  unfold picked? owed?
  cases hnamed : pool.find? (isNamedFor input) with
  | some e => rfl
  | none =>
    rw [Option.none_or, Option.none_or]
    cases pool with
    | nil => rfl
    | cons first pool =>
      cases hfirst : isPositional first with
      | true => simp [hfirst]
      | false =>
        have hnone : (first :: pool).find? isPositional = none :=
          List.find?_eq_none.2 fun e he hpositional =>
            h ⟨fun other hother => Bool.eq_false_iff.2 (List.find?_eq_none.1 hnamed other hother),
              ⟨first, rfl, hfirst⟩, ⟨e, he, hpositional⟩⟩
        rw [hnone]
        simp [hfirst]

/-- What an optional input takes is the argument that it gets. -/
theorem Picks.taken_eq {taken : Taken} {left : List Expr} (hq : input.isRequired = false)
    (hr : input.rest = false) (h : Picks input pool taken left) :
    taken = .ofArgument? (picked? input pool) := by
  cases h with
  | next h => simp [h] at hq
  | missing h => simp [h] at hq
  | all h => simp [h] at hr
  | @named _ _ before after e hbefore hnamed =>
    have hfind : (before ++ e :: after).find? (isNamedFor input) = some e := by
      rw [List.find?_append, find?_isNamedFor_eq_none hbefore, Option.none_or,
        List.find?_cons_of_pos hnamed]
    rw [picked?, hfind]
    rfl
  | first _ _ hnone hpositional =>
    rw [picked?, find?_isNamedFor_eq_none hnone, Option.none_or, List.head?_cons,
      Option.filter_some, if_pos hpositional]
    rfl
  | nothing _ _ hnone hhead =>
    rw [picked?, find?_isNamedFor_eq_none hnone, Option.none_or]
    have hfront : pool.head?.filter isPositional = none :=
      Option.filter_eq_none_iff.2 fun e he => by simp [hhead e he]
    rw [hfront]
    rfl

theorem Slot.ofTaken_ofArgument? {default : Expr} (hvalue : input.value = some default)
    (picked : Option Expr) :
    Slot.ofTaken input (.ofArgument? picked) = .ofArgument? default picked := by
  cases picked with
  | some e => rfl
  | none => simp [ofTaken, Taken.ofArgument?, ofArgument?, hvalue]

theorem Slot.missing?_ofArgument? (default : Expr) (picked : Option Expr) :
    (Slot.ofArgument? default picked).missing? = none := by
  cases picked <;> rfl

/-- The slot is the one that the input is owed, unless that is withheld from it. -/
theorem Slot.ofArgument?_eq_iff {default : Expr} :
    Slot.ofArgument? default (picked? input pool) = .ofArgument? default (owed? input pool) ↔
      ¬ Withheld input pool := by
  constructor
  · intro h hwithheld
    obtain ⟨e, howed⟩ := hwithheld.owed?_eq_some
    rw [hwithheld.picked?_eq_none, howed] at h
    cases h
  · intro h
    rw [picked?_eq_owed? h]

end Input

/-! ## All inputs -/

section Inputs

variable {before behind : List Binder} {input : Binder} {pool : List Expr}

theorem plan_append (before behind : List Binder) (pool : List Expr) :
    plan (before ++ behind) pool = plan before pool ++ plan behind (unused before pool) := by
  induction before generalizing pool with
  | nil => rfl
  | cons input before ih => simp only [List.cons_append, plan_cons, ih, unused]

/-- A slot is missing only when the pool is empty. -/
theorem takeFor_of_missing {missing : Binder}
    (h : (Slot.ofTaken input (takeFor input pool).1).missing? = some missing) :
    (takeFor input pool).2 = [] := by
  have htakes := takes_takeFor input pool
  generalize takeFor input pool = result at h htakes ⊢
  obtain ⟨taken, left⟩ := result
  cases htakes with
  | all => rfl
  | one => exact nomatch h
  | nothing hrest hempty =>
    rw [missing?_ofTaken_nothing hrest] at h
    split at h
    case isTrue hq => exact hempty hq
    case isFalse => exact nomatch h

/-- Once a slot has been missing, nothing is left for other inputs. -/
theorem unused_eq_nil_of_missing {missing : Binder}
    (h : (plan before pool).findSome? Slot.missing? = some missing) : unused before pool = [] := by
  induction before generalizing pool with
  | nil => exact nomatch h
  | cons input before ih =>
    rw [plan_cons, List.findSome?_cons] at h
    cases hslot : (Slot.ofTaken input (takeFor input pool).1).missing? with
    | some _ =>
      rw [unused, takeFor_of_missing hslot]
      exact List.sublist_nil.1 (sublist_unused before [])
    | none =>
      rw [hslot] at h
      exact ih h

/-- Checking ends at a missing slot.  Otherwise it goes on with the arguments that the inputs have
not used. -/
theorem checkInputs_append {budget : Nat} {ctx : Context} {memo after : Memo} {call : Call}
    {callee : Callee} {found : List Conflict}
    (h : checkInputs budget call callee (before ++ behind) pool ctx memo = some (found, after)) :
    ∃ earlier, (∀ c ∈ earlier, ConcernsOne before pool c) ∧
      ((∃ missing, (plan before pool).findSome? Slot.missing? = some missing ∧
          found = earlier ++ [missingConflict call missing]) ∨
        ∃ mid later, checkInputs budget call callee behind (unused before pool) ctx mid =
          some (later, after) ∧ found = earlier ++ later) := by
  induction before generalizing pool memo found with
  | nil => exact ⟨[], List.forall_mem_nil _, .inr ⟨memo, found, h, rfl⟩⟩
  | cons input before ih =>
    rcases checkInputs_cons h with
      ⟨hslot, rfl⟩ | ⟨hslot, expected, start, own, mid, others, -, hown, hothers, rfl⟩
    · exact ⟨[], List.forall_mem_nil _, .inl ⟨input, by simp [plan_cons, hslot], rfl⟩⟩
    · obtain ⟨earlier, hearlier, hends⟩ := ih hothers
      refine ⟨own ++ earlier, fun c hc => ?_, ?_⟩
      · rcases List.mem_append.1 hc with hc | hc
        · exact .here (concerns_checkTaken hown c hc)
        · exact .later (hearlier c hc)
      · rcases hends with ⟨missing, hmissing, rfl⟩ | ⟨mid', later, hlater, rfl⟩
        · exact .inl ⟨missing, by simp [plan_cons, hslot, hmissing], (List.append_assoc ..).symm⟩
        · exact .inr ⟨mid', later, hlater, (List.append_assoc ..).symm⟩

end Inputs

/-! ## An optional input of a call -/

/-- The conflicts of the argument that an optional input gets, if it gets one. -/
def checkPicked (budget : Nat) (input : Binder) (expected : Ty) :
    Option Expr → Query (List Conflict)
  | some e => checkArgument budget input e expected
  | none => pure []

/-- Checking a call consumes what an optional input gets, and leaves `left` to the inputs behind. -/
inductive ConsumedAt (budget : Nat) (ctx : Context) (call : Call) (callee : Callee)
    (before behind : List Binder) (input : Binder) (left : List Expr) (found : List Conflict)
    (after : Memo) : Prop
  /-- Checking has ended at an input before that got nothing.  Nothing is left to be consumed. -/
  | ended {earlier : List Conflict} {missing : Binder}
      (hearlier : ∀ c ∈ earlier, ConcernsOne before call.inputs c)
      (hmissing : (plan before call.inputs).findSome? Slot.missing? = some missing)
      (hpool : unused before call.inputs = [])
      (hfound : found = earlier ++ [missingConflict call missing])
  /-- The conflicts of the inputs before are followed by those of what the input gets, and then by
  those of checking the inputs behind. -/
  | reached {earlier own later : List Conflict} {start typed mid : Memo} {expected : Ty}
      (hearlier : ∀ c ∈ earlier, ConcernsOne before call.inputs c)
      (hexpected : expectedAt budget call callee input ctx start = some (expected, typed))
      (hown : checkPicked budget input expected (picked? input (unused before call.inputs)) ctx
        typed = some (own, mid))
      (hlater : checkInputs budget call callee behind left ctx mid = some (later, after))
      (hfound : found = earlier ++ (own ++ later))

/-- How an optional input between others is filled from what the inputs before have left. -/
structure OptionalFilled (call : Call) (callee : Callee) (before behind : List Binder)
    (input : Binder) (default : Expr) (left : List Expr) : Prop where
  slot : plan callee.inputs call.inputs = plan before call.inputs ++
    .ofArgument? default (picked? input (unused before call.inputs)) :: plan behind left
  /-- The slot is the one that the input is owed, unless that is withheld from it. -/
  owed : Slot.ofArgument? default (picked? input (unused before call.inputs)) =
      .ofArgument? default (owed? input (unused before call.inputs)) ↔
    ¬ Withheld input (unused before call.inputs)
  /-- The argument that the input gets is the one that the inputs behind do not find. -/
  takes : Picks input (unused before call.inputs)
    (.ofArgument? (picked? input (unused before call.inputs))) left
  /-- So it is for checking the call, if its arguments are checked at all. -/
  checked : ∀ {budget : Nat} {ctx : Context} {memo mid after : Memo} {calleeTy : Ty}
    {found : List Conflict}, call.callee.isUnparsable = false →
    call.callee.typeOf budget ctx memo = some (calleeTy, mid) →
    Callee.ofTy? calleeTy = some callee →
    (∀ definition args, callee = .struct definition args → definition.abstractFunctions = []) →
    inputListConflicts callee.inputs = [] →
    (∀ argument ∈ call.inputs, (argumentValue argument).isUnparsable = false) →
    call.conflicts budget ctx memo = some (found, after) →
    ConsumedAt budget ctx call callee before behind input left found after

theorem consumedAt_of_checkInputs {budget : Nat} {ctx : Context} {memo after : Memo} {call : Call}
    {callee : Callee} {before behind : List Binder} {input : Binder} {left : List Expr}
    {default : Expr} {found : List Conflict} (hvalue : input.value = some default)
    (htake : takeFor input (unused before call.inputs) =
      (.ofArgument? (picked? input (unused before call.inputs)), left))
    (h : checkInputs budget call callee (before ++ input :: behind) call.inputs ctx memo =
      some (found, after)) :
    ConsumedAt budget ctx call callee before behind input left found after := by
  obtain ⟨earlier, hearlier, ⟨missing, hmissing, hfound⟩ | ⟨mid, others, hothers, rfl⟩⟩ :=
    checkInputs_append h
  · exact .ended hearlier hmissing (unused_eq_nil_of_missing hmissing) hfound
  · rcases checkInputs_cons hothers with
      ⟨hslot, -⟩ | ⟨-, expected, typed, own, last, later, hexpected, hown, hlater, rfl⟩
    · -- The slot of an optional input is never missing.
      rw [htake, Slot.ofTaken_ofArgument? hvalue, Slot.missing?_ofArgument?] at hslot
      cases hslot
    · rw [htake] at hown hlater
      refine .reached hearlier hexpected ?_ hlater rfl
      cases hpicked : picked? input (unused before call.inputs) with
      | none =>
        rw [hpicked] at hown
        exact hown
      | some e =>
        have hq : input.isRequired = false := Binder.isRequired_eq_false_of_value hvalue
        rw [hpicked] at hown
        simpa only [Taken.ofArgument?, checkPicked, checkTaken, hq, Bool.false_eq_true, if_false]
          using hown

/-- Each optional input gets the argument that is named after it, or else the one at the front of
what is left if that has no name, or else its default; so it gets what it is owed unless a named
argument withholds that from it. -/
theorem Call.optional_filled {call : Call} {callee : Callee} {before behind : List Binder}
    {input : Binder} {default : Expr} (hinputs : callee.inputs = before ++ input :: behind)
    (hvalue : input.value = some default) (hrest : input.rest = false) :
    ∃ left, OptionalFilled call callee before behind input default left := by
  have hq : input.isRequired = false := Binder.isRequired_eq_false_of_value hvalue
  have hpicks := picks_takeFor input (unused before call.inputs)
  have htaken := hpicks.taken_eq hq hrest
  refine ⟨(takeFor input (unused before call.inputs)).2, ?_⟩
  exact
    { slot := by
        rw [hinputs, plan_append, plan_cons, htaken, Slot.ofTaken_ofArgument? hvalue]
      owed := Slot.ofArgument?_eq_iff
      takes := htaken ▸ hpicks
      checked := fun hparsed htype hcallee hconcrete hlist harguments h =>
        consumedAt_of_checkInputs hvalue (Prod.ext htaken rfl)
          (hinputs ▸ checkInputs_of_conflicts hparsed htype hcallee hconcrete hlist harguments h) }

namespace Shadowed

/-- The input `a•?: ⊥`. -/
def first : Binder :=
  binderOf 2 "a" (some .boolean) (some (booleanOf 3 false))

/-- The input `b•?: ⊥`. -/
def second : Binder :=
  binderOf 4 "b" (some .boolean) (some (booleanOf 5 false))

/-- The function `f(a•?: ⊥ b•?: ⊥)`, which yields `a`. -/
def function : FunctionDef :=
  functionOf 1 "f" [first, second] (some .boolean) (some (referenceOf 6 "a"))

/-- A call of the function. -/
def applied (arguments : List Expr) : Call :=
  callWith 7 (referenceOf 8 "f") arguments

/-- The argument `b: ⊤`. -/
def forSecond : Expr :=
  .bind (bindingOf 9 "b" (booleanOf 10 true))

/-- A program of the function and a call of it. -/
def context (call : Call) : Context :=
  { lexicon := Program.lexicon ⟨.block ⟨0⟩ [.function function, .call call]⟩ }

/-- In `f(b: ⊤, ⊤)` the first input is owed the `⊤` without a name.  It gets its default, and the
`⊤` is left over and reported. -/
theorem default_in_place :
    let call := applied [forSecond, booleanOf 11 true]
    inputListConflicts function.inputs = [] ∧ owed? first call.inputs = some (booleanOf 11 true) ∧
      plan function.inputs call.inputs =
        [.default (booleanOf 3 false), .given (booleanOf 10 true)] ∧
      ∃ found after, call.conflicts 20 (context call) .empty = some (found, after) ∧
        found.map Conflict.primary = [[⟨11⟩]] := by
  refine ⟨rfl, rfl, rfl, ?_⟩
  have hfound : ((applied [forSecond, booleanOf 11 true]).conflicts 20
      (context (applied [forSecond, booleanOf 11 true])) .empty).any
      (fun found => found.1.map Conflict.primary == [[⟨11⟩]]) = true := by decide +kernel
  obtain ⟨⟨found, after⟩, h, hprimary⟩ := (Option.any_eq_true _ _).1 hfound
  exact ⟨found, after, h, by simpa using hprimary⟩

/-- In `f(⊤, b: ⊤)` the first input gets the `⊤` without a name that it is owed. -/
theorem optional_filled_first :
    let call := applied [booleanOf 11 true, forSecond]
    let callee := Callee.function [] function.inputs .boolean
    callee.inputs = [] ++ first :: [second] ∧ first.value = some (booleanOf 3 false) ∧
      first.rest = false ∧ picked? first call.inputs = some (booleanOf 11 true) ∧
      ∃ left, OptionalFilled call callee [] [second] first (booleanOf 3 false) left ∧
        ∃ found after, call.conflicts 20 (context call) .empty = some (found, after) ∧
          ConsumedAt 20 (context call) call callee [] [second] first left found after := by
  intro call callee
  have hfound : (call.conflicts 20 (context call) .empty).isSome = true := by decide +kernel
  have htype : ∃ mid, call.callee.typeOf 20 (context call) .empty =
      some (.function [] function.inputs .boolean, mid) := ⟨_, rfl⟩
  obtain ⟨⟨found, after⟩, h⟩ := Option.isSome_iff_exists.1 hfound
  obtain ⟨mid, htype⟩ := htype
  obtain ⟨left, hfilled⟩ :=
    @Call.optional_filled call callee [] [second] first (booleanOf 3 false) rfl rfl rfl
  exact ⟨rfl, rfl, rfl, rfl, left, hfilled, found, after, h,
    hfilled.checked rfl htype rfl (fun _ _ => nofun) rfl (by decide) h⟩

end Shadowed

end Stepwise

import Stepwise.Call.Plan

/-!
# How arguments feed slots

Matching goes through the inputs and takes arguments from a pool that shrinks.  `takes_takeFor` says
what one input can take: everything, one argument wherever it stands, or nothing.  From it follows
how the arguments of a call are spread over the slots of its plan, which ask for what the arguments
give and for defaults (`value_of_plan`).  `fed` lists the arguments that feed each slot and `unused`
those that feed none; together they are the arguments of the call (`perm_fed_unused`), the unused
ones in the order in which they were written (`sublist_unused`).
-/

namespace Stepwise

/-! ## One input -/

/-- Whether an argument has no name. -/
def isPositional (e : Expr) : Bool :=
  (namedArgument? e).isNone

/-- What an input takes from a pool, and what it leaves: the rule of matching. -/
inductive Picks (input : Binder) : List Expr → Taken → List Expr → Prop
  /-- A required input takes the next argument. -/
  | next (hq : input.isRequired = true) (e : Expr) (pool : List Expr) :
    Picks input (e :: pool) (.argument e) pool
  | missing (hq : input.isRequired = true) : Picks input [] .nothing []
  /-- An input that collects what is left takes everything. -/
  | all (hr : input.rest = true) (pool : List Expr) : Picks input pool (.rest pool) []
  /-- An optional input takes the first argument named after it. -/
  | named (hq : input.isRequired = false) (hr : input.rest = false) {before after : List Expr}
      {e : Expr} (hbefore : ∀ other ∈ before, isNamedFor input other = false)
      (hnamed : isNamedFor input e = true) :
    Picks input (before ++ e :: after) (.argument e) (before ++ after)
  /-- If none is named after it, it takes the first argument of the pool if that has no name. -/
  | first (hq : input.isRequired = false) (hr : input.rest = false) {e : Expr} {pool : List Expr}
      (hnone : ∀ other ∈ e :: pool, isNamedFor input other = false)
      (hpositional : isPositional e = true) : Picks input (e :: pool) (.argument e) pool
  /-- It takes nothing if the first argument of the pool has a name. -/
  | nothing (hq : input.isRequired = false) (hr : input.rest = false) {pool : List Expr}
      (hnone : ∀ other ∈ pool, isNamedFor input other = false)
      (hhead : ∀ e, pool.head? = some e → isPositional e = false) :
    Picks input pool .nothing pool

/-- What an input can take from a pool, and what it leaves. -/
inductive Takes (input : Binder) (pool : List Expr) : Taken → List Expr → Prop
  | all (hrest : input.rest = true) : Takes input pool (.rest pool) []
  | one (hrest : input.rest = false) {before after : List Expr} {e : Expr}
      (hpool : pool = before ++ e :: after) : Takes input pool (.argument e) (before ++ after)
  /-- A required input takes nothing only if there is nothing. -/
  | nothing (hrest : input.rest = false) (hempty : input.isRequired = true → pool = []) :
      Takes input pool .nothing pool

/-- The arguments that an input has taken. -/
def Taken.arguments : Taken → List Expr
  | .argument e => [e]
  | .rest es => es
  | .nothing => []

variable {input : Binder} {pool : List Expr}

theorem isNamedFor_eq_false_of_isPositional {e : Expr} (h : isPositional e = true) :
    isNamedFor input e = false := by
  rw [isPositional, Option.isNone_iff_eq_none] at h
  rw [isNamedFor, h]

theorem isPositional_eq_false_of_isNamedFor {e : Expr} (h : isNamedFor input e = true) :
    isPositional e = false :=
  Bool.eq_false_iff.2 fun hpositional =>
    Bool.noConfusion (h.symm.trans (isNamedFor_eq_false_of_isPositional hpositional))

theorem takeNamed_eq_some {e : Expr} {left : List Expr}
    (h : takeNamed input pool = some (e, left)) :
    ∃ before after, pool = before ++ e :: after ∧ left = before ++ after ∧
      isNamedFor input e = true ∧ ∀ other ∈ before, isNamedFor input other = false := by
  induction pool generalizing left with
  | nil => exact nomatch h
  | cons first pool ih =>
    rw [takeNamed] at h
    split at h
    case isTrue hnamed =>
      obtain ⟨rfl, rfl⟩ := Prod.mk.inj (Option.some.inj h)
      exact ⟨[], pool, rfl, rfl, hnamed, List.forall_mem_nil _⟩
    case isFalse hfirst =>
      obtain ⟨⟨found, rest⟩, hfound, heq⟩ := Option.map_eq_some_iff.1 h
      obtain ⟨rfl, rfl⟩ := Prod.mk.inj heq
      obtain ⟨before, after, rfl, rfl, hnamed, hbefore⟩ := ih hfound
      exact ⟨first :: before, after, rfl, rfl, hnamed,
        List.forall_mem_cons.2 ⟨Bool.not_eq_true _ ▸ hfirst, hbefore⟩⟩

theorem takeNamed_eq_none (h : takeNamed input pool = none) :
    ∀ e ∈ pool, isNamedFor input e = false := by
  induction pool with
  | nil => exact List.forall_mem_nil _
  | cons first pool ih =>
    rw [takeNamed] at h
    split at h
    case isTrue => exact nomatch h
    case isFalse hfirst =>
      exact List.forall_mem_cons.2
        ⟨Bool.not_eq_true _ ▸ hfirst, ih (Option.map_eq_none_iff.1 h)⟩

theorem Binder.isRequired_eq_false_of_rest (h : input.rest = true) : input.isRequired = false := by
  simp [Binder.isRequired, h]

theorem Binder.rest_eq_false_of_isRequired (h : input.isRequired = true) : input.rest = false := by
  simpa using (Bool.and_eq_true_iff.1 h).2

theorem picks_takeFor (input : Binder) (pool : List Expr) :
    Picks input pool (takeFor input pool).1 (takeFor input pool).2 := by
  unfold takeFor
  cases hq : input.isRequired with
  | true =>
    cases pool with
    | nil => exact .missing hq
    | cons e pool => exact .next hq e pool
  | false =>
    cases hr : input.rest with
    | true => exact .all hr pool
    | false =>
      simp only [Bool.false_eq_true, if_false]
      cases hn : takeNamed input pool with
      | some found =>
        obtain ⟨e, left⟩ := found
        obtain ⟨before, after, rfl, rfl, hnamed, hbefore⟩ := takeNamed_eq_some hn
        exact .named hq hr hbefore hnamed
      | none =>
        have hnone := takeNamed_eq_none hn
        cases pool with
        | nil => exact .nothing hq hr hnone nofun
        | cons e pool =>
          simp only [takePositional]
          split
          case isTrue hpositional => exact .first hq hr hnone hpositional
          case isFalse hpositional =>
            refine .nothing hq hr hnone fun head hhead => ?_
            obtain rfl : e = head := Option.some.inj hhead
            exact Bool.not_eq_true _ ▸ hpositional

theorem Picks.takes {taken : Taken} {left : List Expr} (h : Picks input pool taken left) :
    Takes input pool taken left := by
  cases h with
  | next hq e pool =>
    exact .one (Binder.rest_eq_false_of_isRequired hq) (List.nil_append _).symm
  | missing hq => exact .nothing (Binder.rest_eq_false_of_isRequired hq) fun _ => rfl
  | all hr => exact .all hr
  | named _ hr => exact .one hr rfl
  | first _ hr => exact .one hr (List.nil_append _).symm
  | nothing hq hr => exact .nothing hr fun h => by simp [hq] at h

theorem takes_takeFor (input : Binder) (pool : List Expr) :
    Takes input pool (takeFor input pool).1 (takeFor input pool).2 :=
  (picks_takeFor input pool).takes

theorem Takes.perm {taken : Taken} {left : List Expr} (h : Takes input pool taken left) :
    (taken.arguments ++ left).Perm pool := by
  cases h with
  | all => simp [Taken.arguments]
  | one hrest hpool =>
    subst hpool
    simpa [Taken.arguments] using List.perm_middle.symm
  | nothing => exact .refl _

theorem Takes.sublist {taken : Taken} {left : List Expr} (h : Takes input pool taken left) :
    left.Sublist pool := by
  cases h with
  | all => exact List.nil_sublist _
  | one hrest hpool =>
    subst hpool
    exact (List.Sublist.refl _).append (List.sublist_cons_self ..)
  | nothing => exact .refl _

/-- An input takes arguments of the pool. -/
theorem mem_of_taken {e : Expr} (h : e ∈ (takeFor input pool).1.arguments) : e ∈ pool :=
  (takes_takeFor input pool).perm.subset (List.mem_append_left _ h)

/-- An input leaves a part of the pool. -/
theorem mem_of_takeFor {e : Expr} (h : e ∈ (takeFor input pool).2) : e ∈ pool :=
  (takes_takeFor input pool).sublist.subset h

/-! ## All inputs -/

/-- The arguments that feed each slot of a plan, in the order of the slots. -/
def fed : List Binder → List Expr → List (List Expr)
  | [], _ => []
  | input :: inputs, pool => (takeFor input pool).1.arguments :: fed inputs (takeFor input pool).2

/-- The arguments that feed no slot of a plan. -/
def unused : List Binder → List Expr → List Expr
  | [], pool => pool
  | input :: inputs, pool => unused inputs (takeFor input pool).2

/-- The expressions whose values a slot asks for. -/
def Slot.values : Slot → List Expr
  | .given value => [value]
  | .default value => [value]
  | .missing _ => []
  | .rest values => values

/-- The values of a slot that arguments give. -/
def Slot.fromArguments : Slot → List Expr
  | .given value => [value]
  | .rest values => values
  | .default _ => []
  | .missing _ => []

/-- The input that a slot has nothing for. -/
def Slot.missing? : Slot → Option Binder
  | .missing input => some input
  | _ => none

theorem Slot.fromArguments_ofTaken (input : Binder) (taken : Taken) :
    (Slot.ofTaken input taken).fromArguments = taken.arguments.map argumentValue := by
  cases taken with
  | argument e => rfl
  | rest es => rfl
  | nothing => cases h : input.value <;> simp [Slot.ofTaken, h, fromArguments, Taken.arguments]

/-- What a slot asks for is the default of its input, or what an argument gives. -/
theorem value_of_slotOfTaken {taken : Taken} {value : Expr}
    (h : value ∈ (Slot.ofTaken input taken).values) :
    (Slot.ofTaken input taken = .default value ∧ input.value = some value) ∨
      ∃ argument ∈ taken.arguments, value = argumentValue argument := by
  cases taken with
  | argument e => exact .inr ⟨e, List.mem_singleton.2 rfl, List.mem_singleton.1 h⟩
  | rest arguments =>
    obtain ⟨e, he, rfl⟩ := List.mem_map.1 h
    exact .inr ⟨e, he, rfl⟩
  | nothing =>
    unfold Slot.ofTaken at h ⊢
    cases hv : input.value with
    | none =>
      rw [hv] at h
      cases h
    | some default =>
      rw [hv] at h
      obtain rfl := List.mem_singleton.1 h
      exact .inl ⟨rfl, rfl⟩

/-- What the slots of a plan ask for are defaults of inputs, and what arguments give. -/
theorem value_of_plan {inputs : List Binder} {slot : Slot} {value : Expr}
    (hslot : slot ∈ plan inputs pool) (hvalue : value ∈ slot.values) :
    (slot = .default value ∧ ∃ input ∈ inputs, input.value = some value) ∨
      ∃ argument ∈ pool, value = argumentValue argument := by
  induction inputs generalizing pool with
  | nil => cases hslot
  | cons input inputs ih =>
    rcases List.mem_cons.1 hslot with rfl | hslot
    · rcases value_of_slotOfTaken hvalue with ⟨hdefault, heq⟩ | ⟨argument, hmem, heq⟩
      · exact .inl ⟨hdefault, input, List.mem_cons_self, heq⟩
      · exact .inr ⟨argument, mem_of_taken hmem, heq⟩
    · rcases ih hslot with ⟨hdefault, other, hother, heq⟩ | ⟨argument, hmem, heq⟩
      · exact .inl ⟨hdefault, other, List.mem_cons_of_mem _ hother, heq⟩
      · exact .inr ⟨argument, mem_of_takeFor hmem, heq⟩

theorem plan_cons (input : Binder) (inputs : List Binder) (pool : List Expr) :
    plan (input :: inputs) pool =
      .ofTaken input (takeFor input pool).1 :: plan inputs (takeFor input pool).2 := rfl

/-- The slots of a plan get their values from the arguments that feed them. -/
theorem map_fromArguments_plan (inputs : List Binder) (pool : List Expr) :
    (plan inputs pool).map Slot.fromArguments = (fed inputs pool).map (List.map argumentValue) := by
  induction inputs generalizing pool with
  | nil => rfl
  | cons input inputs ih => simp [plan_cons, fed, Slot.fromArguments_ofTaken, ih]

/-- Every argument feeds one slot or none. -/
theorem perm_fed_unused (inputs : List Binder) (pool : List Expr) :
    ((fed inputs pool).flatten ++ unused inputs pool).Perm pool := by
  induction inputs generalizing pool with
  | nil => exact .refl _
  | cons input inputs ih =>
    have htakes := takes_takeFor input pool
    simp only [fed, unused, List.flatten_cons, List.append_assoc]
    exact ((ih _).append_left _).trans htakes.perm

/-- The arguments that feed no slot keep their order. -/
theorem sublist_unused (inputs : List Binder) (pool : List Expr) :
    (unused inputs pool).Sublist pool := by
  induction inputs generalizing pool with
  | nil => exact .refl _
  | cons input inputs ih => exact (ih _).trans (takes_takeFor input pool).sublist

end Stepwise

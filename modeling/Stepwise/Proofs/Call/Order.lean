import Mathlib.Data.List.Basic
import Stepwise.Call.Inputs
import Stepwise.Proofs.Call.Binding

/-!
# The order of inputs

A list of inputs is in order if the required ones come first, then those that have a default value,
and at most one that collects the rest closes the list.  The conflicts of a list name the inputs
that stand against this, each at its place (`inputListConflicts_iff_inOrder`).

Binding relies on the order.  An input that collects the rest leaves nothing, so a fixed input
behind it is deprived of its value although the call laid one out (`bindInputs_eq_error_iff`).
-/

namespace Stepwise

/-! ## Lists in order -/

/-- The three parts of a list of inputs that is in order. -/
structure InputOrder (inputs required optional collecting : List Binder) : Prop where
  parts : inputs = required ++ optional ++ collecting
  isRequired : ∀ input ∈ required, input.isRequired = true
  hasDefault : ∀ input ∈ optional, input.hasDefault = true ∧ input.rest = false
  rest : ∀ input ∈ collecting, input.rest = true
  one : collecting.length ≤ 1

/-- A list of inputs has the required ones first and one that collects the rest at most at its
end. -/
def InOrder (inputs : List Binder) : Prop :=
  ∃ required optional collecting, InputOrder inputs required optional collecting

/-- The conflicts of the input at a position. -/
def inputConflictsAt (inputs : List Binder) (input : Binder) (i : Nat) : List Conflict :=
  (if input.isRequired = true ∧ ∃ earlier ∈ inputs.take i, earlier.isRequired = false then
      [{ kind := .requiredAfterOptional input.primaryName, primary := [input.id] }]
    else []) ++
    if input.rest = true ∧ i + 1 ≠ inputs.length then
      [{ kind := .variableLengthNotLast input.primaryName, primary := [input.id] }]
    else []

section Order

variable {seen : Bool} {input : Binder} {inputs required optional collecting : List Binder}

theorem Binder.isRequired_iff : input.isRequired = true ↔
    input.hasDefault = false ∧ input.rest = false := by
  simp [Binder.isRequired, Binder.hasDefault]

theorem Binder.isRequired_of_hasDefault (h : input.hasDefault = true) :
    input.isRequired = false := by
  rw [Bool.eq_false_iff, ne_eq, Binder.isRequired_iff, h]
  simp

theorem inputConflictsAfter_cons_iff : inputConflictsAfter seen (input :: inputs) = [] ↔
    (input.isRequired = true → seen = false) ∧ (input.rest = true → inputs = []) ∧
      inputConflictsAfter (seen || !input.isRequired) inputs = [] := by
  simp [inputConflictsAfter, orderConflict, restConflict]

namespace InputOrder

theorem cons_required (h : InputOrder inputs required optional collecting)
    (hinput : input.isRequired = true) :
    InputOrder (input :: inputs) (input :: required) optional collecting :=
  { h with
    parts := congrArg (input :: ·) h.parts
    isRequired := List.forall_mem_cons.2 ⟨hinput, h.isRequired⟩ }

theorem cons_optional (h : InputOrder inputs [] optional collecting)
    (hinput : input.hasDefault = true) (hrest : input.rest = false) :
    InputOrder (input :: inputs) [] (input :: optional) collecting :=
  { h with
    parts := congrArg (input :: ·) h.parts
    hasDefault := List.forall_mem_cons.2 ⟨⟨hinput, hrest⟩, h.hasDefault⟩ }

theorem last (hrest : input.rest = true) : InputOrder [input] [] [] [input] :=
  ⟨rfl, by simp, by simp, by simp [hrest], Nat.le_refl _⟩

end InputOrder

/-- Inputs without conflicts are in order, and once an optional input has been seen, none of them is
required. -/
theorem exists_inputOrder (h : inputConflictsAfter seen inputs = []) :
    ∃ required optional collecting, InputOrder inputs required optional collecting ∧
      (seen = true → required = []) := by
  induction inputs generalizing seen with
  | nil => exact ⟨[], [], [], ⟨rfl, by simp, by simp, by simp, Nat.zero_le _⟩, fun _ => rfl⟩
  | cons input inputs ih =>
    obtain ⟨hrequired, hlast, hlater⟩ := inputConflictsAfter_cons_iff.1 h
    obtain ⟨required, optional, collecting, horder, hnone⟩ := ih hlater
    cases hinput : input.isRequired with
    | true =>
      refine ⟨input :: required, optional, collecting, horder.cons_required hinput, fun hs => ?_⟩
      simp [hs] at hrequired
      exact absurd hinput (by simp [hrequired])
    | false =>
      obtain rfl := hnone (by simp [hinput])
      cases hrest : input.rest with
      | true =>
        obtain rfl := hlast hrest
        exact ⟨[], [], [input], .last hrest, fun _ => rfl⟩
      | false =>
        have hdefault : input.hasDefault = true := by
          simpa [Binder.isRequired_iff, hrest] using Bool.eq_false_iff.1 hinput
        exact ⟨[], input :: optional, collecting, horder.cons_optional hdefault hrest,
          fun _ => rfl⟩

/-- Inputs in order have no conflicts, unless a required one comes after an optional one that has
been seen before. -/
theorem InputOrder.no_conflicts (h : InputOrder inputs required optional collecting)
    (hseen : seen = true → required = []) : inputConflictsAfter seen inputs = [] := by
  obtain ⟨rfl, hrequired, hdefault, hrest, hone⟩ := h
  induction required generalizing seen with
  | cons input required ih =>
    obtain ⟨hinput, hrequired⟩ := List.forall_mem_cons.1 hrequired
    have hfalse : seen = false := Bool.eq_false_iff.2 fun hs => nomatch hseen hs
    refine inputConflictsAfter_cons_iff.2 ⟨fun _ => hfalse, fun hr => ?_, ?_⟩
    · exact absurd (Binder.isRequired_iff.1 hinput).2 (by simp [hr])
    · exact ih (by simp [hfalse, hinput]) hrequired
  | nil =>
    clear hseen hrequired
    induction optional generalizing seen with
    | cons input optional ih =>
      obtain ⟨⟨hinput, hnot⟩, hdefault⟩ := List.forall_mem_cons.1 hdefault
      refine inputConflictsAfter_cons_iff.2 ⟨fun hr => ?_, fun hr => ?_, ih hdefault⟩
      · exact absurd hr (by simp [Binder.isRequired_of_hasDefault hinput])
      · exact absurd hr (by simp [hnot])
    | nil =>
      cases collecting with
      | nil => rfl
      | cons input others =>
        obtain rfl : others = [] := List.eq_nil_of_length_eq_zero (by simpa using hone)
        have hr : input.rest = true := hrest input (List.mem_cons_self ..)
        refine inputConflictsAfter_cons_iff.2 ⟨fun h => ?_, fun _ => rfl, rfl⟩
        exact absurd (Binder.isRequired_iff.1 h).2 (by simp [hr])

/-- The conflicts of the inputs behind some others, each at its position in the whole list. -/
theorem inputConflictsAfter_eq_flatMap (before inputs : List Binder) :
    inputConflictsAfter (before.any (!·.isRequired)) inputs =
      (inputs.zipIdx before.length).flatMap fun at_ =>
        inputConflictsAt (before ++ inputs) at_.1 at_.2 := by
  induction inputs generalizing before with
  | nil => rfl
  | cons input inputs ih =>
    have hlater := ih (before ++ [input])
    simp only [List.any_append, List.any_cons, List.any_nil, Bool.or_false, List.length_append,
      List.length_singleton, List.append_assoc, List.singleton_append] at hlater
    rw [inputConflictsAfter, hlater, List.zipIdx_cons, List.flatMap_cons]
    congr 1
    simp only [inputConflictsAt, orderConflict, restConflict, List.take_left]
    congr 1
    · simp [List.any_eq_true]
    · cases inputs <;> simp

end Order

/-- A list of inputs has no conflicts just if it is in order.  In general it has those of each
input at its position, in the order of the list. -/
theorem inputListConflicts_iff_inOrder (inputs : List Binder) :
    (inputListConflicts inputs = [] ↔ InOrder inputs) ∧
      inputListConflicts inputs =
        inputs.zipIdx.flatMap fun at_ => inputConflictsAt inputs at_.1 at_.2 := by
  refine ⟨⟨fun h => ?_, fun ⟨_, _, _, h⟩ => h.no_conflicts (by simp)⟩,
    inputConflictsAfter_eq_flatMap [] inputs⟩
  obtain ⟨required, optional, collecting, horder, -⟩ := exists_inputOrder h
  exact ⟨required, optional, collecting, horder⟩

/-! ## Inputs that go without a value -/

/-- The first input that does not collect the rest. -/
def FirstFixed (inputs : List Binder) (input : Binder) : Prop :=
  ∃ collecting after, inputs = collecting ++ input :: after ∧
    (∀ earlier ∈ collecting, earlier.rest = true) ∧ input.rest = false

/-- The first fixed input behind one that collects the rest. -/
def Deprived (inputs : List Binder) (input : Binder) : Prop :=
  ∃ fixed collecting later, inputs = fixed ++ collecting :: later ∧
    (∀ earlier ∈ fixed, earlier.rest = false) ∧ collecting.rest = true ∧ FirstFixed later input

section Deprived

variable {input deprived : Binder} {inputs : List Binder}

theorem firstFixed_cons_of_fixed (h : input.rest = false) :
    FirstFixed (input :: inputs) deprived ↔ input = deprived := by
  constructor
  · rintro ⟨_ | ⟨first, collecting⟩, after, hparts, hcollecting, -⟩
    · exact (List.cons.inj hparts).1
    · obtain ⟨rfl, -⟩ := List.cons.inj hparts
      exact absurd (hcollecting _ (List.mem_cons_self ..)) (by simp [h])
  · rintro rfl
    exact ⟨[], inputs, rfl, by simp, h⟩

theorem firstFixed_cons_of_rest (h : input.rest = true) :
    FirstFixed (input :: inputs) deprived ↔ FirstFixed inputs deprived := by
  constructor
  · rintro ⟨_ | ⟨first, collecting⟩, after, hparts, hcollecting, hfixed⟩
    · obtain ⟨rfl, -⟩ := List.cons.inj hparts
      exact absurd h (by simp [hfixed])
    · obtain ⟨-, rfl⟩ := List.cons.inj hparts
      exact ⟨collecting, after, rfl, (List.forall_mem_cons.1 hcollecting).2, hfixed⟩
  · rintro ⟨collecting, after, rfl, hcollecting, hfixed⟩
    exact ⟨input :: collecting, after, rfl, List.forall_mem_cons.2 ⟨h, hcollecting⟩, hfixed⟩

theorem deprived_cons_of_fixed (h : input.rest = false) :
    Deprived (input :: inputs) deprived ↔ Deprived inputs deprived := by
  constructor
  · rintro ⟨_ | ⟨first, fixed⟩, collecting, later, hparts, hfixed, hcollecting, hlater⟩
    · obtain ⟨rfl, -⟩ := List.cons.inj hparts
      exact absurd hcollecting (by simp [h])
    · obtain ⟨-, rfl⟩ := List.cons.inj hparts
      exact ⟨fixed, collecting, later, rfl, (List.forall_mem_cons.1 hfixed).2, hcollecting, hlater⟩
  · rintro ⟨fixed, collecting, later, rfl, hfixed, hcollecting, hlater⟩
    exact ⟨input :: fixed, collecting, later, rfl, List.forall_mem_cons.2 ⟨h, hfixed⟩,
      hcollecting, hlater⟩

theorem deprived_cons_of_rest (h : input.rest = true) :
    Deprived (input :: inputs) deprived ↔ FirstFixed inputs deprived := by
  constructor
  · rintro ⟨_ | ⟨first, fixed⟩, collecting, later, hparts, hfixed, -, hlater⟩
    · obtain ⟨-, rfl⟩ := List.cons.inj hparts
      exact hlater
    · obtain ⟨rfl, -⟩ := List.cons.inj hparts
      exact absurd (hfixed _ (List.mem_cons_self ..)) (by simp [h])
  · exact fun hlater => ⟨[], input, inputs, rfl, by simp, h, hlater⟩

/-- Inputs of which one is deprived are not in order. -/
theorem Deprived.conflicts (h : Deprived inputs deprived) (seen : Bool) :
    inputConflictsAfter seen inputs ≠ [] := by
  obtain ⟨fixed, collecting, later, rfl, -, hrest, others, after, rfl, -, -⟩ := h
  induction fixed generalizing seen with
  | nil =>
    intro hnone
    simpa using (inputConflictsAfter_cons hnone).1 hrest
  | cons first fixed ih => exact fun hnone => ih _ (inputConflictsAfter_cons hnone).2

/-- With no values left, the first fixed input starves. -/
theorem starvesFirst_nil_iff : StarvesFirst inputs [] deprived ↔ FirstFixed inputs deprived := by
  induction inputs with
  | nil =>
    refine iff_of_false not_starvesFirst_nil ?_
    rintro ⟨collecting, after, hparts, -⟩
    simp at hparts
  | cons input inputs ih =>
    cases hr : input.rest with
    | true =>
      have hfed : ¬ Starves (input :: inputs) [] 0 input := fun h => by
        simp [(starves_zero.1 h).2.1] at hr
      rw [starvesFirst_cons_later hfed, firstFixed_cons_of_rest hr, ← ih]
      simp
    | false =>
      rw [starvesFirst_cons_here (starves_zero.2 ⟨rfl, hr, rfl⟩), firstFixed_cons_of_fixed hr]

/-- The slot of a fixed input takes one value. -/
theorem Slot.count_ofTaken (h : input.rest = false) (pool : List Expr) :
    (Slot.ofTaken input (takeFor input pool).1).count = 1 := by
  have htakes := takes_takeFor input pool
  generalize takeFor input pool = found at htakes ⊢
  obtain ⟨taken, left⟩ := found
  cases htakes with
  | all hr => simp [h] at hr
  | one => rfl
  | nothing => cases hv : input.value <;> simp [Slot.ofTaken, hv, Slot.count]

/-- If a call lays out a value for every input, only deprived ones starve. -/
theorem starvesFirst_iff_deprived {values : List Value} {pool : List Expr}
    (h : values.length = valueCount (plan inputs pool)) :
    StarvesFirst inputs values deprived ↔ Deprived inputs deprived := by
  induction inputs generalizing values pool with
  | nil =>
    refine iff_of_false not_starvesFirst_nil ?_
    rintro ⟨fixed, collecting, later, hparts, -⟩
    simp at hparts
  | cons input inputs ih =>
    cases hr : input.rest with
    | true =>
      have hfed : ¬ Starves (input :: inputs) values 0 input := fun h => by
        simp [(starves_zero.1 h).2.1] at hr
      rw [starvesFirst_cons_later hfed, deprived_cons_of_rest hr, if_pos hr, starvesFirst_nil_iff]
    | false =>
      rw [plan_cons, valueCount, Slot.count_ofTaken hr] at h
      obtain ⟨value, left, rfl⟩ : ∃ value left, values = value :: left :=
        List.exists_cons_of_length_pos (by omega)
      have hfed : ¬ Starves (input :: inputs) (value :: left) 0 input := fun h =>
        List.cons_ne_nil _ _ (starves_zero.1 h).2.2
      have hleft : left.length = valueCount (plan inputs (takeFor input pool).2) := by
        rw [List.length_cons] at h
        omega
      rw [starvesFirst_cons_later hfed, deprived_cons_of_fixed hr, if_neg (by simp [hr])]
      exact ih hleft

/-- Of the values that a call lays out, binding misses that of a deprived input, and no other. -/
theorem bindInputs_eq_error_iff {values : List Value} {pool : List Expr}
    (h : values.length = valueCount (plan inputs pool)) {x : Exception} :
    bindInputs inputs values = .error x ↔
      ∃ input, Deprived inputs input ∧ x = { kind := .missingValue input.primaryName } := by
  simp only [bindInputs, bindInputsAfter_eq_error, starvesFirst_iff_deprived h]

end Deprived

end Stepwise

import Mathlib.Data.List.Basic
import Stepwise.Call.Binding
import Stepwise.Call.Inputs
import Stepwise.Proofs.Call.Matching
import Stepwise.Proofs.Sample

/-!
# Binding what a plan lays out

A plan says which expressions a call evaluates for its inputs, and binding gives the values, in the
order in which they were laid out, to the inputs.  The two agree on the position of every value
(`plan_then_bind`): each alias is bound to what the slot of its input stands for, and if several
inputs declare it, to what the last of them has.

Whatever the values are, binding fails just at the first input that finds none left; an input that
collects the rest always finds something to be bound to, and leaves nothing (`leftAt`).
-/

namespace Stepwise

/-! ## Aliases -/

theorem find?_bindAliases (bindings : Bindings) (aliases : List String) (value : Value)
    (name : String) :
    (bindAliases bindings aliases value).find? name =
      if name ∈ aliases then some value else bindings.find? name := by
  unfold bindAliases
  induction aliases generalizing bindings with
  | nil => simp
  | cons first aliases ih =>
    rw [List.foldl_cons, ih, Assoc.find?_insert]
    by_cases hlater : name ∈ aliases
    · simp [hlater]
    · by_cases hfirst : name = first <;> simp [hlater, hfirst]

theorem contains_bindAliases {bindings : Bindings} {aliases : List String} {value : Value}
    {name : String} : (bindAliases bindings aliases value).contains name = true ↔
      name ∈ aliases ∨ bindings.contains name = true := by
  rw [Assoc.contains, find?_bindAliases]
  split <;> simp [*, Assoc.contains]

/-- The last of the inputs that declare an alias. -/
def LastNamed (inputs : List Binder) (name : String) (i : Nat) (input : Binder) : Prop :=
  inputs[i]? = some input ∧ name ∈ input.aliases ∧
    ∀ later ∈ inputs.drop (i + 1), name ∉ later.aliases

/-! ## What slots stand for -/

section Layout

variable (value : Expr → Value)

/-- The values that a slot lays out: one, or one for each argument of the rest. -/
def Slot.laidOut (slot : Slot) : List Value :=
  slot.values.map value

/-- The values that slots lay out, in order. -/
def laidOut (slots : List Slot) : List Value :=
  slots.flatMap (Slot.laidOut value)

/-- What an input is bound to that has the slot. -/
def Slot.bound? : Slot → Option Value
  | .given e => some (value e)
  | .default e => some (value e)
  | .missing _ => none
  | .rest es => some (.list (es.map value))

variable {value}

theorem Slot.length_laidOut {slot : Slot} (h : slot.missing? = none) :
    (slot.laidOut value).length = slot.count := by
  cases slot with
  | missing input => exact nomatch h
  | rest es => exact List.length_map ..
  | given e | default e => rfl

theorem length_laidOut {slots : List Slot} (h : ∀ slot ∈ slots, slot.missing? = none) :
    (laidOut value slots).length = valueCount slots := by
  induction slots with
  | nil => rfl
  | cons slot slots ih =>
    obtain ⟨hslot, hslots⟩ := List.forall_mem_cons.1 h
    rw [laidOut, List.flatMap_cons, List.length_append, Slot.length_laidOut hslot, valueCount]
    exact congrArg _ (ih hslots)

end Layout

/-! ## Well-formed inputs -/

/-- An input that collects the rest is the last one, and what follows an input is in order too. -/
theorem inputConflictsAfter_cons {seen : Bool} {input : Binder} {inputs : List Binder}
    (h : inputConflictsAfter seen (input :: inputs) = []) :
    (input.rest = true → inputs = []) ∧
      inputConflictsAfter (seen || !input.isRequired) inputs = [] := by
  simp only [inputConflictsAfter, List.append_eq_nil_iff] at h
  obtain ⟨⟨-, hrest⟩, hlater⟩ := h
  refine ⟨fun hr => ?_, hlater⟩
  cases inputs with
  | nil => rfl
  | cons next inputs => simp [restConflict, hr] at hrest

theorem takeFor_rest {input : Binder} {pool : List Expr} (h : input.rest = true) :
    takeFor input pool = (.rest pool, []) := by
  simp [takeFor, Binder.isRequired_eq_false_of_rest h, h]

/-- The slot of any other input lays out one value, the one that the input is bound to. -/
theorem laidOut_ofTaken {input : Binder} {pool : List Expr} (value : Expr → Value)
    (hrest : input.rest = false)
    (h : (Slot.ofTaken input (takeFor input pool).1).missing? = none) :
    ∃ v, (Slot.ofTaken input (takeFor input pool).1).laidOut value = [v] ∧
      (Slot.ofTaken input (takeFor input pool).1).bound? value = some v := by
  have htakes := takes_takeFor input pool
  generalize takeFor input pool = found at h htakes ⊢
  obtain ⟨taken, left⟩ := found
  cases htakes with
  | all hr => simp [hr] at hrest
  | @one _ before after e hpool => exact ⟨value (argumentValue e), rfl, rfl⟩
  | nothing =>
    unfold Slot.ofTaken at h ⊢
    cases hv : input.value with
    | none => simp [hv, Slot.missing?] at h
    | some e => exact ⟨value e, rfl, rfl⟩

/-- Binding binds the aliases of the inputs, and no other names. -/
theorem contains_bindInputsAfter {start bindings : Bindings} {inputs : List Binder}
    {values : List Value} (h : bindInputsAfter start inputs values = .ok bindings) (name : String) :
    bindings.contains name = true ↔
      start.contains name = true ∨ ∃ input ∈ inputs, name ∈ input.aliases := by
  induction inputs generalizing start values with
  | nil =>
    obtain rfl := Except.ok.inj h
    simp
  | cons input inputs ih =>
    obtain ⟨value, left, h⟩ : ∃ value left,
        bindInputsAfter (bindAliases start input.aliases value) inputs left = .ok bindings := by
      cases hr : input.rest with
      | true => exact ⟨.list values, [], by simpa [bindInputsAfter, hr] using h⟩
      | false =>
        cases values with
        | nil => simp [bindInputsAfter, hr] at h
        | cons value left => exact ⟨value, left, by simpa [bindInputsAfter, hr] using h⟩
    rw [ih h, contains_bindAliases, List.exists_mem_cons_iff, or_assoc, or_left_comm]

/-- Binding what the slots of well-formed inputs lay out. -/
theorem bindInputsAfter_laidOut (value : Expr → Value) {seen : Bool} {inputs : List Binder}
    {pool : List Expr} (start : Bindings) (hinputs : inputConflictsAfter seen inputs = [])
    (hslots : ∀ slot ∈ plan inputs pool, slot.missing? = none) :
    ∃ bindings, bindInputsAfter start inputs (laidOut value (plan inputs pool)) = .ok bindings ∧
      (∀ name, (∀ input ∈ inputs, name ∉ input.aliases) →
        bindings.find? name = start.find? name) ∧
      ∀ name i input slot, LastNamed inputs name i input → (plan inputs pool)[i]? = some slot →
        bindings.find? name = slot.bound? value := by
  induction inputs generalizing seen pool start with
  | nil => exact ⟨start, rfl, fun _ _ => rfl, fun _ _ _ _ h => nomatch h.1⟩
  | cons input inputs ih =>
    rw [plan_cons] at hslots ⊢
    obtain ⟨hlast, hlater⟩ := inputConflictsAfter_cons hinputs
    obtain ⟨hslot, hothers⟩ := List.forall_mem_cons.1 hslots
    -- What the first input is bound to, and how binding goes on.
    obtain ⟨v, hv, hgo⟩ : ∃ v, (Slot.ofTaken input (takeFor input pool).1).bound? value = some v ∧
        bindInputsAfter start (input :: inputs) (laidOut value
            (Slot.ofTaken input (takeFor input pool).1 :: plan inputs (takeFor input pool).2)) =
          bindInputsAfter (bindAliases start input.aliases v) inputs
            (laidOut value (plan inputs (takeFor input pool).2)) := by
      cases hr : input.rest with
      | true =>
        obtain rfl := hlast hr
        refine ⟨.list ((pool.map argumentValue).map value), ?_, ?_⟩
        · rw [takeFor_rest hr]
          rfl
        · rw [takeFor_rest hr]
          simp [bindInputsAfter, hr, laidOut, Slot.laidOut, Slot.ofTaken, Slot.values, plan]
      | false =>
        obtain ⟨v, hout, hbound⟩ := laidOut_ofTaken value hr hslot
        refine ⟨v, hbound, ?_⟩
        rw [laidOut, List.flatMap_cons, hout, List.singleton_append, bindInputsAfter, hr]
        rfl
    obtain ⟨bindings, hbindings, hout, hin⟩ := ih (bindAliases start input.aliases v) hlater hothers
    refine ⟨bindings, hgo.trans hbindings, fun name hname => ?_, ?_⟩
    · obtain ⟨hfirst, hnames⟩ := List.forall_mem_cons.1 hname
      rw [hout name hnames, find?_bindAliases, if_neg hfirst]
    · rintro name (_ | i) other slot ⟨hother, hmem, hno⟩ hat
      · obtain rfl := Option.some.inj hother
        obtain rfl := Option.some.inj hat
        rw [hout name hno, find?_bindAliases, if_pos hmem, hv]
      · exact hin name i other slot ⟨hother, hmem, hno⟩ hat

/-! ## Values that are left -/

/-- The values left when the input at a position is reached: an input that collects the rest leaves
none, and any other takes one. -/
def leftAt (inputs : List Binder) (values : List Value) (i : Nat) : List Value :=
  if (inputs.take i).any Binder.rest then [] else values.drop i

/-- An input at a position finds no value left. -/
def Starves (inputs : List Binder) (values : List Value) (i : Nat) (input : Binder) : Prop :=
  inputs[i]? = some input ∧ input.rest = false ∧ leftAt inputs values i = []

/-- The first input that finds no value left. -/
def StarvesFirst (inputs : List Binder) (values : List Value) (input : Binder) : Prop :=
  ∃ i, Starves inputs values i input ∧ ∀ j other, j < i → ¬ Starves inputs values j other

section Starving

variable {input other : Binder} {inputs : List Binder} {values : List Value} {i : Nat}

theorem leftAt_succ :
    leftAt (input :: inputs) values (i + 1) =
      leftAt inputs (if input.rest then [] else values.tail) i := by
  cases hr : input.rest <;> simp [leftAt, hr]

theorem starves_zero :
    Starves (input :: inputs) values 0 other ↔
      input = other ∧ input.rest = false ∧ values = [] := by
  simp only [Starves, leftAt, List.getElem?_cons_zero, Option.some.injEq, List.take_zero,
    List.any_nil, List.drop_zero]
  constructor
  · rintro ⟨rfl, hrest, hvalues⟩
    exact ⟨rfl, hrest, hvalues⟩
  · rintro ⟨rfl, hrest, hvalues⟩
    exact ⟨rfl, hrest, hvalues⟩

theorem starves_succ :
    Starves (input :: inputs) values (i + 1) other ↔
      Starves inputs (if input.rest then [] else values.tail) i other := by
  rw [Starves, Starves, leftAt_succ, List.getElem?_cons_succ]

theorem not_starvesFirst_nil : ¬ StarvesFirst [] values other :=
  fun ⟨_, h, _⟩ => nomatch h.1

/-- The first input starves if it finds nothing. -/
theorem starvesFirst_cons_here (h : Starves (input :: inputs) values 0 input) :
    StarvesFirst (input :: inputs) values other ↔ input = other := by
  constructor
  · rintro ⟨_ | i, hat, hbefore⟩
    · exact (starves_zero.1 hat).1
    · exact absurd h (hbefore 0 input (Nat.succ_pos i))
  · rintro rfl
    exact ⟨0, h, fun j _ hj => absurd hj (Nat.not_lt_zero j)⟩

/-- Otherwise the others have what it leaves. -/
theorem starvesFirst_cons_later (h : ¬ Starves (input :: inputs) values 0 input) :
    StarvesFirst (input :: inputs) values other ↔
      StarvesFirst inputs (if input.rest then [] else values.tail) other := by
  constructor
  · rintro ⟨_ | i, hat, hbefore⟩
    · exact absurd ((starves_zero.1 hat).1 ▸ hat) h
    · refine ⟨i, starves_succ.1 hat, fun j later hj hstarves => ?_⟩
      exact hbefore (j + 1) later (Nat.succ_lt_succ hj) (starves_succ.2 hstarves)
  · rintro ⟨i, hat, hbefore⟩
    refine ⟨i + 1, starves_succ.2 hat, fun j later hj hstarves => ?_⟩
    cases j with
    | zero => exact h ((starves_zero.1 hstarves).1 ▸ hstarves)
    | succ j => exact hbefore j later (Nat.lt_of_succ_lt_succ hj) (starves_succ.1 hstarves)

theorem bindInputsAfter_eq_error (start : Bindings) {x : Exception} :
    bindInputsAfter start inputs values = .error x ↔
      ∃ input, StarvesFirst inputs values input ∧
        x = { kind := .missingValue input.primaryName } := by
  induction inputs generalizing start values with
  | nil => simp [bindInputsAfter, not_starvesFirst_nil]
  | cons first inputs ih =>
    cases hr : first.rest with
    | true =>
      have hfed : ¬ Starves (first :: inputs) values 0 first := fun h => by
        simp [(starves_zero.1 h).2.1] at hr
      simp only [bindInputsAfter, hr, if_true, ih, starvesFirst_cons_later hfed]
    | false =>
      cases values with
      | nil =>
        have hstarves : Starves (first :: inputs) [] 0 first := starves_zero.2 ⟨rfl, hr, rfl⟩
        simp [bindInputsAfter, hr, starvesFirst_cons_here hstarves, eq_comm]
      | cons value values =>
        have hfed : ¬ Starves (first :: inputs) (value :: values) 0 first := fun h =>
          nomatch (starves_zero.1 h).2.2
        simp [bindInputsAfter, hr, ih, starvesFirst_cons_later hfed]

end Starving

/-! ## Planning and binding -/

/-- What a plan lays out is what binding needs, and every alias is bound to what the slot of its
input stands for.  In general, binding fails just at the first input that finds no value left. -/
theorem plan_then_bind :
    (∀ (call : Call) (inputs : List Binder) (value : Expr → Value),
      inputListConflicts inputs = [] →
      (∀ slot ∈ plan inputs call.inputs, slot.missing? = none) →
        (laidOut value (plan inputs call.inputs)).length = valueCount (plan inputs call.inputs) ∧
        ∃ bindings, bindInputs inputs (laidOut value (plan inputs call.inputs)) = .ok bindings ∧
          (∀ name, bindings.contains name = true ↔ ∃ input ∈ inputs, name ∈ input.aliases) ∧
          ∀ name i input slot, LastNamed inputs name i input →
            (plan inputs call.inputs)[i]? = some slot →
              bindings.find? name = slot.bound? value) ∧
    ∀ (inputs : List Binder) (values : List Value) (x : Exception),
      bindInputs inputs values = .error x ↔
        ∃ input, StarvesFirst inputs values input ∧
          x = { kind := .missingValue input.primaryName } := by
  refine ⟨fun call inputs value hinputs hslots => ?_,
    fun inputs values x => bindInputsAfter_eq_error _⟩
  obtain ⟨bindings, hbindings, -, hin⟩ :=
    bindInputsAfter_laidOut value .empty hinputs hslots
  refine ⟨length_laidOut hslots, bindings, hbindings, fun name => ?_, hin⟩
  rw [contains_bindInputsAfter hbindings]
  simp [Assoc.contains]

/-- The call `f(⊤, ⊤, b: ⊥, ⊤)`. -/
def reorderedCall : Call :=
  callWith 1 (referenceOf 2 "f") [booleanOf 3 true, booleanOf 4 true,
    .bind (bindingOf 5 "b" (booleanOf 6 false)), booleanOf 7 true]

/-- The inputs `(a: ?, b: ⊤, c…: ?)`. -/
def threeInputs : List Binder :=
  [binderOf 8 "a" (some .boolean) none, bindingOf 9 "b" (booleanOf 10 true),
    restOf 11 "c" .boolean]

/-- A named argument is bound to its input although others are written before it. -/
theorem plan_then_bind_reorderedCall :
    let value : Expr → Value := fun
      | .boolean _ _ value => .boolean value
      | _ => .list []
    ∃ bindings,
      bindInputs threeInputs (laidOut value (plan threeInputs reorderedCall.inputs)) =
        .ok bindings ∧
      bindings.find? "a" = some (.boolean true) ∧ bindings.find? "b" = some (.boolean false) ∧
      bindings.find? "c" = some (.list [.boolean true, .boolean true]) := by
  intro value
  obtain ⟨-, bindings, hbindings, -, hin⟩ :=
    plan_then_bind.1 reorderedCall threeInputs value rfl (by decide)
  refine ⟨bindings, hbindings, ?_, ?_, ?_⟩
  · exact hin "a" 0 _ _ ⟨rfl, by decide, by decide⟩ rfl
  · exact hin "b" 1 _ _ ⟨rfl, by decide, by decide⟩ rfl
  · exact hin "c" 2 _ _ ⟨rfl, by decide, by decide⟩ rfl

end Stepwise

import Stepwise.Machine.Evaluator
import Stepwise.Proofs.Call.Binding

/-!
# What names are bound to

Names are bound in four ways: one after the other by a declaration, unless they are bound already
when a function sees itself, all to one definition around the block of a structure, and to the
values of a call.  All of them write one name after the other.  So what holds of bindings and still
holds with one more name for a good value holds whichever way names are bound (`BindingInvariant`),
and no name is ever taken away.
-/

namespace Stepwise

open Stepwise.Action

/-- What holds of no bindings, and still holds when a name is bound to a good value. -/
structure BindingInvariant (good : Value → Prop) (holds : Bindings → Prop) : Prop where
  empty : holds .empty
  insert : ∀ {bindings value}, holds bindings → ∀ name : String, good value →
    holds (bindings.insert name value)
  insertNew : ∀ {bindings value}, holds bindings → ∀ name : String, good value →
    holds (bindings.insertNew name value)

/-- The bindings in which all these names stand for one value. -/
theorem ofNames_eq (names : List String) (value : Value) :
    Assoc.ofList (names.map fun name => (name, value)) = bindAliases .empty names value := by
  rw [Assoc.ofList, Assoc.insertAll, List.foldl_map, bindAliases]

namespace BindingInvariant

variable {good : Value → Prop} {holds : Bindings → Prop} {bindings : Bindings} {value : Value}
  (hi : BindingInvariant good holds)

include hi

theorem bindAliases (h : holds bindings) (aliases : List String) (hv : good value) :
    holds (bindAliases bindings aliases value) := by
  unfold Stepwise.bindAliases
  induction aliases generalizing bindings with
  | nil => exact h
  | cons name rest ih => exact ih (hi.insert h name hv)

theorem bindSelf (h : holds bindings) (aliases : List String) (hv : good value) :
    holds (bindSelf bindings aliases value) := by
  unfold Stepwise.Action.bindSelf
  induction aliases generalizing bindings with
  | nil => exact h
  | cons name rest ih => exact ih (hi.insertNew h name hv)

theorem ofNames (names : List String) (hv : good value) :
    holds (Assoc.ofList (names.map fun name => (name, value))) := by
  rw [ofNames_eq]
  exact hi.bindAliases hi.empty names hv

theorem bindInputsAfter (hlist : ∀ items, good (.list items)) {start : Bindings}
    {inputs : List Binder} {values : List Value} (hs : holds start)
    (hv : ∀ value ∈ values, good value) (h : bindInputsAfter start inputs values = .ok bindings) :
    holds bindings := by
  induction inputs generalizing start values with
  | nil => exact Except.ok.inj h ▸ hs
  | cons input inputs ih =>
    unfold Stepwise.bindInputsAfter at h
    split at h
    · exact ih (hi.bindAliases hs input.aliases (hlist values)) (by simp) h
    · cases values with
      | nil => simp at h
      | cons value left =>
        have hleft := fun other hmem => hv other (List.mem_cons_of_mem value hmem)
        exact ih (hi.bindAliases hs input.aliases (hv value (by simp))) hleft h

end BindingInvariant

/-- All names are bound to values with the property. -/
def AllBound (P : Value → Prop) (bindings : Bindings) : Prop :=
  ∀ name value, bindings.find? name = some value → P value

section AllBound

variable {P : Value → Prop} {bindings : Bindings} {value : Value}

theorem allBound_empty : AllBound P .empty :=
  fun _ _ h => nomatch h

theorem AllBound.insert (h : AllBound P bindings) (name : String) (hv : P value) :
    AllBound P (bindings.insert name value) := by
  intro other found hf
  rw [Assoc.find?_insert] at hf
  split at hf
  · exact Option.some.inj hf ▸ hv
  · exact h other found hf

theorem AllBound.insertNew (h : AllBound P bindings) (name : String) (hv : P value) :
    AllBound P (bindings.insertNew name value) := by
  intro other found hf
  rw [Assoc.find?_insertNew] at hf
  split at hf
  · cases hold : bindings.find? name with
    | none =>
      rw [hold] at hf
      exact Option.some.inj hf ▸ hv
    | some old =>
      rw [hold] at hf
      exact Option.some.inj hf ▸ h name old hold
  · exact h other found hf

theorem allBound_bindings : BindingInvariant P (AllBound P) :=
  ⟨allBound_empty, AllBound.insert, AllBound.insertNew⟩

end AllBound

/-! ## Names that are bound -/

section Contains

variable {bindings : Bindings} {aliases : List String} {value : Value} {name : String}

theorem contains_insertNew {other : String} :
    (bindings.insertNew other value).contains name = true ↔
      name = other ∨ bindings.contains name = true := by
  rw [Assoc.contains, Assoc.find?_insertNew]
  split <;> simp_all [Assoc.contains]

theorem contains_bindSelf : (bindSelf bindings aliases value).contains name = true ↔
    name ∈ aliases ∨ bindings.contains name = true := by
  unfold bindSelf
  induction aliases generalizing bindings with
  | nil => simp
  | cons first rest ih =>
    rw [List.foldl_cons, ih, contains_insertNew, List.mem_cons, or_left_comm, or_assoc]

theorem contains_ofNames :
    (Assoc.ofList (aliases.map fun name => (name, value))).contains name = true ↔
      name ∈ aliases := by
  rw [ofNames_eq, contains_bindAliases]
  simp [Assoc.contains]

end Contains

end Stepwise

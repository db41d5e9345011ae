import Mathlib.Logic.Function.Basic
import Stepwise.Call.Binding
import Stepwise.Proofs.Assoc
import Stepwise.Value.Operation

/-!
# Renaming scopes

Scopes have identities, and an evaluation draws a new one for every scope that it captures.  Which
identities it draws says nothing about what it computes: all that is ever asked about them is
whether two are the same.

`Value.rename` replaces the identities in a value.  Looking names up, binding values to inputs and
applying operators all commute with an injective renaming; equality is where injectivity is needed
(`beq_rename`).
-/

namespace Stepwise

/-! ## Renaming -/

mutual

/-- The value with other identities of scopes. -/
def Value.rename (ρ : ScopeId → ScopeId) : Value → Value
  | .boolean b => .boolean b
  | .text t => .text t
  | .number n => .number n
  | .list items => .list (renameItems ρ items)
  | .function definition scope => .function definition (scope.rename ρ)
  | .structDef definition scope => .structDef definition (scope.rename ρ)
  | .struct definition scope => .struct definition (scope.rename ρ)
  | .exception x => .exception x
termination_by structural v => v

/-- The scope with other identities. -/
def Scope.rename (ρ : ScopeId → ScopeId) : Scope → Scope
  | .mk id ⟨entries⟩ parent => .mk (ρ id) ⟨renameEntries ρ entries⟩ (renameScope? ρ parent)
termination_by structural s => s

/-- The items of a list with other identities. -/
def renameItems (ρ : ScopeId → ScopeId) : List Value → List Value
  | [] => []
  | v :: rest => v.rename ρ :: renameItems ρ rest
termination_by structural vs => vs

/-- Bound values with other identities. -/
def renameEntries (ρ : ScopeId → ScopeId) : List (String × Value) → List (String × Value)
  | [] => []
  | (name, v) :: rest => (name, v.rename ρ) :: renameEntries ρ rest
termination_by structural es => es

/-- An optional scope with other identities. -/
def renameScope? (ρ : ScopeId → ScopeId) : Option Scope → Option Scope
  | none => none
  | some scope => some (scope.rename ρ)
termination_by structural s => s

end

variable (ρ : ScopeId → ScopeId)

theorem renameItems_eq (items : List Value) : renameItems ρ items = items.map (Value.rename ρ) := by
  induction items with
  | nil => rfl
  | cons v rest ih => rw [renameItems, ih, List.map_cons]

theorem renameEntries_eq (entries : List (String × Value)) :
    renameEntries ρ entries = entries.map fun pair => (pair.1, pair.2.rename ρ) := by
  induction entries with
  | nil => rfl
  | cons pair rest ih => rw [renameEntries, ih, List.map_cons]

@[simp] theorem Value.rename_list (items : List Value) :
    (Value.list items).rename ρ = .list (items.map (Value.rename ρ)) := by
  rw [Value.rename, renameItems_eq]

@[simp] theorem Scope.rename_mk (id : ScopeId) (bindings : Bindings) (parent : Option Scope) :
    (Scope.mk id bindings parent).rename ρ =
      .mk (ρ id) (bindings.map (Value.rename ρ)) (parent.map (Scope.rename ρ)) := by
  obtain ⟨entries⟩ := bindings
  rw [Scope.rename, renameEntries_eq]
  cases parent <;> rfl

@[simp] theorem Scope.bindings_rename (scope : Scope) :
    (scope.rename ρ).bindings = scope.bindings.map (Value.rename ρ) := by
  cases scope
  rw [rename_mk]
  rfl

@[simp] theorem Value.isException_rename (v : Value) :
    (v.rename ρ).isException = v.isException := by
  cases v <;> simp [rename, isException]

/-! ## Looking up and binding -/

mutual

@[simp] theorem Scope.lookup_rename (name : String) : (scope : Scope) →
    (scope.rename ρ).lookup name = (scope.lookup name).map (Value.rename ρ)
  | .mk id bindings parent => by
    rw [rename_mk, lookup, lookup, Assoc.find?_map]
    cases bindings.find? name with
    | none => exact lookup?_rename name parent
    | some value => rfl

theorem Scope.lookup?_rename (name : String) : (parent : Option Scope) →
    lookup? name (parent.map (Scope.rename ρ)) = (lookup? name parent).map (Value.rename ρ)
  | none => rfl
  | some scope => lookup_rename name scope

end

theorem bindAliases_rename (bindings : Bindings) (aliases : List String) (value : Value) :
    bindAliases (bindings.map (Value.rename ρ)) aliases (value.rename ρ) =
      (bindAliases bindings aliases value).map (Value.rename ρ) := by
  unfold bindAliases
  induction aliases generalizing bindings with
  | nil => rfl
  | cons name rest ih => rw [List.foldl_cons, List.foldl_cons, ← Assoc.insert_map, ih]

theorem bindInputsAfter_rename (bindings : Bindings) (inputs : List Binder) (values : List Value) :
    bindInputsAfter (bindings.map (Value.rename ρ)) inputs (values.map (Value.rename ρ)) =
      (bindInputsAfter bindings inputs values).map (Assoc.map (Value.rename ρ)) := by
  induction inputs generalizing bindings values with
  | nil => rfl
  | cons input inputs ih =>
    unfold bindInputsAfter
    split
    · rw [← Value.rename_list, bindAliases_rename]
      exact ih _ []
    · cases values with
      | nil => rfl
      | cons value left =>
        simp only [List.map_cons]
        rw [bindAliases_rename]
        exact ih ..

theorem bindInputs_rename (inputs : List Binder) (values : List Value) :
    bindInputs inputs (values.map (Value.rename ρ)) =
      (bindInputs inputs values).map (Assoc.map (Value.rename ρ)) :=
  bindInputsAfter_rename ρ .empty inputs values

/-! ## Equality -/

theorem Scope.id_rename (scope : Scope) : (scope.rename ρ).id = ρ scope.id := by
  cases scope
  rw [rename_mk]
  rfl

variable {ρ}

theorem Scope.id_beq_rename (hρ : Function.Injective ρ) (s t : Scope) :
    ((s.rename ρ).id == (t.rename ρ).id) = (s.id == t.id) := by
  rw [id_rename, id_rename, Bool.eq_iff_iff, beq_iff_eq, beq_iff_eq, hρ.eq_iff]

mutual

/-- Values are equal exactly if they are equal under other identities. -/
theorem Value.beq_rename (hρ : Function.Injective ρ) (a b : Value) :
    (a.rename ρ).beq (b.rename ρ) = a.beq b := by
  cases a with
  | list as =>
    cases b with
    | list bs => exact beqList_rename hρ as bs
    | _ => rfl
  | function f s =>
    cases b with
    | function g t => simp only [rename, beq, Scope.id_beq_rename hρ]
    | _ => rfl
  | structDef f s =>
    cases b with
    | structDef g t => simp only [rename, beq, Scope.id_beq_rename hρ]
    | _ => rfl
  | struct f s =>
    cases b with
    | struct g t => simp only [rename, beq, Scope.id_beq_rename hρ]
    | _ => rfl
  | _ => cases b <;> rfl

theorem Value.beqList_rename (hρ : Function.Injective ρ) : (as bs : List Value) →
    beqList (renameItems ρ as) (renameItems ρ bs) = beqList as bs
  | [], [] => rfl
  | [], _ :: _ => rfl
  | _ :: _, [] => rfl
  | a :: as, b :: bs => by
    simp only [renameItems, beqList]
    rw [beq_rename hρ a b, beqList_rename hρ as bs]

end

/-! ## Operators -/

@[simp] theorem Value.toNumber_rename (v : Value) : (v.rename ρ).toNumber = v.toNumber := by
  cases v <;> rfl

@[simp] theorem Value.toBoolean_rename (v : Value) : (v.rename ρ).toBoolean = v.toBoolean := by
  cases v <;> rfl

/-- A computation that holds no scopes in the end. -/
theorem map_bind_rename {α : Type} (result : Except ExceptionKind α)
    {f : α → Except ExceptionKind Value} (h : ∀ a, (f a).map (Value.rename ρ) = f a) :
    (result >>= f).map (Value.rename ρ) = result >>= f := by
  cases result with
  | ok a => exact h a
  | error kind => rfl

theorem applyToNumbers_rename (op : BinaryOperator) (left right : NumberValue) :
    (applyToNumbers op left right).map (Value.rename ρ) = applyToNumbers op left right := by
  unfold applyToNumbers
  split <;> exact map_bind_rename _ fun _ => rfl

/-- Operators see values up to the identities of scopes. -/
theorem BinaryOperator.apply_rename (hρ : Function.Injective ρ) (op : BinaryOperator)
    (left right : Value) :
    op.apply (left.rename ρ) (right.rename ρ) = (op.apply left right).map (Value.rename ρ) := by
  have hbeq : (left.rename ρ == right.rename ρ) = (left == right) := Value.beq_rename hρ left right
  unfold BinaryOperator.apply
  simp only [Value.toNumber_rename, Value.toBoolean_rename]
  split
  · rw [hbeq]
    rfl
  · rw [bne, bne, hbeq]
    rfl
  · refine (map_bind_rename _ fun b => ?_).symm
    cases b
    · rfl
    · exact map_bind_rename _ fun _ => rfl
  · refine (map_bind_rename _ fun b => ?_).symm
    cases b
    · exact map_bind_rename _ fun _ => rfl
    · rfl
  · refine (map_bind_rename _ fun l => ?_).symm
    exact map_bind_rename _ fun r => applyToNumbers_rename ..

theorem UnaryOperator.apply_rename (op : UnaryOperator) (operand : Value) :
    op.apply (operand.rename ρ) = (op.apply operand).map (Value.rename ρ) := by
  cases op <;> cases operand <;> rfl

end Stepwise

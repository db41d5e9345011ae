import Stepwise.Typing.Acceptance

/-!
# Parts of types

The parts of a type are all types written in it, the type itself first: the elements of lists, the
written types of inputs and columns, what functions yield, the arguments of structure types and the
members of unions.  The operands of derived units are no parts, and neither are the values of inputs
and columns.  Resolving names resolves them part by part (`Ty.parts_resolveNames`), so what is said
of every part of a type (`Ty.Throughout`) can be said of it after its names have been resolved.

`Ty.height` bounds how deeply comparisons of a type are nested.
-/

namespace Stepwise

mutual

/-- A type and all types written in it, in the order of its children. -/
def Ty.parts (t : Ty) : List Ty :=
  t :: match t with
    | .function _ inputs output => partsInBinders inputs ++ output.parts
    | .list item => item.parts
    | .table columns => partsInBinders columns
    | .struct _ args => partsInTys args
    | .structDef _ args => partsInTys args
    | .union members => partsInTys members
    | _ => []
termination_by structural t

/-- The parts of types. -/
def partsInTys : List Ty → List Ty
  | [] => []
  | t :: rest => t.parts ++ partsInTys rest
termination_by structural ts => ts

/-- The parts of the written type of a declaration. -/
def Binder.parts : Binder → List Ty
  | ⟨_, _, ty, _, _⟩ => partsInTy? ty
termination_by structural b => b

/-- The parts of the written types of declarations. -/
def partsInBinders : List Binder → List Ty
  | [] => []
  | b :: rest => b.parts ++ partsInBinders rest
termination_by structural bs => bs

/-- The parts of an optional type. -/
def partsInTy? : Option Ty → List Ty
  | none => []
  | some t => t.parts
termination_by structural t => t

end

theorem mem_partsInTys {p : Ty} {ts : List Ty} : p ∈ partsInTys ts ↔ ∃ t ∈ ts, p ∈ t.parts := by
  induction ts with
  | nil => simp [partsInTys]
  | cons t rest ih => simp [partsInTys, ih]

theorem Binder.mem_parts {p : Ty} {b : Binder} :
    p ∈ b.parts ↔ ∃ t, b.ty = some t ∧ p ∈ t.parts := by
  obtain ⟨id, names, ty, value, rest⟩ := b
  cases ty <;> simp [Binder.parts, partsInTy?]

theorem mem_partsInBinders {p : Ty} {bs : List Binder} :
    p ∈ partsInBinders bs ↔ ∃ b ∈ bs, ∃ t, b.ty = some t ∧ p ∈ t.parts := by
  induction bs with
  | nil => simp [partsInBinders]
  | cons b rest ih => simp [partsInBinders, ih, Binder.mem_parts]

/-! ## Resolving names -/

/-- A name stands for a structure or a type variable, or stays as it is. -/
theorem Context.namedType_cases (ctx : Context) (name : String) :
    (∃ definition, ctx.namedType name = .struct definition []) ∨
      (∃ v, ctx.namedType name = .var v) ∨ ctx.namedType name = .name name := by
  unfold Context.namedType
  split
  · exact .inl ⟨_, rfl⟩
  · exact .inr (.inl ⟨_, rfl⟩)
  · exact .inr (.inr rfl)

section Names

variable {ctx : Context}

@[simp] theorem Binder.resolveNames_names (b : Binder) : (b.resolveNames ctx).names = b.names := by
  obtain ⟨id, names, ty, value, rest⟩ := b
  rfl

@[simp] theorem Binder.resolveNames_ty (b : Binder) :
    (b.resolveNames ctx).ty = b.ty.map (·.resolveNames ctx) := by
  obtain ⟨id, names, ty, value, rest⟩ := b
  cases ty <;> rfl

theorem resolveInBinders_eq_map (bs : List Binder) :
    resolveInBinders ctx bs = bs.map (·.resolveNames ctx) := by
  induction bs with
  | nil => rfl
  | cons b rest ih => rw [resolveInBinders, ih, List.map_cons]

mutual

/-- The parts of a type whose names are resolved are its parts with their names resolved. -/
theorem Ty.parts_resolveNames :
    ∀ t : Ty, (t.resolveNames ctx).parts = t.parts.map (·.resolveNames ctx)
  | .name name => by
    rcases ctx.namedType_cases name with ⟨definition, h⟩ | ⟨v, h⟩ | h <;>
      simp [Ty.resolveNames, h, Ty.parts, partsInTys]
  | .list item => by simp [Ty.resolveNames, Ty.parts, Ty.parts_resolveNames item]
  | .function _ inputs output => by
    simp [Ty.resolveNames, Ty.parts, Ty.parts_resolveNames output, parts_resolveInBinders inputs]
  | .table columns => by simp [Ty.resolveNames, Ty.parts, parts_resolveInBinders columns]
  | .struct _ args => by simp [Ty.resolveNames, Ty.parts, parts_resolveInTys args]
  | .structDef _ args => by simp [Ty.resolveNames, Ty.parts, parts_resolveInTys args]
  | .union members => by simp [Ty.resolveNames, Ty.parts, parts_resolveInTys members]
  | .number _ | .text _ | .boolean | .var _ | .any | .unknown .. => rfl

theorem parts_resolveInTys :
    ∀ ts : List Ty, partsInTys (resolveInTys ctx ts) = (partsInTys ts).map (·.resolveNames ctx)
  | [] => rfl
  | t :: rest => by
    simp [resolveInTys, partsInTys, Ty.parts_resolveNames t, parts_resolveInTys rest]

theorem parts_resolveInBinder :
    ∀ b : Binder, (b.resolveNames ctx).parts = b.parts.map (·.resolveNames ctx)
  | ⟨_, _, none, _, _⟩ => rfl
  | ⟨_, _, some t, _, _⟩ => by
    simp [Binder.resolveNames, Binder.parts, resolveInTy?, partsInTy?, Ty.parts_resolveNames t]

theorem parts_resolveInBinders : ∀ bs : List Binder,
    partsInBinders (resolveInBinders ctx bs) = (partsInBinders bs).map (·.resolveNames ctx)
  | [] => rfl
  | b :: rest => by
    simp [resolveInBinders, partsInBinders, parts_resolveInBinder b, parts_resolveInBinders rest]

end

end Names

/-! ## Properties of all parts -/

/-- Every part of the type has the property. -/
def Ty.Throughout (P : Ty → Prop) (t : Ty) : Prop :=
  ∀ part ∈ t.parts, P part

instance (P : Ty → Prop) [DecidablePred P] (t : Ty) : Decidable (t.Throughout P) :=
  inferInstanceAs (Decidable (∀ part ∈ t.parts, P part))

section Throughout

variable {P Q : Ty → Prop} {t u : Ty} {ts : List Ty} {bs : List Binder}

theorem Ty.Throughout.self (h : t.Throughout P) : P t :=
  h t (by unfold Ty.parts; exact List.mem_cons_self ..)

theorem Ty.Throughout.item (h : (Ty.list t).Throughout P) : t.Throughout P :=
  fun p hp => h p (List.mem_cons_of_mem _ hp)

theorem Ty.Throughout.member (h : (Ty.union ts).Throughout P) (ht : t ∈ ts) : t.Throughout P :=
  fun p hp => h p (List.mem_cons_of_mem _ (mem_partsInTys.2 ⟨t, ht, hp⟩))

theorem Ty.Throughout.output {vars : List TypeVariable}
    (h : (Ty.function vars bs u).Throughout P) : u.Throughout P :=
  fun p hp => h p (List.mem_cons_of_mem _ (List.mem_append_right _ hp))

theorem Ty.Throughout.input {vars : List TypeVariable} {b : Binder}
    (h : (Ty.function vars bs u).Throughout P) (hb : b ∈ bs) (ht : b.ty = some t) :
    t.Throughout P :=
  fun p hp => h p (List.mem_cons_of_mem _
    (List.mem_append_left _ (mem_partsInBinders.2 ⟨b, hb, t, ht, hp⟩)))

theorem Ty.Throughout.column {b : Binder} (h : (Ty.table bs).Throughout P) (hb : b ∈ bs)
    (ht : b.ty = some t) : t.Throughout P :=
  fun p hp => h p (List.mem_cons_of_mem _ (mem_partsInBinders.2 ⟨b, hb, t, ht, hp⟩))

theorem Ty.throughout_list : (Ty.list t).Throughout P ↔ P (.list t) ∧ t.Throughout P :=
  List.forall_mem_cons

theorem Ty.throughout_union :
    (Ty.union ts).Throughout P ↔ P (.union ts) ∧ ∀ t ∈ ts, t.Throughout P := by
  refine ⟨fun h => ⟨h.self, fun t ht => h.member ht⟩, fun ⟨h, hmembers⟩ p hp => ?_⟩
  rcases List.mem_cons.1 hp with rfl | hp
  · exact h
  · obtain ⟨t, ht, hp⟩ := mem_partsInTys.1 hp
    exact hmembers t ht p hp

/-- What names do not matter for is still so after they have been resolved. -/
theorem Ty.Throughout.resolveNames {ctx : Context} (h : t.Throughout P)
    (hP : ∀ part, P part → Q (part.resolveNames ctx)) : (t.resolveNames ctx).Throughout Q := by
  intro p hp
  rw [Ty.parts_resolveNames] at hp
  obtain ⟨part, hpart, rfl⟩ := List.mem_map.1 hp
  exact hP part (h part hpart)

end Throughout

/-! ## Heights -/

mutual

/-- How deeply comparisons of a type may be nested.  A name counts twice, for itself and for what it
stands for, and so does the type of a declaration, around which there may be a list. -/
def Ty.height : Ty → Nat
  | .name _ => 2
  | .list item => item.height + 1
  | .function _ inputs output => max (heightOfBinders inputs) output.height + 1
  | .table columns => heightOfBinders columns + 1
  | .union members => heightOfTys members + 1
  | _ => 1
termination_by structural t => t

/-- The greatest height of types. -/
def heightOfTys : List Ty → Nat
  | [] => 0
  | t :: rest => max t.height (heightOfTys rest)
termination_by structural ts => ts

/-- The height of the written type of a declaration and of a list of that type. -/
def Binder.height : Binder → Nat
  | ⟨_, _, ty, _, _⟩ => heightOfTy? ty + 1
termination_by structural b => b

/-- The greatest height of declarations. -/
def heightOfBinders : List Binder → Nat
  | [] => 0
  | b :: rest => max b.height (heightOfBinders rest)
termination_by structural bs => bs

/-- The height of an optional type. -/
def heightOfTy? : Option Ty → Nat
  | none => 0
  | some t => t.height
termination_by structural t => t

end

theorem Ty.height_pos (t : Ty) : 0 < t.height := by
  cases t <;> simp [Ty.height]

theorem heightOfTys_le {n : Nat} {ts : List Ty} :
    heightOfTys ts ≤ n ↔ ∀ t ∈ ts, t.height ≤ n := by
  induction ts with
  | nil => simp [heightOfTys]
  | cons t rest ih => rw [heightOfTys, Nat.max_le, ih, List.forall_mem_cons]

theorem heightOfBinders_le {n : Nat} {bs : List Binder} :
    heightOfBinders bs ≤ n ↔ ∀ b ∈ bs, b.height ≤ n := by
  induction bs with
  | nil => simp [heightOfBinders]
  | cons b rest ih => rw [heightOfBinders, Nat.max_le, ih, List.forall_mem_cons]

theorem Binder.height_of_ty {b : Binder} {t : Ty} (h : b.ty = some t) :
    b.height = t.height + 1 := by
  obtain ⟨id, names, ty, value, rest⟩ := b
  simp only at h
  simp [Binder.height, h, heightOfTy?]

section Heights

variable {ctx : Context} {t output : Ty} {ts : List Ty} {bs : List Binder} {b : Binder}

theorem Ty.height_lt_union (h : t ∈ ts) : t.height < (Ty.union ts).height :=
  Nat.lt_succ_of_le (heightOfTys_le.1 (Nat.le_refl _) t h)

theorem Ty.height_lt_table (h : b ∈ bs) (ht : b.ty = some t) :
    t.height + 1 < (Ty.table bs).height := by
  have hle := heightOfBinders_le.1 (Nat.le_refl _) b h
  rw [Binder.height_of_ty ht] at hle
  exact Nat.lt_succ_of_le hle

theorem Ty.height_lt_function_output (vars : List TypeVariable) (bs : List Binder) (output : Ty) :
    output.height < (Ty.function vars bs output).height := by
  simp only [Ty.height]
  omega

mutual

/-- Resolving names makes no type higher. -/
theorem Ty.height_resolveNames : ∀ t : Ty, (t.resolveNames ctx).height ≤ t.height
  | .name name => by
    rcases ctx.namedType_cases name with ⟨definition, h⟩ | ⟨v, h⟩ | h <;>
      simp [Ty.resolveNames, h, Ty.height]
  | .list item => by
    simpa [Ty.resolveNames, Ty.height] using Ty.height_resolveNames item
  | .function _ inputs output => by
    have hinputs := heightOfBinders_resolve inputs
    have houtput := Ty.height_resolveNames output
    simp only [Ty.resolveNames, Ty.height]
    omega
  | .table columns => by
    simpa [Ty.resolveNames, Ty.height] using heightOfBinders_resolve columns
  | .union members => by
    simpa [Ty.resolveNames, Ty.height] using heightOfTys_resolve members
  | .struct .. | .structDef .. | .number _ | .text _ | .boolean | .var _ | .any | .unknown .. =>
    Nat.le_refl _

theorem heightOfTys_resolve : ∀ ts : List Ty, heightOfTys (resolveInTys ctx ts) ≤ heightOfTys ts
  | [] => Nat.le_refl _
  | t :: rest => by
    have ht := Ty.height_resolveNames t
    have hrest := heightOfTys_resolve rest
    simp only [resolveInTys, heightOfTys]
    omega

theorem heightOfBinder_resolve : ∀ b : Binder, (b.resolveNames ctx).height ≤ b.height
  | ⟨_, _, none, _, _⟩ => Nat.le_refl _
  | ⟨_, _, some t, _, _⟩ => by
    simpa [Binder.resolveNames, Binder.height, resolveInTy?, heightOfTy?] using
      Ty.height_resolveNames t

theorem heightOfBinders_resolve :
    ∀ bs : List Binder, heightOfBinders (resolveInBinders ctx bs) ≤ heightOfBinders bs
  | [] => Nat.le_refl _
  | b :: rest => by
    have hb := heightOfBinder_resolve b
    have hrest := heightOfBinders_resolve rest
    simp only [resolveInBinders, heightOfBinders]
    omega

end

/-- A name that stands for something else loses height when it is resolved. -/
theorem Ty.height_resolveNames_lt (h : t.isName = true) (hr : (t.resolveNames ctx).isName = false) :
    (t.resolveNames ctx).height < t.height := by
  cases t with
  | name name =>
    rcases ctx.namedType_cases name with ⟨definition, hd⟩ | ⟨v, hv⟩ | hn
    · simp [Ty.resolveNames, hd, Ty.height]
    · simp [Ty.resolveNames, hv, Ty.height]
    · simp [Ty.resolveNames, hn, Ty.isName] at hr
  | _ => simp [Ty.isName] at h

/-- Two types of which one is a name lose height when they are resolved. -/
theorem Ty.height_resolved_lt {a b : Ty} (h : (a.isName || b.isName) = true)
    (ha : (a.resolveNames ctx).isName = false) (hb : (b.resolveNames ctx).isName = false) :
    (a.resolveNames ctx).height + (b.resolveNames ctx).height < a.height + b.height := by
  have hale : (a.resolveNames ctx).height ≤ a.height := a.height_resolveNames
  have hble : (b.resolveNames ctx).height ≤ b.height := b.height_resolveNames
  rcases Bool.or_eq_true_iff.1 h with hname | hname
  · have hlt := Ty.height_resolveNames_lt hname ha
    omega
  · have hlt := Ty.height_resolveNames_lt hname hb
    omega

theorem Ty.height_resolved_input_lt (ctx : Context) (vars : List TypeVariable) (output : Ty)
    (h : b ∈ bs) (ht : b.ty = some t) :
    (t.resolveNames ctx).height < (Ty.function vars bs output).height := by
  have hle := heightOfBinders_le.1 (Nat.le_refl _) b h
  rw [Binder.height_of_ty ht] at hle
  have hresolved : (t.resolveNames ctx).height ≤ t.height := t.height_resolveNames
  simp only [Ty.height]
  omega

end Heights

end Stepwise

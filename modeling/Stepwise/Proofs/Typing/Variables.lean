import Mathlib.Data.List.Basic
import Stepwise.Proofs.Typing.Parts
import Stepwise.Syntax.Node
import Stepwise.Typing.Substitution

/-!
# Substitution is simultaneous

Substituting goes through a type once, from left to right.  It asks for the variables among the
parts of the type, one question for each time that a variable is written, and puts the answers in
their places without looking into them (`Asks`).  How the answers come about makes no difference, so
this is said of every monad that they may come from.

It follows that two substitutions one after the other are a single one, which lets the second act on
the answers of the first (`Ty.substitute_substitute`).
-/

namespace Stepwise

/-! ## Variables -/

/-- The name of a type that is a variable. -/
def Ty.variable? : Ty → Option String
  | .var v => some v
  | _ => none

/-- The variables written in a type, from left to right, each as often as it is written.  Derived
units and the values of inputs and columns are no parts of a type. -/
def Ty.variables (t : Ty) : List String :=
  t.parts.filterMap Ty.variable?

/-- The variables in a type or in the written type of a declaration.  Other nodes have none. -/
def Node.variables : Node → List String
  | .ty t => t.variables
  | .binder b => (b.ty.map Ty.variables).getD []
  | _ => []

theorem filterMap_partsInTys (ts : List Ty) :
    (partsInTys ts).filterMap Ty.variable? = (ts.map Node.ty).flatMap Node.variables := by
  induction ts with
  | nil => rfl
  | cons t rest ih =>
    rw [partsInTys, List.filterMap_append, ih]
    rfl

theorem Binder.filterMap_parts (b : Binder) :
    b.parts.filterMap Ty.variable? = (Node.binder b).variables := by
  obtain ⟨id, names, ty, value, rest⟩ := b
  cases ty <;> rfl

theorem filterMap_partsInBinders (bs : List Binder) :
    (partsInBinders bs).filterMap Ty.variable? = (bs.map Node.binder).flatMap Node.variables := by
  induction bs with
  | nil => rfl
  | cons b rest ih =>
    rw [partsInBinders, List.filterMap_append, ih, b.filterMap_parts]
    rfl

theorem flatMap_variables_typeVariables (vars : List TypeVariable) :
    (vars.map Node.typeVariable).flatMap Node.variables = [] := by
  simp [Node.variables]

/-- A variable is asked for itself, and any other type for its children in their order. -/
theorem Ty.variables_eq_children (t : Ty) :
    t.variables = t.variable?.toList ++ (Node.ty t).children.flatMap Node.variables := by
  cases t with
  | function vars inputs output =>
    simp [Ty.variables, Ty.parts, List.filterMap_cons, Ty.variable?, filterMap_partsInBinders,
      Node.children, Node.childrenOfTy, flatMap_variables_typeVariables, Node.variables]
  | list item =>
    simp [Ty.variables, Ty.parts, List.filterMap_cons, Ty.variable?, Node.children,
      Node.childrenOfTy, Node.variables]
  | table columns => exact filterMap_partsInBinders columns
  | struct _ ts | structDef _ ts | union ts => exact filterMap_partsInTys ts
  | _ => rfl

/-! ## Substituting without effects -/

/-- Puts the answers into the written type of a declaration. -/
def Binder.substitute (answer : String → Option Ty) : Binder → Binder
  | ⟨id, names, ty, value, rest⟩ => ⟨id, names, ty.map (·.substitute answer), value, rest⟩

section Equations

variable (answer : String → Option Ty)

theorem substituteInTysM_pure (ts : List Ty) :
    Id.run (substituteInTysM (fun name => pure (answer name)) ts) =
      ts.map (·.substitute answer) := by
  induction ts with
  | nil => rfl
  | cons t rest ih => exact congrArg (t.substitute answer :: ·) ih

theorem Binder.substituteM_pure (b : Binder) :
    Id.run (b.substituteM fun name => pure (answer name)) = b.substitute answer := by
  obtain ⟨id, names, ty, value, rest⟩ := b
  cases ty <;> rfl

theorem substituteInBindersM_pure (bs : List Binder) :
    Id.run (substituteInBindersM (fun name => pure (answer name)) bs) =
      bs.map (·.substitute answer) := by
  induction bs with
  | nil => rfl
  | cons b rest ih => exact congrArg₂ List.cons (b.substituteM_pure answer) ih

theorem Ty.substitute_function (vars : List TypeVariable) (inputs : List Binder) (output : Ty) :
    (Ty.function vars inputs output).substitute answer =
      .function vars (inputs.map (·.substitute answer)) (output.substitute answer) :=
  congrArg (Ty.function vars · (output.substitute answer))
    (substituteInBindersM_pure answer inputs)

theorem Ty.substitute_table (columns : List Binder) :
    (Ty.table columns).substitute answer = .table (columns.map (·.substitute answer)) :=
  congrArg Ty.table (substituteInBindersM_pure answer columns)

theorem Ty.substitute_struct (definition : StructDef) (args : List Ty) :
    (Ty.struct definition args).substitute answer =
      .struct definition (args.map (·.substitute answer)) :=
  congrArg (Ty.struct definition) (substituteInTysM_pure answer args)

theorem Ty.substitute_structDef (definition : StructDef) (args : List Ty) :
    (Ty.structDef definition args).substitute answer =
      .structDef definition (args.map (·.substitute answer)) :=
  congrArg (Ty.structDef definition) (substituteInTysM_pure answer args)

theorem Ty.substitute_union (members : List Ty) :
    (Ty.union members).substitute answer = .union (members.map (·.substitute answer)) :=
  congrArg Ty.union (substituteInTysM_pure answer members)

end Equations

/-! ## One substitution after another -/

/-- The answers of `f`, with those of `g` put into them, and the answers of `g` where `f` has
none. -/
def substitutedThen (f g : String → Option Ty) (name : String) : Option Ty :=
  match f name with
  | some ty => some (ty.substitute g)
  | none => g name

section Twice

variable {f g : String → Option Ty}

mutual

theorem Ty.substitute_substitute :
    ∀ t : Ty, (t.substitute f).substitute g = t.substitute (substitutedThen f g)
  | .var name => by
    rw [Ty.substitute_var, Ty.substitute_var, substitutedThen]
    cases f name with
    | some ty => rfl
    | none => exact Ty.substitute_var g name
  | .list item => congrArg Ty.list item.substitute_substitute
  | .function vars inputs output => by
    simp only [Ty.substitute_function, map_substitute_binders inputs,
      output.substitute_substitute]
  | .table columns => by simp only [Ty.substitute_table, map_substitute_binders columns]
  | .struct _ args => by simp only [Ty.substitute_struct, map_substitute_tys args]
  | .structDef _ args => by simp only [Ty.substitute_structDef, map_substitute_tys args]
  | .union members => by simp only [Ty.substitute_union, map_substitute_tys members]
  | .number _ | .text _ | .boolean | .name _ | .any | .unknown .. => rfl

theorem map_substitute_tys : ∀ ts : List Ty,
    (ts.map (·.substitute f)).map (·.substitute g) = ts.map (·.substitute (substitutedThen f g))
  | [] => rfl
  | t :: rest => congrArg₂ List.cons t.substitute_substitute (map_substitute_tys rest)

theorem Binder.substitute_substitute :
    ∀ b : Binder, (b.substitute f).substitute g = b.substitute (substitutedThen f g)
  | ⟨_, _, none, _, _⟩ => rfl
  | ⟨id, names, some t, value, rest⟩ =>
    congrArg (fun ty => Binder.mk id names (some ty) value rest) t.substitute_substitute

theorem map_substitute_binders : ∀ bs : List Binder,
    (bs.map (·.substitute f)).map (·.substitute g) = bs.map (·.substitute (substitutedThen f g))
  | [] => rfl
  | b :: rest => congrArg₂ List.cons b.substitute_substitute (map_substitute_binders rest)

end

end Twice

mutual

theorem Ty.substitute_none : ∀ t : Ty, t.substitute (fun _ => none) = t
  | .list item => congrArg Ty.list item.substitute_none
  | .function vars inputs output => by
    rw [Ty.substitute_function, map_substitute_none_binders inputs, output.substitute_none]
  | .table columns => by rw [Ty.substitute_table, map_substitute_none_binders columns]
  | .struct _ args => by rw [Ty.substitute_struct, map_substitute_none_tys args]
  | .structDef _ args => by rw [Ty.substitute_structDef, map_substitute_none_tys args]
  | .union members => by rw [Ty.substitute_union, map_substitute_none_tys members]
  | .number _ | .text _ | .boolean | .name _ | .var _ | .any | .unknown .. => rfl

theorem map_substitute_none_tys :
    ∀ ts : List Ty, ts.map (·.substitute fun _ => none) = ts
  | [] => rfl
  | t :: rest => congrArg₂ List.cons t.substitute_none (map_substitute_none_tys rest)

theorem Binder.substitute_none : ∀ b : Binder, b.substitute (fun _ => none) = b
  | ⟨_, _, none, _, _⟩ => rfl
  | ⟨id, names, some t, value, rest⟩ =>
    congrArg (fun ty => Binder.mk id names (some ty) value rest) t.substitute_none

theorem map_substitute_none_binders :
    ∀ bs : List Binder, bs.map (·.substitute fun _ => none) = bs
  | [] => rfl
  | b :: rest => congrArg₂ List.cons b.substitute_none (map_substitute_none_binders rest)

end

/-! ## Questions -/

/-- Two continuations that agree on lists of the right length agree after a walk of a list. -/
theorem mapM_bind_congr {m : Type → Type} [Monad m] [LawfulMonad m] {α β γ : Type} {f : α → m β} :
    ∀ (l : List α) {next next' : List β → m γ},
      (∀ ys, ys.length = l.length → next ys = next' ys) →
      l.mapM f >>= next = l.mapM f >>= next'
  | [], _, _, h => by simpa using h [] rfl
  | a :: rest, next, next', h => by
    simp only [List.mapM_cons, bind_assoc, pure_bind]
    refine bind_congr fun y => mapM_bind_congr rest fun ys hys => h (y :: ys) ?_
    simp [hys]

/-- A walk asks for the given names, in their order and whatever the answers are, and its result is
made of the answers. -/
def Asks {α : Type} (names : List String)
    (walk : (m : Type → Type) → [Monad m] → (String → m (Option Ty)) → m α) : Prop :=
  ∃ fill : List (Option Ty) → α, ∀ (m : Type → Type) [Monad m] [LawfulMonad m]
    (answer : String → m (Option Ty)), walk m answer = fill <$> names.mapM answer

section Asks

variable {α β γ : Type} {names names' : List String}
  {walk : (m : Type → Type) → [Monad m] → (String → m (Option Ty)) → m α}
  {walk' : (m : Type → Type) → [Monad m] → (String → m (Option Ty)) → m β}

theorem asks_pure (a : α) : Asks [] fun _ _ _ => pure a :=
  ⟨fun _ => a, fun _ _ _ _ => by simp⟩

theorem Asks.map (h : Asks names walk) (make : α → β) :
    Asks names fun m _ answer => walk m answer >>= fun a => pure (make a) := by
  obtain ⟨fill, hfill⟩ := h
  refine ⟨fun answers => make (fill answers), fun m _ _ answer => ?_⟩
  simp only [hfill m answer, map_eq_pure_bind, bind_assoc, pure_bind]

/-- One walk after the other asks what the first asks and then what the second asks. -/
theorem Asks.both (h : Asks names walk) (h' : Asks names' walk') (make : α → β → γ) :
    Asks (names ++ names') fun m _ answer =>
      walk m answer >>= fun a => walk' m answer >>= fun b => pure (make a b) := by
  obtain ⟨fill, hfill⟩ := h
  obtain ⟨fill', hfill'⟩ := h'
  refine ⟨fun answers => make (fill (answers.take names.length))
    (fill' (answers.drop names.length)), fun m _ _ answer => ?_⟩
  simp only [hfill m answer, hfill' m answer, List.mapM_append, map_eq_pure_bind, bind_assoc,
    pure_bind]
  refine mapM_bind_congr names fun answers hlength => bind_congr fun answers' => ?_
  rw [← hlength, List.take_left, List.drop_left]

end Asks

mutual

/-- Substituting asks for the variables of a type, from left to right. -/
theorem Ty.asks : ∀ t : Ty, Asks t.variables fun _ _ answer => t.substituteM answer
  | .var name => ⟨fun answers => (answers.headD none).getD (.var name), fun m _ _ answer => by
      simp only [Ty.substituteM, Ty.variables, Ty.parts, Ty.variable?, List.filterMap_cons,
        List.filterMap_nil, List.mapM_cons, List.mapM_nil, map_eq_pure_bind, bind_assoc, pure_bind]
      refine bind_congr fun found => ?_
      cases found <;> rfl⟩
  | .list item => item.asks.map Ty.list
  | .function vars inputs output => by
    rw [show (Ty.function vars inputs output).variables =
      (partsInBinders inputs).filterMap Ty.variable? ++ output.variables from
        List.filterMap_append]
    exact (asks_substituteInBinders inputs).both output.asks (Ty.function vars)
  | .table columns => (asks_substituteInBinders columns).map Ty.table
  | .struct definition args => (asks_substituteInTys args).map (Ty.struct definition)
  | .structDef definition args => (asks_substituteInTys args).map (Ty.structDef definition)
  | .union members => (asks_substituteInTys members).map Ty.union
  | .number unit => asks_pure (Ty.number unit)
  | .text language => asks_pure (Ty.text language)
  | .boolean => asks_pure Ty.boolean
  | .name name => asks_pure (Ty.name name)
  | .any => asks_pure Ty.any
  | .unknown why node => asks_pure (Ty.unknown why node)

theorem asks_substituteInTys : ∀ ts : List Ty,
    Asks ((partsInTys ts).filterMap Ty.variable?) fun _ _ answer => substituteInTysM answer ts
  | [] => asks_pure []
  | t :: rest => by
    rw [partsInTys, List.filterMap_append]
    exact t.asks.both (asks_substituteInTys rest) List.cons

theorem Binder.asks : ∀ b : Binder,
    Asks (b.parts.filterMap Ty.variable?) fun _ _ answer => b.substituteM answer
  | ⟨id, names, none, value, rest⟩ =>
    (asks_pure none).map fun ty => Binder.mk id names ty value rest
  | ⟨id, names, some t, value, rest⟩ =>
    (t.asks.map some).map fun ty => Binder.mk id names ty value rest

theorem asks_substituteInBinders : ∀ bs : List Binder,
    Asks ((partsInBinders bs).filterMap Ty.variable?) fun _ _ answer =>
      substituteInBindersM answer bs
  | [] => asks_pure []
  | b :: rest => by
    rw [partsInBinders, List.filterMap_append]
    exact b.asks.both (asks_substituteInBinders rest) List.cons

end

/-- Substitution composes, changes nothing where there are no answers, and asks for the variables of
a type from left to right, never for those of an answer. -/
theorem Ty.substitution_simultaneous (t : Ty) :
    (∀ f g : String → Option Ty,
      (t.substitute f).substitute g = t.substitute (substitutedThen f g)) ∧
    t.substitute (fun _ => none) = t ∧
    t.variables = t.variable?.toList ++ (Node.ty t).children.flatMap Node.variables ∧
    Asks t.variables fun _ _ answer => t.substituteM answer :=
  ⟨fun _ _ => t.substitute_substitute, t.substitute_none, t.variables_eq_children, t.asks⟩

/-- A variable that is written twice is asked for twice, and that of an answer is not asked for. -/
example :
    let record (name : String) : StateM (List String) (Option Ty) := do
      modify (· ++ [name])
      pure (if name = "T" then some (.list (.var "W")) else none)
    ((Ty.union [.var "T", .list (.var "U"), .var "T"]).substituteM record).run [] =
      (Ty.union [.list (.var "W"), .list (.var "U"), .list (.var "W")], ["T", "U", "T"]) := by
  rfl

end Stepwise

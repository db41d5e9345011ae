import Stepwise.Call.Site
import Stepwise.Proofs.Call.Alike

/-!
# Nested expressions

The expressions nested in a part of a program, wherever they are: in an expression itself, in a
declaration, in a written type, and in the definitions that structure types carry.  The operands of
derived units are left out, as nothing but their units matters.

Nothing that types are made of comes from elsewhere: resolving names, substituting type variables
and matching arguments to inputs only move expressions about.  For each of these operations there is
a lemma that bounds the expressions nested in what comes out by those in what goes in, and in the
definitions that names stand for (`Context.Within`).  The definitions that the names of a program
stand for are nested in it themselves (`Lexicon.find?_ofExpr_nested`).
-/

namespace Stepwise

mutual

/-- An expression and the expressions nested in it. -/
def Expr.nested (e : Expr) : List Expr :=
  e :: match e with
    | .list _ _ items _ => nestedInExprs items
    | .conditional _ condition _ yes no => condition.nested ++ yes.nested ++ no.nested
    | .call c => c.nested
    | .delete _ table _ query => table.nested ++ query.nested
    | .insert _ table _ cells => table.nested ++ nestedInBinders cells
    | .access _ subject _ _ => subject.nested
    | .binary _ left _ _ right => left.nested ++ right.nested
    | .unary _ _ _ operand => operand.nested
    | .function f => f.nested
    | .struct s => s.nested
    | .block _ statements => nestedInExprs statements
    | .bind b => b.nested
    | _ => []
termination_by structural e

/-- The expressions nested in expressions. -/
def nestedInExprs : List Expr → List Expr
  | [] => []
  | e :: rest => e.nested ++ nestedInExprs rest
termination_by structural es => es

/-- The expressions nested in an optional expression. -/
def nestedInExpr? : Option Expr → List Expr
  | none => []
  | some e => e.nested
termination_by structural e => e

/-- The expressions nested in a call. -/
def Call.nested : Call → List Expr
  | ⟨_, types, callee, _, inputs, _⟩ =>
    nestedInTypeInputs types ++ callee.nested ++ nestedInExprs inputs
termination_by structural c => c

/-- The expressions nested in a declaration. -/
def Binder.nested : Binder → List Expr
  | ⟨_, _, ty, value, _⟩ => nestedInTy? ty ++ nestedInExpr? value
termination_by structural b => b

/-- The expressions nested in declarations. -/
def nestedInBinders : List Binder → List Expr
  | [] => []
  | b :: rest => b.nested ++ nestedInBinders rest
termination_by structural bs => bs

/-- The expressions nested in a type input. -/
def TypeInput.nested : TypeInput → List Expr
  | ⟨_, ty⟩ => ty.nested
termination_by structural i => i

/-- The expressions nested in type inputs. -/
def nestedInTypeInputs : List TypeInput → List Expr
  | [] => []
  | i :: rest => i.nested ++ nestedInTypeInputs rest
termination_by structural is => is

/-- The expressions nested in a function definition. -/
def FunctionDef.nested : FunctionDef → List Expr
  | ⟨_, _, _, inputs, output, body⟩ =>
    nestedInBinders inputs ++ nestedInTy? output ++ nestedInExpr? body
termination_by structural f => f

/-- The expressions nested in a structure definition. -/
def StructDef.nested : StructDef → List Expr
  | ⟨_, _, _, inputs, block⟩ => nestedInBinders inputs ++ nestedInExpr? block
termination_by structural s => s

/-- The expressions nested in a type. -/
def Ty.nested : Ty → List Expr
  | .function _ inputs output => nestedInBinders inputs ++ output.nested
  | .list item => item.nested
  | .table columns => nestedInBinders columns
  | .struct definition args => definition.nested ++ nestedInTys args
  | .structDef definition args => definition.nested ++ nestedInTys args
  | .union members => nestedInTys members
  | _ => []
termination_by structural t => t

/-- The expressions nested in types. -/
def nestedInTys : List Ty → List Expr
  | [] => []
  | t :: rest => t.nested ++ nestedInTys rest
termination_by structural ts => ts

/-- The expressions nested in an optional type. -/
def nestedInTy? : Option Ty → List Expr
  | none => []
  | some t => t.nested
termination_by structural t => t

end

theorem Expr.mem_nested_self (e : Expr) : e ∈ e.nested := by
  unfold Expr.nested
  exact List.mem_cons_self ..

theorem mem_nestedInExprs {x : Expr} {es : List Expr} :
    x ∈ nestedInExprs es ↔ ∃ e ∈ es, x ∈ e.nested := by
  induction es with
  | nil => simp [nestedInExprs]
  | cons e rest ih => simp [nestedInExprs, ih]

namespace Expr

variable {id : NodeId} {token closing : Token} {condition yes no left right operand : Expr}

theorem nested_item {items : List Expr} {item : Expr} (h : item ∈ items) :
    item.nested ⊆ (Expr.list id token items closing).nested :=
  fun _ hx => List.mem_cons_of_mem _ (mem_nestedInExprs.2 ⟨item, h, hx⟩)

theorem nested_condition :
    condition.nested ⊆ (Expr.conditional id condition token yes no).nested :=
  fun _ h => List.mem_cons_of_mem _ (List.mem_append_left _ (List.mem_append_left _ h))

theorem nested_yes : yes.nested ⊆ (Expr.conditional id condition token yes no).nested :=
  fun _ h => List.mem_cons_of_mem _ (List.mem_append_left _ (List.mem_append_right _ h))

theorem nested_no : no.nested ⊆ (Expr.conditional id condition token yes no).nested :=
  fun _ h => List.mem_cons_of_mem _ (List.mem_append_right _ h)

theorem nested_left {op : BinaryOperator} :
    left.nested ⊆ (Expr.binary id left token op right).nested :=
  fun _ h => List.mem_cons_of_mem _ (List.mem_append_left _ h)

theorem nested_right {op : BinaryOperator} :
    right.nested ⊆ (Expr.binary id left token op right).nested :=
  fun _ h => List.mem_cons_of_mem _ (List.mem_append_right _ h)

theorem nested_operand {op : UnaryOperator} :
    operand.nested ⊆ (Expr.unary id token op operand).nested :=
  fun _ h => List.mem_cons_of_mem _ h

end Expr

section Within

variable {es : List Expr}

theorem nestedInExprs_subset {items : List Expr} :
    nestedInExprs items ⊆ es ↔ ∀ item ∈ items, item.nested ⊆ es := by
  induction items with
  | nil => simp [nestedInExprs]
  | cons item rest ih => simp [nestedInExprs, ih]

theorem nestedInBinders_subset {bs : List Binder} :
    nestedInBinders bs ⊆ es ↔ ∀ b ∈ bs, b.nested ⊆ es := by
  induction bs with
  | nil => simp [nestedInBinders]
  | cons b rest ih => simp [nestedInBinders, ih]

theorem nestedInTys_subset {tys : List Ty} :
    nestedInTys tys ⊆ es ↔ ∀ ty ∈ tys, ty.nested ⊆ es := by
  induction tys with
  | nil => simp [nestedInTys]
  | cons ty rest ih => simp [nestedInTys, ih]

theorem nestedInTypeInputs_subset {is : List TypeInput} :
    nestedInTypeInputs is ⊆ es ↔ ∀ i ∈ is, i.nested ⊆ es := by
  induction is with
  | nil => simp [nestedInTypeInputs]
  | cons i rest ih => simp [nestedInTypeInputs, ih]

theorem nestedInExpr?_subset {e : Option Expr} :
    nestedInExpr? e ⊆ es ↔ ∀ x, e = some x → x.nested ⊆ es := by
  cases e <;> simp [nestedInExpr?]

theorem nestedInTy?_subset {ty : Option Ty} :
    nestedInTy? ty ⊆ es ↔ ∀ t, ty = some t → t.nested ⊆ es := by
  cases ty <;> simp [nestedInTy?]

/-! ## Parts -/

theorem Binder.nested_subset {b : Binder} :
    b.nested ⊆ es ↔ (∀ t, b.ty = some t → t.nested ⊆ es) ∧
      ∀ e, b.value = some e → e.nested ⊆ es := by
  obtain ⟨id, names, ty, value, rest⟩ := b
  simp only [nested, List.append_subset, nestedInTy?_subset, nestedInExpr?_subset]

theorem FunctionDef.nested_subset {f : FunctionDef} :
    f.nested ⊆ es ↔ (∀ b ∈ f.inputs, b.nested ⊆ es) ∧ (∀ t, f.output = some t → t.nested ⊆ es) ∧
      ∀ e, f.body = some e → e.nested ⊆ es := by
  obtain ⟨id, names, vars, inputs, output, body⟩ := f
  simp only [nested, List.append_subset, nestedInBinders_subset, nestedInTy?_subset,
    nestedInExpr?_subset, and_assoc]

theorem StructDef.nested_subset {s : StructDef} :
    s.nested ⊆ es ↔ (∀ b ∈ s.inputs, b.nested ⊆ es) ∧ ∀ e, s.block = some e → e.nested ⊆ es := by
  obtain ⟨id, names, vars, inputs, block⟩ := s
  simp only [nested, List.append_subset, nestedInBinders_subset, nestedInExpr?_subset]

theorem TypeInput.nested_subset {i : TypeInput} : i.nested ⊆ es ↔ i.ty.nested ⊆ es := by
  obtain ⟨id, ty⟩ := i
  rfl

theorem Call.nested_subset {c : Call} :
    c.nested ⊆ es ↔ (∀ i ∈ c.typeInputs, i.ty.nested ⊆ es) ∧ c.callee.nested ⊆ es ∧
      ∀ e ∈ c.inputs, e.nested ⊆ es := by
  obtain ⟨id, types, callee, opening, inputs, closing⟩ := c
  simp only [nested, List.append_subset, nestedInTypeInputs_subset, nestedInExprs_subset, and_assoc,
    TypeInput.nested_subset]

/-! ### Members of structures -/

theorem StructDef.nested_statement {s : StructDef} (h : s.nested ⊆ es) {e : Expr}
    (he : e ∈ s.statements) : e.nested ⊆ es := by
  have hblock := (nested_subset.1 h).2
  unfold statements at he
  split at he
  · rename_i id items heq
    have hitems := hblock _ heq
    simp only [Expr.nested, List.cons_subset, nestedInExprs_subset] at hitems
    exact hitems.2 e he
  · rename_i other heq
    rw [List.mem_singleton.1 he]
    exact hblock _ heq
  · exact nomatch he

theorem StructDef.nested_inputNamed {s : StructDef} (h : s.nested ⊆ es) {name : String} {b : Binder}
    (hb : s.inputNamed? name = some b) : b.nested ⊆ es :=
  (nested_subset.1 h).1 b (List.mem_of_find?_eq_some hb)

theorem StructDef.nested_functionNamed {s : StructDef} (h : s.nested ⊆ es) {name : String}
    {f : FunctionDef} (hf : s.functionNamed? name = some f) : f.nested ⊆ es := by
  obtain ⟨e, he, heq⟩ := List.mem_filterMap.1 (List.mem_of_find?_eq_some hf)
  have hwithin := s.nested_statement h he
  split at heq
  · obtain rfl := Option.some.inj heq
    simp only [Expr.nested, List.cons_subset] at hwithin
    exact hwithin.2
  · exact nomatch heq

theorem StructDef.nested_bindNamed {s : StructDef} (h : s.nested ⊆ es) {name : String} {b : Binder}
    (hb : s.bindNamed? name = some b) : b.nested ⊆ es := by
  obtain ⟨e, he, heq⟩ := List.exists_of_findSome?_eq_some hb
  have hwithin := s.nested_statement h he
  split at heq
  · obtain ⟨-, heq⟩ := Option.ite_none_right_eq_some.1 heq
    obtain rfl := Option.some.inj heq
    simp only [Expr.nested, List.cons_subset] at hwithin
    exact hwithin.2
  · exact nomatch heq

/-! ## Names -/

/-- The expressions nested in a definition. -/
def Definition.nested : Definition → List Expr
  | .bind b => b.nested
  | .function f => f.nested
  | .struct s => s.nested
  | .typeVariable _ => []
  | .stream _ ty => ty.nested
  | .host _ ty => ty.nested

/-- All that names stand for is made of the expressions. -/
def Context.Within (ctx : Context) (es : List Expr) : Prop :=
  ∀ name d, ctx.find? name = some d → d.nested ⊆ es

theorem Context.Within.push {ctx : Context} (h : ctx.Within es) {names : List (String × Definition)}
    (hnames : ∀ name d, (name, d) ∈ names → d.nested ⊆ es) : (ctx.push names).Within es := by
  intro name d hd
  unfold Context.find? Context.push at hd
  rw [List.lookup_append] at hd
  cases hl : names.lookup name with
  | some other =>
    rw [hl] at hd
    obtain rfl : other = d := by simpa using hd
    obtain ⟨before, after, rfl, -⟩ := List.lookup_eq_some_iff.1 hl
    exact hnames name other (by simp)
  | none =>
    rw [hl] at hd
    exact h name d (by simpa [find?] using hd)

theorem Context.nested_namedType {ctx : Context} (h : ctx.Within es) (name : String) :
    (ctx.namedType name).nested ⊆ es := by
  unfold namedType
  split
  · rename_i definition heq
    have hd := h name _ heq
    simpa [Ty.nested, nestedInTys, Definition.nested] using hd
  · simp [Ty.nested]
  · simp [Ty.nested]

mutual

theorem Ty.nested_resolveNames {ctx : Context} (hctx : ctx.Within es) : ∀ {ty : Ty},
    ty.nested ⊆ es → (ty.resolveNames ctx).nested ⊆ es
  | .name name, _ => ctx.nested_namedType hctx name
  | .list item, h => @Ty.nested_resolveNames _ hctx item h
  | .function _ inputs output, h => by
    simp only [Ty.nested, List.append_subset] at h
    simp only [Ty.resolveNames, Ty.nested, List.append_subset]
    exact ⟨nested_resolveInBinders hctx h.1, Ty.nested_resolveNames hctx h.2⟩
  | .table columns, h => @nested_resolveInBinders _ hctx columns h
  | .struct _ args, h => by
    simp only [Ty.nested, List.append_subset] at h
    simp only [Ty.resolveNames, Ty.nested, List.append_subset]
    exact ⟨h.1, nested_resolveInTys hctx h.2⟩
  | .structDef _ args, h => by
    simp only [Ty.nested, List.append_subset] at h
    simp only [Ty.resolveNames, Ty.nested, List.append_subset]
    exact ⟨h.1, nested_resolveInTys hctx h.2⟩
  | .union members, h => @nested_resolveInTys _ hctx members h
  | .number _, h | .text _, h | .boolean, h | .var _, h | .any, h | .unknown .., h => h

theorem nested_resolveInTys {ctx : Context} (hctx : ctx.Within es) : ∀ {tys : List Ty},
    nestedInTys tys ⊆ es → nestedInTys (resolveInTys ctx tys) ⊆ es
  | [], h => h
  | t :: rest, h => by
    simp only [nestedInTys, List.append_subset] at h
    simp only [resolveInTys, nestedInTys, List.append_subset]
    exact ⟨Ty.nested_resolveNames hctx h.1, nested_resolveInTys hctx h.2⟩

theorem Binder.nested_resolveNames {ctx : Context} (hctx : ctx.Within es) : ∀ {b : Binder},
    b.nested ⊆ es → (b.resolveNames ctx).nested ⊆ es
  | ⟨_, _, ty, value, _⟩, h => by
    simp only [Binder.nested, List.append_subset] at h
    simp only [Binder.resolveNames, Binder.nested, List.append_subset]
    exact ⟨nested_resolveInTy? hctx h.1, h.2⟩

theorem nested_resolveInBinders {ctx : Context} (hctx : ctx.Within es) : ∀ {bs : List Binder},
    nestedInBinders bs ⊆ es → nestedInBinders (resolveInBinders ctx bs) ⊆ es
  | [], h => h
  | b :: rest, h => by
    simp only [nestedInBinders, List.append_subset] at h
    simp only [resolveInBinders, nestedInBinders, List.append_subset]
    exact ⟨Binder.nested_resolveNames hctx h.1, nested_resolveInBinders hctx h.2⟩

theorem nested_resolveInTy? {ctx : Context} (hctx : ctx.Within es) : ∀ {ty : Option Ty},
    nestedInTy? ty ⊆ es → nestedInTy? (resolveInTy? ctx ty) ⊆ es
  | none, h => h
  | some _, h => Ty.nested_resolveNames hctx h

end

/-! ## Type variables -/

section Substitution

variable {answer : String → Option Ty}

mutual

theorem Ty.nested_substitute (hanswer : ∀ name t, answer name = some t → t.nested ⊆ es) :
    ∀ {ty : Ty}, ty.nested ⊆ es → (ty.substitute answer).nested ⊆ es
  | .var name, h => by
    rw [Ty.substitute_var]
    cases ha : answer name with
    | none => exact h
    | some t => exact hanswer name t ha
  | .list item, h => @Ty.nested_substitute hanswer item h
  | .function _ inputs output, h => by
    simp only [Ty.nested, List.append_subset] at h
    show nestedInBinders _ ++ Ty.nested _ ⊆ es
    rw [List.append_subset]
    exact ⟨nested_substituteInBinders hanswer h.1, Ty.nested_substitute hanswer h.2⟩
  | .table columns, h =>
    @nested_substituteInBinders hanswer columns h
  | .struct definition args, h => by
    simp only [Ty.nested, List.append_subset] at h
    show definition.nested ++ nestedInTys _ ⊆ es
    rw [List.append_subset]
    exact ⟨h.1, nested_substituteInTys hanswer h.2⟩
  | .structDef definition args, h => by
    simp only [Ty.nested, List.append_subset] at h
    show definition.nested ++ nestedInTys _ ⊆ es
    rw [List.append_subset]
    exact ⟨h.1, nested_substituteInTys hanswer h.2⟩
  | .union members, h => @nested_substituteInTys hanswer members h
  | .number _, h | .text _, h | .boolean, h | .name _, h | .any, h | .unknown .., h => h

theorem nested_substituteInTys (hanswer : ∀ name t, answer name = some t → t.nested ⊆ es) :
    ∀ {tys : List Ty}, nestedInTys tys ⊆ es →
      nestedInTys (Id.run (substituteInTysM (fun name => pure (answer name)) tys)) ⊆ es
  | [], h => h
  | t :: rest, h => by
    simp only [nestedInTys, List.append_subset] at h
    show Ty.nested (t.substitute answer) ++ nestedInTys _ ⊆ es
    rw [List.append_subset]
    exact ⟨Ty.nested_substitute hanswer h.1, nested_substituteInTys hanswer h.2⟩

theorem nested_substituteInBinder (hanswer : ∀ name t, answer name = some t → t.nested ⊆ es) :
    ∀ {b : Binder}, b.nested ⊆ es →
      (Id.run (b.substituteM fun name => pure (answer name))).nested ⊆ es
  | ⟨_, _, ty, value, _⟩, h => by
    simp only [Binder.nested, List.append_subset] at h
    show nestedInTy? _ ++ nestedInExpr? value ⊆ es
    rw [List.append_subset]
    exact ⟨nested_substituteInTy? hanswer h.1, h.2⟩

theorem nested_substituteInBinders (hanswer : ∀ name t, answer name = some t → t.nested ⊆ es) :
    ∀ {bs : List Binder}, nestedInBinders bs ⊆ es →
      nestedInBinders (Id.run (substituteInBindersM (fun name => pure (answer name)) bs)) ⊆ es
  | [], h => h
  | b :: rest, h => by
    simp only [nestedInBinders, List.append_subset] at h
    show Binder.nested _ ++ nestedInBinders _ ⊆ es
    rw [List.append_subset]
    exact ⟨nested_substituteInBinder hanswer h.1, nested_substituteInBinders hanswer h.2⟩

theorem nested_substituteInTy? (hanswer : ∀ name t, answer name = some t → t.nested ⊆ es) :
    ∀ {ty : Option Ty}, nestedInTy? ty ⊆ es →
      nestedInTy? (Id.run (substituteInTyM? (fun name => pure (answer name)) ty)) ⊆ es
  | none, h => h
  | some t, h => @Ty.nested_substitute hanswer t h

end

end Substitution

/-! ## Calls -/

theorem nested_argumentValue {e : Expr} (h : e.nested ⊆ es) : (argumentValue e).nested ⊆ es := by
  cases e with
  | bind b =>
    cases hv : b.value with
    | none => simpa [argumentValue, hv] using h
    | some value =>
      simp only [Expr.nested, List.cons_subset] at h
      simpa [argumentValue, hv] using (Binder.nested_subset.1 h.2).2 value hv
  | _ => exact h

theorem nested_plan {inputs : List Binder} {pool : List Expr} {slot : Slot} {value : Expr}
    (hi : ∀ b ∈ inputs, b.nested ⊆ es) (hp : ∀ e ∈ pool, e.nested ⊆ es)
    (hslot : slot ∈ plan inputs pool) (hvalue : value ∈ slot.values) : value.nested ⊆ es := by
  rcases value_of_plan hslot hvalue with ⟨-, input, hinput, heq⟩ | ⟨argument, hmem, rfl⟩
  · exact (Binder.nested_subset.1 (hi input hinput)).2 value heq
  · exact nested_argumentValue (hp argument hmem)

theorem Callee.nested_inputs {ty : Ty} {callee : Callee} (h : ty.nested ⊆ es)
    (hc : Callee.ofTy? ty = some callee) : ∀ b ∈ callee.inputs, b.nested ⊆ es := by
  unfold ofTy? at hc
  split at hc
  · obtain rfl := Option.some.inj hc
    simp only [Ty.nested, List.append_subset, nestedInBinders_subset] at h
    exact h.1
  · obtain rfl := Option.some.inj hc
    simp only [Ty.nested, List.append_subset] at h
    exact (StructDef.nested_subset.1 h.1).1
  · exact nomatch hc

theorem nested_tellingArgument {inputs : List Binder} {given : List Expr} {name : String}
    {value : Expr} {yielding : Bool} (h : ∀ e ∈ given, e.nested ⊆ es)
    (ht : tellingArgument? inputs given name = some (value, yielding)) : value.nested ⊆ es := by
  simp only [tellingArgument?, Option.bind_eq_bind, Option.bind_eq_some_iff] at ht
  obtain ⟨⟨index, y⟩, -, input, -, argument, hargument, hvalue⟩ := ht
  have hmem : argument ∈ given := by
    unfold argumentAt? at hargument
    split at hargument
    · rename_i found heq
      rw [← Option.some.inj hargument]
      exact List.mem_of_find?_eq_some heq
    · obtain ⟨hat, -⟩ := Option.filter_eq_some_iff.1 hargument
      exact List.mem_of_getElem? hat
  have hwithin := nested_argumentValue (h argument hmem)
  split at hvalue
  · exact nomatch hvalue
  · obtain ⟨rfl, -⟩ := Prod.mk.inj (Option.some.inj hvalue)
    exact hwithin

theorem nested_toldType {yielding : Bool} {ty told : Ty} (h : ty.nested ⊆ es)
    (ht : toldType yielding ty = some told) : told.nested ⊆ es := by
  obtain ⟨ht, -⟩ := Option.filter_eq_some_iff.1 ht
  split at ht
  · obtain rfl := Option.some.inj ht
    simp only [Ty.nested, List.append_subset] at h
    exact h.2
  · exact nomatch ht
  · obtain rfl := Option.some.inj ht
    exact h

theorem nested_explicitType {call : Call} {callee : Callee} {name : String} {ty : Ty}
    (h : call.nested ⊆ es) (ht : explicitType? call callee name = some ty) : ty.nested ⊆ es := by
  simp only [explicitType?, Option.bind_eq_bind, Option.bind_eq_some_iff] at ht
  obtain ⟨index, -, input, hinput, ht⟩ := ht
  obtain rfl := Option.some.inj ht
  exact (Call.nested_subset.1 h).1 input (List.mem_of_getElem? hinput)

theorem StructDef.nested_argumentFor {s : StructDef} {args : List Ty} {name : String} {ty : Ty}
    (h : ∀ t ∈ args, t.nested ⊆ es) (ht : s.argumentFor? args name = some ty) : ty.nested ⊆ es := by
  unfold argumentFor? at ht
  split at ht
  · exact h ty (List.mem_of_getElem? ht)
  · exact nomatch ht

theorem Ty.nested_supplied {receiver : Ty} {name : String} {ty : Ty} (h : receiver.nested ⊆ es)
    (ht : receiver.supplied? name = some ty) : ty.nested ⊆ es := by
  unfold supplied? at ht
  split at ht
  · obtain ⟨-, ht⟩ := Option.ite_none_right_eq_some.1 ht
    obtain rfl := Option.some.inj ht
    exact h
  · simp only [nested, List.append_subset, nestedInTys_subset] at h
    exact StructDef.nested_argumentFor h.2 ht
  · exact nomatch ht

end Within

/-! ## Declarations -/

section Declarations

variable {es : List Expr} {declarations : List (String × Definition)}

/-- All that these names stand for is made of the expressions. -/
def DeclaresWithin (declarations : List (String × Definition)) (es : List Expr) : Prop :=
  ∀ d ∈ declarations, d.2.nested ⊆ es

theorem declaresWithin_nil : DeclaresWithin [] es :=
  fun _ hd => nomatch hd

theorem DeclaresWithin.append {others : List (String × Definition)}
    (h : DeclaresWithin declarations es) (h' : DeclaresWithin others es) :
    DeclaresWithin (declarations ++ others) es :=
  fun d hd => (List.mem_append.1 hd).elim (h d) (h' d)

theorem declaresWithin_pairAliases {aliases : List String} {definition : Definition}
    (h : definition.nested ⊆ es) : DeclaresWithin (pairAliases aliases definition) es := by
  intro d hd
  obtain ⟨name, -, rfl⟩ := List.mem_map.1 hd
  exact h

theorem declaresWithin_typeVariables (vars : List TypeVariable) :
    DeclaresWithin (declarationsOfTypeVariables vars) es := by
  intro d hd
  obtain ⟨v, -, rfl⟩ := List.mem_map.1 hd
  exact List.nil_subset es

mutual

/-- The definitions that an expression declares are nested in it. -/
theorem Expr.declares_within : ∀ {e : Expr}, e.nested ⊆ es → DeclaresWithin e.declarations es := by
  intro e he
  unfold Expr.declarations
  cases e with
  | bind b =>
    simp only [Expr.nested, List.cons_subset] at he
    exact Binder.declares_within he.2
  | function f =>
    simp only [Expr.nested, List.cons_subset] at he
    exact FunctionDef.declares_within he.2
  | struct s =>
    simp only [Expr.nested, List.cons_subset] at he
    exact StructDef.declares_within he.2
  | call c =>
    simp only [Expr.nested, List.cons_subset] at he
    exact Call.declares_within he.2
  | list id opening items closing =>
    simp only [Expr.nested, List.cons_subset] at he
    exact declaresWithin_exprs he.2
  | conditional id condition question yes no =>
    simp only [Expr.nested, List.cons_subset, List.append_subset] at he
    exact ((Expr.declares_within he.2.1.1).append (Expr.declares_within he.2.1.2)).append
      (Expr.declares_within he.2.2)
  | delete id table mark query =>
    simp only [Expr.nested, List.cons_subset, List.append_subset] at he
    exact (Expr.declares_within he.2.1).append (Expr.declares_within he.2.2)
  | insert id table mark cells =>
    simp only [Expr.nested, List.cons_subset, List.append_subset] at he
    exact Expr.declares_within he.2.1
  | access id subject dot name =>
    simp only [Expr.nested, List.cons_subset] at he
    exact Expr.declares_within he.2
  | binary id left mark op right =>
    simp only [Expr.nested, List.cons_subset, List.append_subset] at he
    exact (Expr.declares_within he.2.1).append (Expr.declares_within he.2.2)
  | unary id mark op operand =>
    simp only [Expr.nested, List.cons_subset] at he
    exact Expr.declares_within he.2
  | block id statements =>
    simp only [Expr.nested, List.cons_subset] at he
    exact declaresWithin_exprs he.2
  | boolean | number | text | reference | unparsable => exact declaresWithin_nil

theorem declaresWithin_exprs : ∀ {items : List Expr}, nestedInExprs items ⊆ es →
    DeclaresWithin (declarationsOfExprs items) es
  | [], _ => declaresWithin_nil
  | e :: rest, h => by
    simp only [nestedInExprs, List.append_subset] at h
    exact (Expr.declares_within h.1).append (declaresWithin_exprs h.2)

theorem declaresWithin_expr? : ∀ {e : Option Expr}, nestedInExpr? e ⊆ es →
    DeclaresWithin (declarationsOfExpr? e) es
  | none, _ => declaresWithin_nil
  | some _, h => Expr.declares_within h

theorem Call.declares_within : ∀ {c : Call}, c.nested ⊆ es → DeclaresWithin c.declarations es
  | ⟨_, types, callee, _, inputs, _⟩, h => by
    simp only [Call.nested, List.append_subset] at h
    exact (Expr.declares_within h.1.2).append (declaresWithin_arguments h.2)

theorem declaresWithin_arguments : ∀ {arguments : List Expr}, nestedInExprs arguments ⊆ es →
    DeclaresWithin (declarationsOfArguments arguments) es
  | [], _ => declaresWithin_nil
  | e :: rest, h => by
    simp only [nestedInExprs, List.append_subset] at h
    have hrest := declaresWithin_arguments h.2
    cases e with
    | bind b =>
      obtain ⟨id, names, ty, value, collects⟩ := b
      simp only [Expr.nested, Binder.nested, List.cons_subset, List.append_subset] at h
      exact (declaresWithin_expr? h.1.2.2).append hrest
    | _ => exact (Expr.declares_within h.1).append hrest

theorem Binder.declares_within : ∀ {b : Binder}, b.nested ⊆ es → DeclaresWithin b.declarations es
  | ⟨_, _, ty, value, _⟩, h => by
    have hvalue := h
    simp only [Binder.nested, List.append_subset] at hvalue
    exact (declaresWithin_pairAliases h).append (declaresWithin_expr? hvalue.2)

theorem declaresWithin_binders : ∀ {bs : List Binder}, nestedInBinders bs ⊆ es →
    DeclaresWithin (declarationsOfBinders bs) es
  | [], _ => declaresWithin_nil
  | b :: rest, h => by
    simp only [nestedInBinders, List.append_subset] at h
    exact (Binder.declares_within h.1).append (declaresWithin_binders h.2)

theorem FunctionDef.declares_within : ∀ {f : FunctionDef}, f.nested ⊆ es →
    DeclaresWithin f.declarations es
  | ⟨_, _, vars, inputs, output, body⟩, h => by
    have hparts := h
    simp only [FunctionDef.nested, List.append_subset] at hparts
    exact (((declaresWithin_pairAliases h).append (declaresWithin_typeVariables vars)).append
      (declaresWithin_binders hparts.1.1)).append (declaresWithin_expr? hparts.2)

theorem StructDef.declares_within : ∀ {s : StructDef}, s.nested ⊆ es →
    DeclaresWithin s.declarations es
  | ⟨_, _, vars, inputs, block⟩, h => by
    have hparts := h
    simp only [StructDef.nested, List.append_subset] at hparts
    exact (((declaresWithin_pairAliases h).append (declaresWithin_typeVariables vars)).append
      (declaresWithin_binders hparts.1)).append (declaresWithin_expr? hparts.2)

end

end Declarations

/-- What the names of a program stand for is nested in it. -/
theorem Lexicon.find?_ofExpr_nested {root : Expr} {name : String} {d : Definition}
    (h : (Lexicon.ofExpr root).find? name = some d) : d.nested ⊆ root.nested := by
  rw [Lexicon.ofExpr, Lexicon.find?_defineAll, Lexicon.find?_empty, Option.none_or] at h
  obtain ⟨before, after, heq, -⟩ := List.lookup_eq_some_iff.1 h
  exact Expr.declares_within (List.Subset.refl root.nested) (name, d) (by simp [heq])

end Stepwise

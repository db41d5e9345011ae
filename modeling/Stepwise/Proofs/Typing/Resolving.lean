import Stepwise.Proofs.Sample
import Stepwise.Proofs.Typing.Unions

/-!
# When names are resolved

A comparison of types resolves written names on the way, after type variables and unions have been
looked at.  Callers may have resolved them before, in one of the types or in both.  This makes no
difference for types that stand for something (`Ty.Settled`): whose names stand for structures or
type variables, whose unions have members and whose columns have written types.

Names in the types of columns and inputs are resolved by every comparison, so for these it is enough
that resolving twice is resolving once (`Ty.resolveNames_resolveNames`).  Elsewhere the relation is
followed through both types at once (`Ty.admits_resolveNames`).  A name that stands for a type
variable goes with every type once it is resolved.  Before that it is compared with the members of a
union one by one, and there has to be one.
-/

namespace Stepwise

open Query Comparison

/-! ## Resolving twice -/

section Twice

variable (ctx : Context)

theorem Context.resolveNames_namedType (name : String) :
    (ctx.namedType name).resolveNames ctx = ctx.namedType name := by
  rcases ctx.namedType_cases name with ⟨definition, h⟩ | ⟨v, h⟩ | h
  · rw [h]
    rfl
  · rw [h]
    rfl
  · rw [h]
    exact h

mutual

/-- Names that have been resolved stay as they are. -/
theorem Ty.resolveNames_resolveNames :
    ∀ t : Ty, (t.resolveNames ctx).resolveNames ctx = t.resolveNames ctx
  | .name name => ctx.resolveNames_namedType name
  | .list item => by simp only [Ty.resolveNames, Ty.resolveNames_resolveNames item]
  | .function _ inputs output => by
    simp only [Ty.resolveNames, resolveInBinders_twice inputs, Ty.resolveNames_resolveNames output]
  | .table columns => by simp only [Ty.resolveNames, resolveInBinders_twice columns]
  | .struct _ args => by simp only [Ty.resolveNames, resolveInTys_twice args]
  | .structDef _ args => by simp only [Ty.resolveNames, resolveInTys_twice args]
  | .union members => by simp only [Ty.resolveNames, resolveInTys_twice members]
  | .number _ | .text _ | .boolean | .var _ | .any | .unknown .. => rfl

theorem resolveInTys_twice :
    ∀ ts : List Ty, resolveInTys ctx (resolveInTys ctx ts) = resolveInTys ctx ts
  | [] => rfl
  | t :: rest => by
    simp only [resolveInTys, Ty.resolveNames_resolveNames t, resolveInTys_twice rest]

theorem Binder.resolveNames_resolveNames :
    ∀ b : Binder, (b.resolveNames ctx).resolveNames ctx = b.resolveNames ctx
  | ⟨_, _, none, _, _⟩ => rfl
  | ⟨_, _, some t, _, _⟩ => by
    simp only [Binder.resolveNames, resolveInTy?, Ty.resolveNames_resolveNames t]

theorem resolveInBinders_twice :
    ∀ bs : List Binder, resolveInBinders ctx (resolveInBinders ctx bs) = resolveInBinders ctx bs
  | [] => rfl
  | b :: rest => by
    simp only [resolveInBinders, Binder.resolveNames_resolveNames b, resolveInBinders_twice rest]

end

end Twice

/-! ## What resolving leaves as it is -/

section Kept

variable {ctx : Context}

theorem resolveInTys_eq_map (ts : List Ty) :
    resolveInTys ctx ts = ts.map (·.resolveNames ctx) := by
  induction ts with
  | nil => rfl
  | cons t rest ih => rw [resolveInTys, ih, List.map_cons]

theorem Ty.isOpen_resolveNames {t : Ty} (h : t.isOpen = true) :
    (t.resolveNames ctx).isOpen = true := by
  cases t with
  | var => rfl
  | any => rfl
  | _ => cases h

theorem Ty.isUnknown_resolveNames (t : Ty) : (t.resolveNames ctx).isUnknown = t.isUnknown := by
  cases t with
  | name name =>
    rcases ctx.namedType_cases name with ⟨definition, h⟩ | ⟨v, h⟩ | h <;>
      simp [Ty.resolveNames, h, Ty.isUnknown]
  | _ => rfl

@[simp] theorem Binder.resolveNames_rest (b : Binder) : (b.resolveNames ctx).rest = b.rest := by
  obtain ⟨id, names, ty, value, rest⟩ := b
  rfl

@[simp] theorem Binder.hasDefault_resolveNames (b : Binder) :
    (b.resolveNames ctx).hasDefault = b.hasDefault := by
  obtain ⟨id, names, ty, value, rest⟩ := b
  rfl

theorem Binder.sharesName_resolveNames (b other : Binder) :
    (b.resolveNames ctx).sharesName (other.resolveNames ctx) = b.sharesName other := by
  unfold sharesName hasName aliases
  rw [resolveNames_names, resolveNames_names]

/-- A comparison takes the type of a column with its names resolved in any case. -/
theorem Binder.writtenTy_resolveNames (b : Binder) :
    (b.resolveNames ctx).writtenTy? ctx = b.writtenTy? ctx := by
  unfold writtenTy?
  rw [resolveNames_ty, resolveNames_rest, Option.map_map]
  simp only [Function.comp_def, Ty.resolveNames_resolveNames]

theorem find?_sharesName_resolveNames (others : List Binder) (column : Binder) :
    (others.map (·.resolveNames ctx)).find? (column.resolveNames ctx).sharesName =
      (others.find? column.sharesName).map (·.resolveNames ctx) := by
  rw [List.find?_map]
  simp only [Function.comp_def, Binder.sharesName_resolveNames]

end Kept

/-! ## Types that stand for something -/

/-- Whether the name stands for a structure or a type variable. -/
def Context.namesType (ctx : Context) (name : String) : Bool :=
  match ctx.find? name with
  | some (.struct _) => true
  | some (.typeVariable _) => true
  | _ => false

/-- If the type is a name then it stands for a structure or a type variable. -/
def Ty.nameStands (ctx : Context) : Ty → Bool
  | .name written => ctx.namesType written
  | _ => true

/-- If the type is a union then it has members. -/
def Ty.hasMembers : Ty → Bool
  | .union members => !members.isEmpty
  | _ => true

/-- The written names in the type stand for structures or type variables, its unions have members,
and its table columns have written types. -/
structure Ty.Settled (ctx : Context) (t : Ty) : Prop where
  names : t.Throughout (·.nameStands ctx)
  members : t.Throughout (·.hasMembers)
  written : t.Written

section Settled

variable {ctx : Context} {t : Ty}

theorem Context.isName_namedType {name : String} (h : ctx.namesType name = true) :
    (ctx.namedType name).isName = false := by
  unfold namesType at h
  unfold namedType
  cases hfound : ctx.find? name with
  | none =>
    rw [hfound] at h
    cases h
  | some declared =>
    rw [hfound] at h
    cases declared with
    | struct | typeVariable => rfl
    | _ => cases h

theorem Ty.isName_resolveNames (h : t.nameStands ctx = true) :
    (t.resolveNames ctx).isName = false := by
  cases t with
  | name name => exact ctx.isName_namedType h
  | _ => rfl

theorem Ty.nameStands_of_not_isName (h : t.isName = false) : t.nameStands ctx = true := by
  cases t with
  | name => cases h
  | _ => rfl

theorem Ty.hasMembers_resolveNames (h : t.hasMembers = true) :
    (t.resolveNames ctx).hasMembers = true := by
  cases t with
  | name name =>
    rcases ctx.namedType_cases name with ⟨definition, h⟩ | ⟨v, h⟩ | h <;>
      simp [Ty.resolveNames, h, Ty.hasMembers]
  | union members =>
    simpa [Ty.resolveNames, Ty.hasMembers, resolveInTys_eq_map] using h
  | _ => rfl

theorem Ty.Settled.resolveNames (h : t.Settled ctx) : (t.resolveNames ctx).Settled ctx where
  names := h.names.resolveNames fun _ hpart => nameStands_of_not_isName (isName_resolveNames hpart)
  members := h.members.resolveNames fun _ hpart => hasMembers_resolveNames hpart
  written := h.written.resolveNames

theorem Ty.Settled.item (h : (Ty.list t).Settled ctx) : t.Settled ctx :=
  ⟨h.names.item, h.members.item, Throughout.item h.written⟩

theorem Ty.Settled.member {ms : List Ty} (h : (Ty.union ms).Settled ctx) (ht : t ∈ ms) :
    t.Settled ctx :=
  ⟨h.names.member ht, h.members.member ht, Throughout.member h.written ht⟩

theorem Ty.Settled.output {vars : List TypeVariable} {inputs : List Binder}
    (h : (Ty.function vars inputs t).Settled ctx) : t.Settled ctx :=
  ⟨h.names.output, h.members.output, Throughout.output h.written⟩

theorem Ty.Settled.exists_mem {ms : List Ty} (h : (Ty.union ms).Settled ctx) : ∃ m, m ∈ ms := by
  cases ms with
  | nil => cases h.members.self
  | cons m rest => exact ⟨m, List.mem_cons_self ..⟩

end Settled

/-! ## Unions -/

section Union

variable {ctx : Context} {a b : Ty} {ms : List Ty}

theorem Ty.admits_union_iff : a.Admits ctx (.union ms) ↔ ∀ m ∈ ms, a.Admits ctx m :=
  ⟨fun h _ hm => h.of_union hm, .members⟩

/-- A union with members admits what is no union itself if one of its members does. -/
theorem Ty.union_admits_iff (hms : ∃ m, m ∈ ms) (hb : (b.isSingle || b.isOpen) = true) :
    (Ty.union ms).Admits ctx b ↔ ∃ m ∈ ms, m.Admits ctx b := by
  refine ⟨fun h => ?_, fun ⟨m, hm, h⟩ => h.union hm⟩
  cases h with
  | opened h =>
    obtain ⟨m, hm⟩ := hms
    refine ⟨m, hm, .opened ?_⟩
    rw [show b.isOpen = true from h, Bool.or_true]
  | members => cases hb
  | alternative _ hm h => exact ⟨_, hm, h⟩
  | named hsingle => cases hsingle.1

/-- Nothing resolves to a union but a union. -/
theorem Ty.isSingle_resolveNames (h : b.isSingle = true) :
    ((b.resolveNames ctx).isSingle || (b.resolveNames ctx).isOpen) = true := by
  cases b with
  | name name =>
    rcases ctx.namedType_cases name with ⟨definition, h⟩ | ⟨v, h⟩ | h <;>
      simp [Ty.resolveNames, h, Ty.isSingle, Ty.isOpen]
  | union => cases h
  | var => cases h
  | any => cases h
  | _ => rfl

end Union

/-! ## Types of the same form -/

/-- A type that is no name, and what it is with its names resolved. -/
inductive Ty.Resolves (ctx : Context) : Ty → Ty → Prop where
  | function (vars : List TypeVariable) (inputs : List Binder) (output : Ty) :
      Resolves ctx (.function vars inputs output)
        (.function vars (inputs.map (·.resolveNames ctx)) (output.resolveNames ctx))
  | list (item : Ty) : Resolves ctx (.list item) (.list (item.resolveNames ctx))
  | table (columns : List Binder) :
      Resolves ctx (.table columns) (.table (columns.map (·.resolveNames ctx)))
  | number (unit : NumberUnit) : Resolves ctx (.number unit) (.number unit)
  | text (language : Option String) : Resolves ctx (.text language) (.text language)
  | boolean : Resolves ctx .boolean .boolean
  | struct (definition : StructDef) (args : List Ty) :
      Resolves ctx (.struct definition args) (.struct definition (resolveInTys ctx args))
  | structDef (definition : StructDef) (args : List Ty) :
      Resolves ctx (.structDef definition args) (.structDef definition (resolveInTys ctx args))
  | unknown (reason : UnknownReason) (node : Option NodeId) :
      Resolves ctx (.unknown reason node) (.unknown reason node)

section Forms

variable {ctx : Context} {a b : Ty}

theorem Ty.resolves (hsingle : a.isSingle = true) (hname : a.isName = false) :
    a.Resolves ctx (a.resolveNames ctx) := by
  cases a with
  | function vars inputs output =>
    rw [Ty.resolveNames, resolveInBinders_eq_map]
    exact .function vars inputs output
  | table columns =>
    rw [Ty.resolveNames, resolveInBinders_eq_map]
    exact .table columns
  | list item => exact .list item
  | number unit => exact .number unit
  | text language => exact .text language
  | boolean => exact .boolean
  | struct definition args => exact .struct definition args
  | structDef definition args => exact .structDef definition args
  | unknown reason node => exact .unknown reason node
  | name => cases hname
  | var => cases hsingle
  | union => cases hsingle
  | any => cases hsingle

theorem Ty.isOpen_of_isSingle (h : a.isSingle = true) : a.isOpen = false := by
  cases a with
  | var => cases h
  | any => cases h
  | _ => rfl

theorem Ty.Resolves.isOpen (h : a.Resolves ctx b) : b.isOpen = false := by
  cases h <;> rfl

theorem Ty.Resolves.isName (h : a.Resolves ctx b) : b.isName = false := by
  cases h <;> rfl

/-- Names that stand for something are compared as what they stand for. -/
theorem Ty.admits_named_iff (hsingle : a.isSingle = true ∧ b.isSingle = true)
    (hname : (a.isName || b.isName) = true)
    (hresolved : (a.resolveNames ctx).isName = false ∧ (b.resolveNames ctx).isName = false) :
    a.Admits ctx b ↔ (a.resolveNames ctx).Admits ctx (b.resolveNames ctx) := by
  refine ⟨fun h => ?_, .named hsingle hname hresolved⟩
  cases h with
  | named _ _ _ h => exact h
  | opened h =>
    refine .opened ?_
    rcases Bool.or_eq_true_iff.1 h with h | h <;> simp [isOpen_resolveNames h]
  | members => cases hsingle.2
  | alternative => cases hsingle.1
  | sameName h =>
    rw [Ty.resolveNames, h] at hresolved
    cases hresolved.1
  | boolean => exact .boolean
  | text language language' => exact .text language language'
  | number h => exact .number h
  | unknownItem => cases hname
  | item => cases hname
  | table => cases hname
  | function => cases hname
  | struct => cases hname
  | structDef => cases hname

theorem Ty.admits_table_iff {columns others : List Binder} :
    (Ty.table columns).Admits ctx (.table others) ↔ columns.length = others.length ∧
      ∀ column ∈ columns, ∃ other, others.find? column.sharesName = some other ∧
        ∀ x y, column.writtenTy? ctx = some x → other.writtenTy? ctx = some y →
          x.Admits ctx y := by
  constructor
  · intro h
    cases h with
    | table hlength hfound h =>
      refine ⟨hlength, fun column hcolumn => ?_⟩
      obtain ⟨other, hother⟩ := Option.isSome_iff_exists.1 (hfound column hcolumn)
      exact ⟨other, hother, fun x y => h column other x y hcolumn hother⟩
    | opened h => cases h
    | named _ hname => cases hname
  · rintro ⟨hlength, h⟩
    refine .table hlength (fun column hcolumn => ?_) fun column other x y hcolumn hother => ?_
    · obtain ⟨other, hother, -⟩ := h column hcolumn
      rw [hother]
      rfl
    · obtain ⟨found, hfound, h⟩ := h column hcolumn
      rw [hother] at hfound
      obtain rfl := Option.some.inj hfound
      exact h x y

theorem Ty.admits_function_iff {vars vars' : List TypeVariable} {inputs inputs' : List Binder}
    {output output' : Ty} :
    (Ty.function vars inputs output).Admits ctx (.function vars' inputs' output') ↔
      output.Admits ctx output' ∧ inputs.length = inputs'.length ∧
      ∀ pair ∈ inputs.zip inputs',
        (pair.1.rest = pair.2.rest ∧ pair.1.hasDefault = pair.2.hasDefault) ∧
        ∀ s t, pair.1.ty = some s → pair.2.ty = some t →
          (s.resolveNames ctx).Admits ctx (t.resolveNames ctx) := by
  constructor
  · intro h
    cases h with
    | function houtput hlength hfacets h =>
      exact ⟨houtput, hlength, fun pair hpair =>
        ⟨hfacets pair.1 pair.2 hpair, fun s t => h pair.1 pair.2 s t hpair⟩⟩
    | opened h => cases h
    | named _ hname => cases hname
  · rintro ⟨houtput, hlength, h⟩
    exact .function houtput hlength (fun x y hpair => (h (x, y) hpair).1)
      fun x y s t hpair => (h (x, y) hpair).2 s t

/-- The types of columns are compared with their names resolved. -/
theorem Ty.admits_tables_resolved {columns others : List Binder} :
    (Ty.table (columns.map (·.resolveNames ctx))).Admits ctx
        (.table (others.map (·.resolveNames ctx))) ↔
      (Ty.table columns).Admits ctx (.table others) := by
  rw [admits_table_iff, admits_table_iff, List.length_map, List.length_map, List.forall_mem_map]
  refine and_congr_right fun _ => forall₂_congr fun column _ => ?_
  rw [find?_sharesName_resolveNames]
  simp only [Option.map_eq_some_iff, exists_exists_and_eq_and, Binder.writtenTy_resolveNames]

/-- The types of inputs are compared with their names resolved. -/
theorem Ty.admits_functions_resolved {vars vars' : List TypeVariable}
    {inputs inputs' : List Binder} {output output' : Ty}
    (h : output.Admits ctx output' ↔
      (output.resolveNames ctx).Admits ctx (output'.resolveNames ctx)) :
    (Ty.function vars (inputs.map (·.resolveNames ctx)) (output.resolveNames ctx)).Admits ctx
        (.function vars' (inputs'.map (·.resolveNames ctx)) (output'.resolveNames ctx)) ↔
      (Ty.function vars inputs output).Admits ctx (.function vars' inputs' output') := by
  rw [admits_function_iff, admits_function_iff, h, List.length_map, List.length_map,
    List.zip_map, List.forall_mem_map]
  refine and_congr_right fun _ => and_congr_right fun _ => forall₂_congr fun pair _ => ?_
  simp only [Prod.map, Binder.resolveNames_rest, Binder.hasDefault_resolveNames,
    Binder.resolveNames_ty]
  refine and_congr_right fun _ => ?_
  cases pair.1.ty <;> cases pair.2.ty <;> simp [resolveNames_resolveNames]

/-- What the types are made of is compared in the same way once its names are resolved. -/
structure Ty.PartsAgree (ctx : Context) (a b : Ty) : Prop where
  items : ∀ x y, a = .list x → b = .list y →
    (x.Admits ctx y ↔ (x.resolveNames ctx).Admits ctx (y.resolveNames ctx))
  outputs : ∀ vars inputs x vars' inputs' y, a = .function vars inputs x →
    b = .function vars' inputs' y →
      (x.Admits ctx y ↔ (x.resolveNames ctx).Admits ctx (y.resolveNames ctx))

/-- What is admitted by its form is admitted once the names in both types are resolved. -/
theorem Ty.Admits.resolved (h : a.Admits ctx b) (ha : a.isSingle = true ∧ a.isName = false)
    (hb : b.isSingle = true ∧ b.isName = false) (hparts : a.PartsAgree ctx b) :
    (a.resolveNames ctx).Admits ctx (b.resolveNames ctx) := by
  cases h with
  | boolean => exact .boolean
  | text language language' => exact .text language language'
  | number h => exact .number h
  | unknownItem h =>
    refine .unknownItem ?_
    rwa [isUnknown_resolveNames, isUnknown_resolveNames]
  | item h => exact .item ((hparts.items _ _ rfl rfl).1 h)
  | table hlength hfound h =>
    rw [Ty.resolveNames, Ty.resolveNames, resolveInBinders_eq_map, resolveInBinders_eq_map]
    exact admits_tables_resolved.2 (.table hlength hfound h)
  | function houtput hlength hfacets h =>
    rw [Ty.resolveNames, Ty.resolveNames, resolveInBinders_eq_map, resolveInBinders_eq_map]
    have houtputs := hparts.outputs _ _ _ _ _ _ rfl rfl
    exact (admits_functions_resolved houtputs).2 (.function houtput hlength hfacets h)
  | struct h => exact .struct h
  | structDef h => exact .structDef h
  | opened h =>
    rw [isOpen_of_isSingle ha.1, isOpen_of_isSingle hb.1] at h
    cases h
  | members => cases hb.1
  | alternative => cases ha.1
  | sameName => cases ha.2
  | named _ hname =>
    rw [ha.2, hb.2] at hname
    cases hname

/-- What is admitted once names are resolved has been admitted, since a type of one form has been
resolved from one of the same form. -/
theorem Ty.Resolves.admits {a' b' : Ty} (ha : a.Resolves ctx a') (hb : b.Resolves ctx b')
    (hparts : a.PartsAgree ctx b) (h : a'.Admits ctx b') : a.Admits ctx b := by
  cases h with
  | boolean => cases ha; cases hb; exact .boolean
  | text language language' => cases ha; cases hb; exact .text language language'
  | number h => cases ha; cases hb; exact .number h
  | unknownItem h =>
    cases ha
    cases hb
    rw [isUnknown_resolveNames, isUnknown_resolveNames] at h
    exact .unknownItem h
  | item h => cases ha; cases hb; exact .item ((hparts.items _ _ rfl rfl).2 h)
  | table hlength hfound h =>
    cases ha
    cases hb
    exact admits_tables_resolved.1 (.table hlength hfound h)
  | function houtput hlength hfacets h =>
    cases ha
    cases hb
    have houtputs := hparts.outputs _ _ _ _ _ _ rfl rfl
    exact (admits_functions_resolved houtputs).1 (.function houtput hlength hfacets h)
  | struct h => cases ha; cases hb; exact .struct h
  | structDef h => cases ha; cases hb; exact .structDef h
  | opened h =>
    rw [ha.isOpen, hb.isOpen] at h
    cases h
  | members => cases hb
  | alternative => cases ha
  | sameName => cases ha
  | named _ hname =>
    rw [ha.isName, hb.isName] at hname
    cases hname

end Forms

/-! ## Comparisons before and after -/

section Comparison

variable {ctx : Context} {a b : Ty}

/-- A type is admitted if it is once the names in both types are resolved. -/
theorem Ty.admits_resolveNames (ha : a.Settled ctx) (hb : b.Settled ctx) :
    a.Admits ctx b ↔ (a.resolveNames ctx).Admits ctx (b.resolveNames ctx) := by
  induction hheight : a.height + b.height using Nat.strongRecOn generalizing a b with
  | ind height ih =>
    subst hheight
    rcases a.compared b with hopen | ⟨-, ms, rfl⟩ | ⟨hsingle, ms, rfl⟩ | ⟨hsingle, hname⟩ |
      ⟨hsingle, hname⟩
    · refine iff_of_true (.opened hopen) (.opened ?_)
      rcases Bool.or_eq_true_iff.1 hopen with h | h <;> simp [isOpen_resolveNames h]
    · rw [Ty.resolveNames, resolveInTys_eq_map, admits_union_iff, admits_union_iff,
        List.forall_mem_map]
      exact forall₂_congr fun m hm =>
        ih _ (Nat.add_lt_add_left (height_lt_union hm) _) ha (hb.member hm) rfl
    · have hmembers := ha.exists_mem
      have hresolved : ∃ m, m ∈ ms.map (·.resolveNames ctx) :=
        hmembers.elim fun m hm => ⟨_, List.mem_map_of_mem hm⟩
      rw [union_admits_iff hmembers (by rw [hsingle, Bool.true_or]), Ty.resolveNames,
        resolveInTys_eq_map, union_admits_iff hresolved (isSingle_resolveNames hsingle)]
      simp only [List.mem_map, exists_exists_and_eq_and]
      exact exists_congr fun m => and_congr_right fun hm =>
        ih _ (Nat.add_lt_add_right (height_lt_union hm) _) (ha.member hm) hb rfl
    · exact admits_named_iff hsingle hname
        ⟨isName_resolveNames ha.names.self, isName_resolveNames hb.names.self⟩
    · obtain ⟨hna, hnb⟩ := Bool.or_eq_false_iff.1 hname
      have hparts : a.PartsAgree ctx b := by
        refine ⟨?_, ?_⟩
        · rintro x y rfl rfl
          exact ih _ (by simp only [Ty.height]; omega) ha.item hb.item rfl
        · rintro vars inputs x vars' inputs' y rfl rfl
          have hlt := height_lt_function_output vars inputs x
          have hlt' := height_lt_function_output vars' inputs' y
          exact ih _ (by omega) ha.output hb.output rfl
      exact ⟨fun h => h.resolved ⟨hsingle.1, hna⟩ ⟨hsingle.2, hnb⟩ hparts,
        (resolves hsingle.1 hna).admits (resolves hsingle.2 hnb) hparts⟩

/-- The answer to a comparison of written types is whether the type is admitted. -/
theorem Ty.Written.gives_accepts {answer : Bool} (ha : a.Written) (hb : b.Written)
    (hanswer : answer = true ↔ a.Admits ctx b) (memo : Memo) :
    Gives (fun n => a.accepts n b) ctx memo answer memo := by
  obtain ⟨r, hsays, hiff⟩ := a.says_accepts_iff
    (Expr.typeOf (a.height + b.height)) ha hb (Nat.le_refl _)
  obtain rfl : r = answer := Bool.eq_iff_iff.2 (hiff.trans hanswer.symm)
  exact ⟨_, hsays memo⟩

/-- Whether names are resolved before a comparison, in one of the types or in both, makes no
difference for settled types: in every state there is an answer, and it is the same.  Resolving the
names in a type that has been resolved leaves it as it is, whatever the type. -/
theorem Ty.accepts_resolveNames (ctx : Context) :
    (∀ a b : Ty, a.Settled ctx → b.Settled ctx → ∃ answer, ∀ memo,
      Gives (fun n => a.accepts n b) ctx memo answer memo ∧
      Gives (fun n => (a.resolveNames ctx).accepts n (b.resolveNames ctx)) ctx memo answer memo ∧
      Gives (fun n => (a.resolveNames ctx).accepts n b) ctx memo answer memo ∧
      Gives (fun n => a.accepts n (b.resolveNames ctx)) ctx memo answer memo) ∧
    ∀ t : Ty, (t.resolveNames ctx).resolveNames ctx = t.resolveNames ctx := by
  refine ⟨fun a b ha hb => ?_, resolveNames_resolveNames ctx⟩
  obtain ⟨answer, hanswer⟩ : ∃ answer : Bool, answer = true ↔ a.Admits ctx b := by
    classical exact ⟨decide (a.Admits ctx b), decide_eq_true_iff⟩
  have hra := ha.resolveNames
  have hrb := hb.resolveNames
  -- resolving one side more than once adds nothing, so each case comes down to the first one
  have hboth : answer = true ↔ (a.resolveNames ctx).Admits ctx (b.resolveNames ctx) :=
    hanswer.trans (admits_resolveNames ha hb)
  have hexpected : answer = true ↔ (a.resolveNames ctx).Admits ctx b := by
    rw [admits_resolveNames hra hb, resolveNames_resolveNames]
    exact hboth
  have hgiven : answer = true ↔ a.Admits ctx (b.resolveNames ctx) := by
    rw [admits_resolveNames ha hrb, resolveNames_resolveNames]
    exact hboth
  exact ⟨answer, fun memo =>
    ⟨ha.written.gives_accepts hb.written hanswer memo,
      hra.written.gives_accepts hrb.written hboth memo,
      hra.written.gives_accepts hb.written hexpected memo,
      ha.written.gives_accepts hrb.written hgiven memo⟩⟩

end Comparison

namespace NamedItem

/-- A structure `S` with a type parameter `T`. -/
def container : StructDef :=
  ⟨⟨1⟩, [nameOf "S"], [⟨⟨2⟩, nameOf "T"⟩], [], none⟩

def context : Context :=
  { lexicon := Program.lexicon ⟨.block ⟨0⟩ [.struct container]⟩ }

/-- Lists of what the name stands for, or truth values. -/
def expected (name : String) : Ty :=
  .union [.boolean, .list (.name name)]

/-- Tables of one column, whose type is a list of what the name stands for. -/
def table (name : String) : Ty :=
  .table [binderOf 3 "x" (some (.list (.name name))) none]

/-- A list of instances is accepted where a list of the type parameter is expected as an
alternative, and a table with a column of lists of them where the column has the type parameter. -/
theorem accepted_resolved :
    Gives (fun n => ((expected "T").resolveNames context).accepts n (.list (.name "S"))) context
      .empty true .empty ∧
    Gives (fun n => (table "T").accepts n ((table "S").resolveNames context)) context
      .empty true .empty := by
  obtain ⟨answer, h⟩ := (Ty.accepts_resolveNames context).1 (expected "T") (.list (.name "S"))
    ⟨by decide, by decide, by decide⟩ ⟨by decide, by decide, by decide⟩
  obtain ⟨answer', h'⟩ := (Ty.accepts_resolveNames context).1 (table "T") (table "S")
    ⟨by decide, by decide, by decide⟩ ⟨by decide, by decide, by decide⟩
  obtain ⟨htrue, -⟩ := (h .empty).1.unique (steady_accepts _ _) ⟨8, rfl⟩
  obtain ⟨htrue', -⟩ := (h' .empty).1.unique (steady_accepts _ _) ⟨8, rfl⟩
  subst htrue htrue'
  exact ⟨(h .empty).2.2.1, (h' .empty).2.2.2⟩

end NamedItem

end Stepwise

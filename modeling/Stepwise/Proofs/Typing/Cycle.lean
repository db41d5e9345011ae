import Mathlib.Data.Finite.Prod
import Mathlib.Data.Set.Finite.Lattice
import Mathlib.Data.Fintype.Pigeonhole
import Mathlib.Order.WellFounded
import Stepwise.Proofs.Typing.Comparison

/-!
# Comparisons that come back

An endless chain of comparisons comes back to a comparison that it has been at
(`Comparison.acc_of_forall_not_transGen`).  The memo changes only so often along the chain.  While
it stays the same, the two types are taken apart, and only the columns of tables whose types have to
be asked for put new types in their place.  These are the types of expressions of the program, of
which there are finitely many.

By the same measure every comparison that comes back passes by such a column
(`Comparison.exists_asksColumn`).
-/

namespace Stepwise

open Query Relation

/-! ## Relations -/

section Relations

variable {α β : Type} {r : α → α → Prop}

/-- From where no endless chain starts there is no way back. -/
theorem not_transGen_of_acc {a : α} (h : Acc (fun b a => r a b) a) : ¬ TransGen r a a := by
  induction h with
  | intro a _ ih =>
    intro hback
    obtain ⟨b, hab, hba⟩ := TransGen.head'_iff.1 hback
    exact ih b hab (TransGen.tail' hba hab)

/-- What a relation reaches is finite if each step leads to finitely many places and down. -/
theorem finite_reachable {size : α → Nat}
    (hsize : ∀ {a b}, r a b → size b < size a) (hfinite : ∀ a, {b | r a b}.Finite) (a : α) :
    {b | ReflTransGen r a b}.Finite := by
  induction hn : size a using Nat.strong_induction_on generalizing a with
  | _ n ih =>
    have hnext : (⋃ b ∈ {b | r a b}, {c | ReflTransGen r b c}).Finite :=
      (hfinite a).biUnion fun b hb => ih (size b) (hn ▸ hsize hb) b rfl
    refine ((Set.finite_singleton a).union hnext).subset fun c hc => ?_
    rcases ReflTransGen.cases_head hc with rfl | ⟨b, hb, hbc⟩
    · exact .inl rfl
    · exact .inr (Set.mem_biUnion hb hbc)

/-- An endless chain comes back to one of finitely many places. -/
theorem exists_transGen_of_finite {chain : Nat → α} (hchain : ∀ i, r (chain i) (chain (i + 1)))
    (place : α → β) {places : Set β} (hplaces : places.Finite)
    (hmem : ∀ i, place (chain i) ∈ places) :
    ∃ i j, place (chain j) = place (chain i) ∧ TransGen r (chain i) (chain j) := by
  have hsteps (i more : Nat) : TransGen r (chain i) (chain (i + (more + 1))) := by
    induction more with
    | zero => exact .single (hchain i)
    | succ more ih => exact ih.tail (hchain _)
  have := hplaces.to_subtype
  obtain ⟨i, j, hne, heq⟩ :=
    Finite.exists_ne_map_eq_of_infinite fun i => (⟨place (chain i), hmem i⟩ : places)
  have hplace : place (chain i) = place (chain j) := congrArg Subtype.val heq
  rcases Nat.lt_or_gt_of_ne hne with hlt | hlt
  · refine ⟨i, j, hplace.symm, ?_⟩
    rw [show j = i + (j - i - 1 + 1) by omega]
    exact hsteps i _
  · refine ⟨j, i, hplace, ?_⟩
    rw [show i = j + (i - j - 1 + 1) by omega]
    exact hsteps j _

/-- A way that does not lead down takes a step that need not lead down. -/
theorem exists_step_of_transGen (p : α → α → Prop) (size : α → Nat)
    (h : ∀ a b, r a b → p a b ∨ size b < size a) {a b : α} (hab : TransGen r a b)
    (hle : size a ≤ size b) :
    ∃ c d, ReflTransGen r a c ∧ r c d ∧ p c d ∧ ReflTransGen r d b := by
  induction hab with
  | @single b hstep =>
    rcases h _ _ hstep with hp | hlt
    · exact ⟨a, b, .refl, hstep, hp, .refl⟩
    · omega
  | @tail b c hab hstep ih =>
    rcases h _ _ hstep with hp | hlt
    · exact ⟨b, c, hab.to_reflTransGen, hstep, hp, .refl⟩
    · obtain ⟨x, y, hax, hxy, hp, hyb⟩ := ih (by omega)
      exact ⟨x, y, hax, hxy, hp, hyb.tail hstep⟩

end Relations

/-! ## How large types are

Names count more than what they stand for, so that resolving them makes types smaller, and
declarations count more than their types. -/

mutual

/-- The size of a type, not counting the values of declarations. -/
def Ty.weight : Ty → Nat
  | .name _ => 2
  | .list item => item.weight + 1
  | .function _ inputs output => weightOfBinders inputs + output.weight + 1
  | .table columns => weightOfBinders columns + 1
  | .struct _ args => weightOfTys args + 1
  | .structDef _ args => weightOfTys args + 1
  | .union members => weightOfTys members + 1
  | _ => 1
termination_by structural t => t

/-- The size of types. -/
def weightOfTys : List Ty → Nat
  | [] => 0
  | t :: rest => t.weight + weightOfTys rest
termination_by structural ts => ts

/-- The size of the written type of a declaration. -/
def Binder.weight : Binder → Nat
  | ⟨_, _, ty, _, _⟩ => weightOfTy? ty + 2
termination_by structural b => b

/-- The size of the written types of declarations. -/
def weightOfBinders : List Binder → Nat
  | [] => 0
  | b :: rest => b.weight + weightOfBinders rest
termination_by structural bs => bs

/-- The size of an optional type. -/
def weightOfTy? : Option Ty → Nat
  | none => 0
  | some t => t.weight
termination_by structural t => t

end

theorem weight_le_weightOfTys {ty : Ty} {tys : List Ty} (h : ty ∈ tys) :
    ty.weight ≤ weightOfTys tys := by
  induction tys with
  | nil => exact nomatch h
  | cons t rest ih =>
    rw [weightOfTys]
    rcases List.mem_cons.1 h with rfl | h
    · omega
    · have := ih h
      omega

theorem weight_le_weightOfBinders {b : Binder} {bs : List Binder} (h : b ∈ bs) :
    b.weight ≤ weightOfBinders bs := by
  induction bs with
  | nil => exact nomatch h
  | cons c rest ih =>
    rw [weightOfBinders]
    rcases List.mem_cons.1 h with rfl | h
    · omega
    · have := ih h
      omega

theorem Binder.weight_of_ty {b : Binder} {ty : Ty} (h : b.ty = some ty) :
    b.weight = ty.weight + 2 := by
  obtain ⟨id, names, ty', value, rest⟩ := b
  simp only at h
  rw [h, weight, weightOfTy?]

section Resolve

variable (ctx : Context)

mutual

/-- Resolving names makes a type smaller, or leaves it as it is. -/
theorem Ty.weight_resolveNames : ∀ ty : Ty, (ty.resolveNames ctx).weight ≤ ty.weight ∧
    ((ty.resolveNames ctx).weight = ty.weight → ty.resolveNames ctx = ty)
  | .name name => by
    rw [Ty.resolveNames, Context.namedType]
    split
    · simp [Ty.weight, weightOfTys]
    · simp [Ty.weight]
    · simp
  | .list item => by
    have hitem := Ty.weight_resolveNames item
    simp only [Ty.resolveNames, Ty.weight, Ty.list.injEq]
    exact ⟨by omega, fun h => hitem.2 (by omega)⟩
  | .function vars inputs output => by
    have hinputs := weight_resolveInBinders inputs
    have houtput := Ty.weight_resolveNames output
    simp only [Ty.resolveNames, Ty.weight, Ty.function.injEq, true_and]
    exact ⟨by omega, fun h => ⟨hinputs.2 (by omega), houtput.2 (by omega)⟩⟩
  | .table columns => by
    have hcolumns := weight_resolveInBinders columns
    simp only [Ty.resolveNames, Ty.weight, Ty.table.injEq]
    exact ⟨by omega, fun h => hcolumns.2 (by omega)⟩
  | .struct definition args => by
    have hargs := weight_resolveInTys args
    simp only [Ty.resolveNames, Ty.weight, Ty.struct.injEq, true_and]
    exact ⟨by omega, fun h => hargs.2 (by omega)⟩
  | .structDef definition args => by
    have hargs := weight_resolveInTys args
    simp only [Ty.resolveNames, Ty.weight, Ty.structDef.injEq, true_and]
    exact ⟨by omega, fun h => hargs.2 (by omega)⟩
  | .union members => by
    have hmembers := weight_resolveInTys members
    simp only [Ty.resolveNames, Ty.weight, Ty.union.injEq]
    exact ⟨by omega, fun h => hmembers.2 (by omega)⟩
  | .number _ | .text _ | .boolean | .var _ | .any | .unknown .. => ⟨Nat.le_refl _, fun _ => rfl⟩

theorem weight_resolveInTys : ∀ tys : List Ty,
    weightOfTys (resolveInTys ctx tys) ≤ weightOfTys tys ∧
      (weightOfTys (resolveInTys ctx tys) = weightOfTys tys → resolveInTys ctx tys = tys)
  | [] => ⟨Nat.le_refl _, fun _ => rfl⟩
  | t :: rest => by
    have ht := Ty.weight_resolveNames t
    have hrest := weight_resolveInTys rest
    simp only [resolveInTys, weightOfTys, List.cons.injEq]
    exact ⟨by omega, fun h => ⟨ht.2 (by omega), hrest.2 (by omega)⟩⟩

theorem Binder.weight_resolveNames : ∀ b : Binder,
    (b.resolveNames ctx).weight ≤ b.weight ∧
      ((b.resolveNames ctx).weight = b.weight → b.resolveNames ctx = b)
  | ⟨_, _, ty, _, _⟩ => by
    have hty := weight_resolveInTy? ty
    simp only [Binder.resolveNames, Binder.weight, Binder.mk.injEq, true_and, and_true]
    exact ⟨by omega, fun h => hty.2 (by omega)⟩

theorem weight_resolveInBinders : ∀ bs : List Binder,
    weightOfBinders (resolveInBinders ctx bs) ≤ weightOfBinders bs ∧
      (weightOfBinders (resolveInBinders ctx bs) = weightOfBinders bs →
        resolveInBinders ctx bs = bs)
  | [] => ⟨Nat.le_refl _, fun _ => rfl⟩
  | b :: rest => by
    have hb := Binder.weight_resolveNames b
    have hrest := weight_resolveInBinders rest
    simp only [resolveInBinders, weightOfBinders, List.cons.injEq]
    exact ⟨by omega, fun h => ⟨hb.2 (by omega), hrest.2 (by omega)⟩⟩

theorem weight_resolveInTy? : ∀ ty : Option Ty,
    weightOfTy? (resolveInTy? ctx ty) ≤ weightOfTy? ty ∧
      (weightOfTy? (resolveInTy? ctx ty) = weightOfTy? ty → resolveInTy? ctx ty = ty)
  | none => ⟨Nat.le_refl _, fun _ => rfl⟩
  | some t => by
    have ht := Ty.weight_resolveNames t
    simp only [resolveInTy?, weightOfTy?, Option.some.injEq]
    exact ⟨by omega, fun h => ht.2 (by omega)⟩

end

end Resolve

/-! ## Columns whose types have to be asked for -/

/-- Whether the declaration has a value in place of a written type. -/
def Binder.isAsked (b : Binder) : Bool :=
  b.ty.isNone && b.value.isSome

section Columns

variable {ctx : Context} {memo after : Memo} {b : Binder} {ty : Ty}

/-- The type of a declaration with a value in place of a written type. -/
theorem exists_of_isAsked (hb : b.isAsked = true)
    (h : Gives (fun n => b.typeOf n) ctx memo ty after) :
    ∃ value found, b.value = some value ∧ Gives (fun n => value.typeOf n) ctx memo found after ∧
      (ty = found ∨ ty = .list found) := by
  obtain ⟨id, names, bty, bvalue, rest⟩ := b
  obtain ⟨budget, h⟩ := h
  obtain ⟨hnone, hsome⟩ := Bool.and_eq_true_iff.1 hb
  obtain rfl := Option.isNone_iff_eq_none.1 hnone
  obtain ⟨value, rfl⟩ := Option.isSome_iff_exists.1 hsome
  obtain ⟨found, mid, hfound, hrest⟩ := bind_eq_some.1 h
  obtain ⟨rfl, rfl⟩ := pure_eq_some.1 hrest
  refine ⟨value, found, rfl, ⟨budget, hfound⟩, ?_⟩
  cases rest with
  | true => exact .inr rfl
  | false => exact .inl rfl

/-- The type of any other declaration is not larger than the declaration. -/
theorem weight_le_of_not_isAsked (hb : b.isAsked = false)
    (h : Gives (fun n => b.typeOf n) ctx memo ty after) : ty.weight ≤ b.weight := by
  obtain ⟨id, names, bty, bvalue, rest⟩ := b
  obtain ⟨budget, h⟩ := h
  have hlist (t : Ty) : (if rest = true then Ty.list t else t).weight ≤ t.weight + 1 := by
    split
    · exact Nat.le_refl _
    · exact Nat.le_succ _
  cases bty with
  | some written =>
    obtain ⟨found, mid, hread, hrest⟩ := bind_eq_some.1 h
    change some (written.resolveNames ctx, memo) = some (found, mid) at hread
    obtain ⟨rfl, rfl⟩ := Prod.mk.inj (Option.some.inj hread)
    obtain ⟨rfl, rfl⟩ := pure_eq_some.1 hrest
    have hle := hlist (written.resolveNames ctx)
    have hwritten := (Ty.weight_resolveNames ctx written).1
    rw [Binder.weight, weightOfTy?]
    exact Nat.le_trans hle (by omega)
  | none =>
    cases bvalue with
    | some value => exact nomatch hb
    | none =>
      obtain ⟨found, mid, hfound, hrest⟩ := bind_eq_some.1 h
      obtain ⟨rfl, rfl⟩ := pure_eq_some.1 hfound
      obtain ⟨rfl, rfl⟩ := pure_eq_some.1 hrest
      have hle := hlist (.unknown .unspecified (some id))
      rw [Binder.weight, weightOfTy?]
      exact Nat.le_trans hle (by simp [Ty.weight])

end Columns

/-! ## Taking types apart -/

/-- What one of two types becomes when a comparison asks for another one and the memo stays: a part
of it, or what its names stand for.  The columns whose types have to be asked for are left out. -/
inductive Ty.Unfolds (ctx : Context) (memo : Memo) : Ty → Ty → Prop where
  | member {members : List Ty} {ty : Ty} (h : ty ∈ members) : Unfolds ctx memo (.union members) ty
  | named {ty : Ty} (h : ty.resolveNames ctx ≠ ty) : Unfolds ctx memo ty (ty.resolveNames ctx)
  | item {ty : Ty} : Unfolds ctx memo (.list ty) ty
  | output {vars : List TypeVariable} {inputs : List Binder} {ty : Ty} :
      Unfolds ctx memo (.function vars inputs ty) ty
  | input {vars : List TypeVariable} {inputs : List Binder} {output ty : Ty} {b : Binder}
      (hb : b ∈ inputs) (hty : b.ty = some ty) :
      Unfolds ctx memo (.function vars inputs output) (ty.resolveNames ctx)
  | column {columns : List Binder} {b : Binder} {ty : Ty} (hb : b ∈ columns)
      (hasked : b.isAsked = false) (hty : Gives (fun n => b.typeOf n) ctx memo ty memo) :
      Unfolds ctx memo (.table columns) ty

section Unfolds

variable {ctx : Context} {memo : Memo}

theorem Ty.Unfolds.weight_lt {ty ty' : Ty} (h : ty.Unfolds ctx memo ty') :
    ty'.weight < ty.weight := by
  cases h with
  | member h =>
    have hle := weight_le_weightOfTys h
    rw [Ty.weight]
    omega
  | named h =>
    have hle := Ty.weight_resolveNames ctx ty
    have hne := mt hle.2 h
    omega
  | item => exact Nat.lt_succ_self _
  | output =>
    rw [Ty.weight]
    omega
  | @input vars inputs output written b hb hty =>
    have hle := (Ty.weight_resolveNames ctx written).1
    have hb' := weight_le_weightOfBinders hb
    rw [Binder.weight_of_ty hty] at hb'
    rw [Ty.weight]
    omega
  | column hb hasked hty =>
    have hty := weight_le_of_not_isAsked hasked hty
    have hle := weight_le_weightOfBinders hb
    rw [Ty.weight]
    omega

/-- The type of a declaration is one. -/
theorem finite_typeOf_binder (ctx : Context) (memo : Memo) (b : Binder) :
    {ty | Gives (fun n => b.typeOf n) ctx memo ty memo}.Finite :=
  Set.Subsingleton.finite fun _ h _ h' => (Gives.unique (steady_binder b) h' h).1

theorem Ty.finite_unfolds (ty : Ty) : {ty' | ty.Unfolds ctx memo ty'}.Finite := by
  have hnamed : ({ty.resolveNames ctx} : Set Ty).Finite := Set.finite_singleton _
  cases ty with
  | union members =>
    refine (hnamed.union (List.finite_toSet members)).subset fun ty' h => ?_
    cases h with
    | member h => exact .inr h
    | named => exact .inl rfl
  | list item =>
    refine (hnamed.union (Set.finite_singleton item)).subset fun ty' h => ?_
    cases h with
    | item => exact .inr rfl
    | named => exact .inl rfl
  | function vars inputs output =>
    have hinputs : {ty' | ∃ b ∈ inputs, ∃ t, b.ty = some t ∧ t.resolveNames ctx = ty'}.Finite := by
      have hone (b : Binder) : {ty' | ∃ t, b.ty = some t ∧ t.resolveNames ctx = ty'}.Finite := by
        refine Set.Subsingleton.finite ?_
        rintro _ ⟨t, ht, rfl⟩ _ ⟨t', ht', rfl⟩
        rw [ht] at ht'
        rw [Option.some.inj ht']
      refine ((List.finite_toSet inputs).biUnion fun b _ => hone b).subset ?_
      rintro ty' ⟨b, hb, h⟩
      exact Set.mem_biUnion hb h
    refine ((hnamed.union (Set.finite_singleton output)).union hinputs).subset fun ty' h => ?_
    cases h with
    | output => exact .inl (.inr rfl)
    | input hb hty => exact .inr ⟨_, hb, _, hty, rfl⟩
    | named => exact .inl (.inl rfl)
  | table columns =>
    refine (hnamed.union ((List.finite_toSet columns).biUnion fun b _ =>
      finite_typeOf_binder ctx memo b)).subset fun ty' h => ?_
    cases h with
    | column hb hasked hty => exact .inr (Set.mem_biUnion hb hty)
    | named => exact .inl rfl
  | _ =>
    refine hnamed.subset fun ty' h => ?_
    cases h with
    | named => exact rfl

end Unfolds

/-! ## Chains of comparisons -/

section Turns

variable {ctx : Context} {es : List Expr} {memo : Memo}

/-- The types of the columns that have to be asked for, when asking leaves the memo as it is. -/
def askedTypes (ctx : Context) (es : List Expr) (memo : Memo) : Set Ty :=
  {ty | ∃ b : Binder, b.nested ⊆ es ∧ b.isAsked = true ∧
    Gives (fun n => b.typeOf n) ctx memo ty memo}

/-- There are no more of them than expressions, and lists of them. -/
theorem finite_askedTypes : (askedTypes ctx es memo).Finite := by
  have hone (e : Expr) : {ty | Gives (fun n => e.typeOf n) ctx memo ty memo}.Finite :=
    Set.Subsingleton.finite fun _ h _ h' => (Gives.unique (steady_typeOf e) h' h).1
  have hanswers :
      (⋃ e ∈ {e | e ∈ es}, {ty | Gives (fun n => e.typeOf n) ctx memo ty memo}).Finite :=
    (List.finite_toSet es).biUnion fun e _ => hone e
  refine (hanswers.union (hanswers.image Ty.list)).subset ?_
  rintro ty ⟨b, hb, hasked, hty⟩
  obtain ⟨value, found, hvalue, hfound, hty⟩ := exists_of_isAsked hasked hty
  have hmem : value ∈ es := (Binder.nested_subset.1 hb).2 value hvalue value.mem_nested_self
  have hin := Set.mem_biUnion (s := {e | e ∈ es})
    (t := fun e => {ty | Gives (fun n => e.typeOf n) ctx memo ty memo}) hmem hfound
  rcases hty with rfl | rfl
  · exact .inl hin
  · exact .inr ⟨found, hin, rfl⟩

/-- What one of two types becomes when a comparison asks for another one and the memo stays. -/
def Ty.Turns (ctx : Context) (es : List Expr) (memo : Memo) (ty ty' : Ty) : Prop :=
  ty' = ty ∨ ty.Unfolds ctx memo ty' ∨ ty' ∈ askedTypes ctx es memo

/-- What a type can become in the long run. -/
def Ty.outcomes (ctx : Context) (es : List Expr) (memo : Memo) (ty : Ty) : Set Ty :=
  ⋃ start ∈ insert ty (askedTypes ctx es memo), {ty' | ReflTransGen (Ty.Unfolds ctx memo) start ty'}

theorem Ty.finite_outcomes (ty : Ty) : (ty.outcomes ctx es memo).Finite :=
  (finite_askedTypes.insert ty).biUnion fun start _ =>
    finite_reachable (fun h => h.weight_lt) Ty.finite_unfolds start

theorem Ty.mem_outcomes_self (ty : Ty) : ty ∈ ty.outcomes ctx es memo :=
  Set.mem_biUnion (Set.mem_insert ..) ReflTransGen.refl

theorem Ty.Turns.mem_outcomes {start ty ty' : Ty} (h : ty.Turns ctx es memo ty')
    (hty : ty ∈ start.outcomes ctx es memo) : ty' ∈ start.outcomes ctx es memo := by
  rcases h with rfl | h | h
  · exact hty
  · obtain ⟨first, hfirst, hreach⟩ := Set.mem_iUnion₂.1 hty
    exact Set.mem_biUnion hfirst (ReflTransGen.tail hreach h)
  · exact Set.mem_biUnion (Set.mem_insert_of_mem _ h) ReflTransGen.refl

theorem Ty.turns_resolveNames (ty : Ty) : ty.Turns ctx es memo (ty.resolveNames ctx) := by
  by_cases h : ty.resolveNames ctx = ty
  · exact .inl h
  · exact .inr (.inl (.named h))

theorem Ty.turns_column {columns : List Binder} {b : Binder} {ty : Ty}
    (hcolumns : nestedInBinders columns ⊆ es) (hb : b ∈ columns)
    (hty : Gives (fun n => b.typeOf n) ctx memo ty memo) :
    (Ty.table columns).Turns ctx es memo ty := by
  cases hasked : b.isAsked with
  | true => exact .inr (.inr ⟨b, nestedInBinders_subset.1 hcolumns b hb, hasked, hty⟩)
  | false => exact .inr (.inl (.column hb hasked hty))

end Turns

namespace Comparison

section Chains

variable {ctx : Context} {es : List Expr} {I : Memo → Prop} {c d : Comparison}

theorem Asks.grows (h : c.Asks ctx d) : c.memo.Grows d.memo := by
  cases h with
  | member _ haccepted =>
    exact haccepted.grows ⟨fun hle => settles_allM (fun t => settles_acceptsType hle _ t) _⟩
  | alternative _ hrefused =>
    exact hrefused.grows ⟨fun hle => settles_anyM (fun t => settles_acceptsType hle t _) _⟩
  | named => exact .refl _
  | item => exact .refl _
  | @column before _ given column other _ _ _ _ _ _ _ haccepted _ hexpected hgiven =>
    have hmid := haccepted.grows
      ⟨fun hle => settles_allM (fun b => (steady_columnAccepted given b).settles hle) before⟩
    exact hmid.trans ((hexpected.grows (steady_binder column)).trans
      (hgiven.grows (steady_binder other)))
  | output => exact .refl _
  | @input _ _ _ _ output output' before _ _ _ _ _ _ _ _ _ houtput _ haccepted =>
    have hmid := houtput.grows (steady_accepts output output')
    exact hmid.trans (haccepted.grows
      ⟨fun hle => settles_allM (fun pair : Binder × Binder =>
        (steady_inputsAgree pair.1 pair.2).settles hle) before⟩)

/-- As long as the memo stays, both types are taken apart or replaced by types that were asked
for. -/
theorem Asks.turns (h : c.Asks ctx d) (hc : c.Within es I) (hmemo : d.memo = c.memo) :
    c.expected.Turns ctx es c.memo d.expected ∧ c.given.Turns ctx es c.memo d.given := by
  obtain ⟨he, hg, -⟩ := hc
  cases h with
  | member => exact ⟨.inl rfl, .inr (.inl (.member (by simp)))⟩
  | alternative => exact ⟨.inr (.inl (.member (by simp))), .inl rfl⟩
  | named => exact ⟨Ty.turns_resolveNames _, Ty.turns_resolveNames _⟩
  | item => exact ⟨.inr (.inl .item), .inr (.inl .item)⟩
  | @column before rest given column other expectedTy givenTy memo mid mid' after _ haccepted hother
      hexpected hgiven =>
    obtain rfl : after = memo := hmemo
    -- The memo does not change in between either.
    have hmid := haccepted.grows
      ⟨fun hle => settles_allM (fun b => (steady_columnAccepted given b).settles hle) before⟩
    have hmid' := hexpected.grows (steady_binder column)
    have hafter := hgiven.grows (steady_binder other)
    obtain rfl : mid = after := hmid.antisymm (hmid'.trans hafter)
    obtain rfl : mid' = mid := hmid'.antisymm hafter
    exact ⟨Ty.turns_column he (by simp) hexpected,
      Ty.turns_column hg (List.mem_of_find?_eq_some hother) hgiven⟩
  | output => exact ⟨.inr (.inl .output), .inr (.inl .output)⟩
  | @input _ _ inputs inputs' _ _ before rest x y _ _ _ _ _ _ _ hzip _ hexpected hgiven =>
    have hin : (x, y) ∈ inputs.zip inputs' := hzip ▸ (by simp)
    exact ⟨.inr (.inl (.input (List.of_mem_zip hin).1 hexpected)),
      .inr (.inl (.input (List.of_mem_zip hin).2 hgiven))⟩

/-- An endless chain within a program comes back to where it has been. -/
theorem exists_transGen_of_chain {chain : Nat → Comparison}
    (hwithin : ∀ i, (chain i).Within es I) (hI : ∀ memo, I memo → memo.Within es)
    (hchain : ∀ i, (chain i).Asks ctx (chain (i + 1))) :
    ∃ i, TransGen (Asks ctx) (chain i) (chain i) := by
  obtain ⟨start, hstart⟩ := Memo.eventually_constant (f := fun i => (chain i).memo)
    (fun i => hI _ (hwithin i).memo) fun i => (hchain i).grows
  -- From `start` on all comparisons are among finitely many.
  let places : Set Comparison :=
    (fun types : Ty × Ty => ⟨types.1, types.2, (chain start).memo⟩) ''
      ((chain start).expected.outcomes ctx es (chain start).memo ×ˢ
        (chain start).given.outcomes ctx es (chain start).memo)
  have hplaces : places.Finite := ((Ty.finite_outcomes _).prod (Ty.finite_outcomes _)).image _
  have hmem (i : Nat) : chain (start + i) ∈ places := by
    suffices h : (chain (start + i)).expected ∈ (chain start).expected.outcomes ctx es
        (chain start).memo ∧ (chain (start + i)).given ∈ (chain start).given.outcomes ctx es
        (chain start).memo by
      refine ⟨((chain (start + i)).expected, (chain (start + i)).given), h, ?_⟩
      rw [← hstart i]
    induction i with
    | zero => exact ⟨Ty.mem_outcomes_self _, Ty.mem_outcomes_self _⟩
    | succ i ih =>
      have hturns := (hchain (start + i)).turns (hwithin _) ((hstart (i + 1)).trans (hstart i).symm)
      rw [hstart i] at hturns
      exact ⟨hturns.1.mem_outcomes ih.1, hturns.2.mem_outcomes ih.2⟩
  have hshifted (i : Nat) : Asks ctx (chain (start + i)) (chain (start + (i + 1))) := hchain _
  obtain ⟨i, j, hsame, hback⟩ := exists_transGen_of_finite hshifted id hplaces hmem
  refine ⟨start + i, ?_⟩
  rwa [show chain (start + j) = chain (start + i) from hsame] at hback

/-- Where no comparison comes back to itself there are no endless chains. -/
theorem acc_of_forall_not_transGen (hctx : ctx.Within es)
    (hask : ∀ e : Expr, e.nested ⊆ es →
      Answers False ctx I (fun n => e.typeOf n) fun ty => ty.nested ⊆ es)
    (haccepts : ∀ a b : Ty, a.nested ⊆ es → b.nested ⊆ es →
      Answers False ctx I (fun n => a.accepts n b) fun _ => True)
    (hI : ∀ memo, I memo → memo.Within es)
    (hback : ∀ c, c.Within es I → ¬ TransGen (Asks ctx) c c) (hc : c.Within es I) :
    Acc (fun d c => Asks ctx c d) c := by
  by_contra hacc
  obtain ⟨chain, hzero, hchain⟩ := not_acc_iff_exists_descending_chain.1 hacc
  have hwithin (i : Nat) : (chain i).Within es I := by
    induction i with
    | zero => exact hzero ▸ hc
    | succ i ih => exact (hchain i).within hctx hask haccepts ih
  obtain ⟨i, hi⟩ := exists_transGen_of_chain hwithin hI hchain
  exact hback _ (hwithin i) hi

/-- A comparison of a table with a column whose type has to be asked for. -/
def AsksColumn (c : Comparison) : Prop :=
  ∃ columns, (c.expected = .table columns ∨ c.given = .table columns) ∧
    ∃ b ∈ columns, b.isAsked = true

/-- Any other comparison asks for smaller ones. -/
theorem Asks.weight_lt (h : c.Asks ctx d) (hc : ¬ c.AsksColumn) :
    d.expected.weight + d.given.weight < c.expected.weight + c.given.weight := by
  have hplain {columns : List Binder}
      (h : c.expected = .table columns ∨ c.given = .table columns) {b : Binder} (hb : b ∈ columns) :
      b.isAsked = false :=
    Bool.eq_false_iff.2 fun hasked => hc ⟨columns, h, b, hb, hasked⟩
  cases h with
  | @member expected ty before rest =>
    have hle : ty.weight ≤ weightOfTys (before ++ ty :: rest) := weight_le_weightOfTys (by simp)
    simp only [Ty.weight]
    omega
  | @alternative given ty before rest =>
    have hle : ty.weight ≤ weightOfTys (before ++ ty :: rest) := weight_le_weightOfTys (by simp)
    simp only [Ty.weight]
    omega
  | @named expected given memo _ hname hresolved =>
    have he := Ty.weight_resolveNames ctx expected
    have hg := Ty.weight_resolveNames ctx given
    -- One of the two is a name, and does not stay one.
    have hne : expected.resolveNames ctx ≠ expected ∨ given.resolveNames ctx ≠ given := by
      rcases Bool.or_eq_true_iff.1 hname with h | h
      · exact .inl fun heq => Bool.eq_false_iff.1 hresolved.1 ((congrArg Ty.isName heq).trans h)
      · exact .inr fun heq => Bool.eq_false_iff.1 hresolved.2 ((congrArg Ty.isName heq).trans h)
    have hlt : (expected.resolveNames ctx).weight ≠ expected.weight ∨
        (given.resolveNames ctx).weight ≠ given.weight :=
      hne.imp (mt he.2) (mt hg.2)
    dsimp only
    omega
  | item =>
    simp only [Ty.weight]
    omega
  | @column before rest given column other expectedTy givenTy memo mid mid' after _ _ hother
      hexpected hgiven =>
    have hmem : other ∈ given := List.mem_of_find?_eq_some hother
    have he := weight_le_of_not_isAsked (hplain (.inl rfl) (by simp)) hexpected
    have hg := weight_le_of_not_isAsked (hplain (.inr rfl) hmem) hgiven
    have hcolumn : column.weight ≤ weightOfBinders (before ++ column :: rest) :=
      weight_le_weightOfBinders (by simp)
    have hothers := weight_le_weightOfBinders hmem
    simp only [Ty.weight]
    omega
  | output =>
    simp only [Ty.weight]
    omega
  | @input _ _ inputs inputs' _ _ before rest x y expectedTy givenTy _ _ _ _ _ hzip _ hexpected
      hgiven =>
    have hin := List.of_mem_zip (show (x, y) ∈ inputs.zip inputs' from hzip ▸ (by simp))
    have hx := weight_le_weightOfBinders hin.1
    have hy := weight_le_weightOfBinders hin.2
    rw [Binder.weight_of_ty hexpected] at hx
    rw [Binder.weight_of_ty hgiven] at hy
    have he := (Ty.weight_resolveNames ctx expectedTy).1
    have hg := (Ty.weight_resolveNames ctx givenTy).1
    simp only [Ty.weight]
    omega

/-- A comparison that comes back to itself passes by a column whose type has to be asked for. -/
theorem exists_asksColumn (hback : TransGen (Asks ctx) c c) :
    ∃ d, ReflTransGen (Asks ctx) c d ∧ ReflTransGen (Asks ctx) d c ∧ d.AsksColumn := by
  obtain ⟨d, d', hcd, hstep, hasks, hback⟩ := exists_step_of_transGen (fun c _ => c.AsksColumn)
    (fun c => c.expected.weight + c.given.weight)
    (fun c d h => Classical.or_iff_not_imp_left.2 fun hc => h.weight_lt hc) hback (Nat.le_refl _)
  exact ⟨d, hcd, .head hstep hback, hasks⟩

end Chains

end Comparison

end Stepwise

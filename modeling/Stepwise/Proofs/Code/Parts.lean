import Stepwise.Proofs.Typing.Enough
import Stepwise.Proofs.Typing.Nested

/-!
# The parts of a lowering

The code of an expression is made of the code of other expressions, which are lowered one after the
other: of its operands, and for a call of what its slots ask for and of its callee.  For a call the
type of the callee has to be asked for first, since it tells which inputs there are.
`Expr.partsWith` answers what these expressions are, and `leadsTo_lowerWith` says that lowering an
expression is to ask for its parts and to lower them.

All parts are contained in the expression, except for the defaults that a call writes out
(`Call.contains_or_default`).
-/

namespace Stepwise

open Query

/-! ## What queries lead to -/

section LeadsTo

variable {α β : Type} {ctx : Context} {memo after : Memo}

/-- The query has an answer, and leaves the memo `after`. -/
def Query.LeadsTo (q : Query α) (ctx : Context) (memo after : Memo) : Prop :=
  ∃ a, q ctx memo = some (a, after)

theorem leadsTo_pure {a : α} : (pure a : Query α).LeadsTo ctx memo after ↔ memo = after := by
  simp [LeadsTo, pure_eq_some]

theorem leadsTo_bind {q : Query α} {f : α → Query β} :
    (q >>= f).LeadsTo ctx memo after ↔
      ∃ a mid, q ctx memo = some (a, mid) ∧ (f a).LeadsTo ctx mid after := by
  constructor
  · rintro ⟨b, h⟩
    obtain ⟨a, mid, ha, hb⟩ := bind_eq_some.1 h
    exact ⟨a, mid, ha, b, hb⟩
  · rintro ⟨a, mid, ha, b, hb⟩
    exact ⟨b, bind_eq_some.2 ⟨a, mid, ha, hb⟩⟩

/-- Often it does not depend on the first answer what the second query leads to. -/
theorem leadsTo_andThen {q : Query α} {f : α → Query β} {P : Memo → Prop}
    (hf : ∀ a mid, (f a).LeadsTo ctx mid after ↔ P mid) :
    (q >>= f).LeadsTo ctx memo after ↔ ∃ mid, q.LeadsTo ctx memo mid ∧ P mid := by
  simp only [leadsTo_bind, hf]
  constructor
  · rintro ⟨a, mid, ha, hP⟩
    exact ⟨mid, ⟨a, ha⟩, hP⟩
  · rintro ⟨mid, ⟨a, ha⟩, hP⟩
    exact ⟨a, mid, ha, hP⟩

theorem leadsTo_bind_pure {q : Query α} {g : α → β} :
    (q >>= fun a => pure (g a)).LeadsTo ctx memo after ↔ q.LeadsTo ctx memo after := by
  rw [leadsTo_andThen fun _ _ => leadsTo_pure]
  simp

variable {after' later : Memo} {q : Nat → Query α} {budget budget' : Nat} (hq : Steady q)

include hq

theorem Query.LeadsTo.more (hle : budget ≤ budget') (h : (q budget).LeadsTo ctx memo after) :
    (q budget').LeadsTo ctx memo after := by
  obtain ⟨a, h⟩ := h
  exact ⟨a, (hq.settles hle).same h⟩

theorem Query.LeadsTo.unique (h : (q budget).LeadsTo ctx memo after)
    (h' : (q budget').LeadsTo ctx memo after') : after' = after := by
  obtain ⟨a, h⟩ := h
  obtain ⟨a', h'⟩ := h'
  exact (Gives.unique hq ⟨budget, h⟩ ⟨budget', h'⟩).2

theorem Query.LeadsTo.grows (h : (q budget).LeadsTo ctx memo after) : memo.Grows after := by
  obtain ⟨a, h⟩ := h
  exact (hq.settles (Nat.le_refl budget)).grows h

/-- Asked again later, the query changes nothing. -/
theorem Query.LeadsTo.again (hrest : memo.AtRest) (h : (q budget).LeadsTo ctx memo after)
    (hlater : after.Extends later) : (q budget).LeadsTo ctx later later := by
  obtain ⟨a, h⟩ := h
  exact ⟨a, (hq.settles (Nat.le_refl budget)).again hrest h hlater⟩

end LeadsTo

/-! ## Parts -/

/-- The expressions that are lowered for a call of a callee of the type: what the slots ask for, and
the callee. -/
def Call.partsFor (c : Call) (ty : Ty) : List Expr :=
  match Callee.ofTy? ty with
  | none => []
  | some callee =>
    if c.callee.isUnparsable || c.inputs.any Expr.isUnparsable then []
    else (plan callee.inputs c.inputs).flatMap Slot.values ++ [c.callee]

/-- The expressions that are lowered for an expression that is no call, in this order. -/
def Expr.operands : Expr → List Expr
  | .list _ _ items _ => items
  | .conditional _ condition _ yes no => [yes, no, condition]
  | .delete _ table _ _ => [table]
  | .insert _ table _ cells => table :: cells.filterMap Binder.value
  | .access _ subject _ _ => [subject]
  | .binary _ left _ _ right => [left, right]
  | .unary _ _ _ operand => [operand]
  | .block _ statements => statements
  | .bind b => b.value.toList
  | _ => []

/-- The expressions that are lowered for an expression. -/
def Expr.partsWith (ask : Ask) : Expr → Query (List Expr)
  | .call c => do return c.partsFor (← ask c.callee)
  | e => pure e.operands

theorem settles_partsWith {budget budget' : Nat} (hle : budget ≤ budget') (e : Expr) :
    (e.partsWith (Expr.typeOf budget)).Settles (e.partsWith (Expr.typeOf budget')) := by
  cases e with
  | call c => exact (settles_typeOf hle c.callee).bind fun _ => settles_pure _
  | _ => exact settles_pure _

section Lower

variable {ctx : Context} {memo after : Memo} {ask : Ask} {lower : Expr → Query Code}

theorem leadsTo_lowerAll_nil : (lowerAll lower []).LeadsTo ctx memo after ↔ memo = after :=
  leadsTo_pure

theorem leadsTo_lowerAll_cons {e : Expr} {rest : List Expr} :
    (lowerAll lower (e :: rest)).LeadsTo ctx memo after ↔
      ∃ mid, (lower e).LeadsTo ctx memo mid ∧ (lowerAll lower rest).LeadsTo ctx mid after :=
  leadsTo_andThen fun _ _ => leadsTo_bind_pure

theorem leadsTo_lowerAll_singleton {e : Expr} :
    (lowerAll lower [e]).LeadsTo ctx memo after ↔ (lower e).LeadsTo ctx memo after := by
  rw [leadsTo_lowerAll_cons]
  simp [leadsTo_lowerAll_nil]

theorem leadsTo_lowerAll_append {es fs : List Expr} :
    (lowerAll lower (es ++ fs)).LeadsTo ctx memo after ↔ ∃ mid,
      (lowerAll lower es).LeadsTo ctx memo mid ∧ (lowerAll lower fs).LeadsTo ctx mid after := by
  induction es generalizing memo with
  | nil => simp [leadsTo_lowerAll_nil]
  | cons e rest ih =>
    simp only [List.cons_append, leadsTo_lowerAll_cons, ih]
    constructor
    · rintro ⟨first, he, mid, hrest, hfs⟩
      exact ⟨mid, ⟨first, he, hrest⟩, hfs⟩
    · rintro ⟨mid, ⟨first, he, hrest⟩, hfs⟩
      exact ⟨first, he, mid, hrest, hfs⟩

theorem leadsTo_lowerSlot {id : NodeId} {slot : Slot} :
    (lowerSlot lower id slot).LeadsTo ctx memo after ↔
      (lowerAll lower slot.values).LeadsTo ctx memo after := by
  cases slot with
  | given value => exact leadsTo_lowerAll_singleton.symm
  | default value => exact leadsTo_lowerAll_singleton.symm
  | missing input => exact leadsTo_pure.trans leadsTo_lowerAll_nil.symm
  | rest values => rfl

theorem leadsTo_lowerSlots {id : NodeId} {slots : List Slot} :
    (lowerSlots lower id slots).LeadsTo ctx memo after ↔
      (lowerAll lower (slots.flatMap Slot.values)).LeadsTo ctx memo after := by
  induction slots generalizing memo with
  | nil => exact leadsTo_pure.trans leadsTo_lowerAll_nil.symm
  | cons slot slots ih =>
    rw [List.flatMap_cons, leadsTo_lowerAll_append]
    refine (leadsTo_andThen fun _ _ => leadsTo_bind_pure.trans ih).trans ?_
    simp only [leadsTo_lowerSlot]

theorem leadsTo_lowerValue {b : Binder} : (lowerValue lower b).LeadsTo ctx memo after ↔
    (lowerAll lower b.value.toList).LeadsTo ctx memo after := by
  unfold lowerValue
  cases b.value with
  | some value => exact leadsTo_lowerAll_singleton.symm
  | none => exact leadsTo_pure.trans leadsTo_lowerAll_nil.symm

theorem leadsTo_lowerValues {bs : List Binder} : (lowerValues lower bs).LeadsTo ctx memo after ↔
    (lowerAll lower (bs.filterMap Binder.value)).LeadsTo ctx memo after := by
  induction bs generalizing memo with
  | nil => exact leadsTo_pure.trans leadsTo_lowerAll_nil.symm
  | cons b rest ih =>
    have hvalues : (b :: rest).filterMap Binder.value =
        b.value.toList ++ rest.filterMap Binder.value := by
      cases hv : b.value <;> simp [hv]
    rw [hvalues, leadsTo_lowerAll_append]
    refine (leadsTo_andThen fun _ _ => leadsTo_bind_pure.trans ih).trans ?_
    simp only [leadsTo_lowerValue]

theorem leadsTo_lowerCall {c : Call} : (lowerCall ask lower c).LeadsTo ctx memo after ↔
    ∃ ty mid, ask c.callee ctx memo = some (ty, mid) ∧
      (lowerAll lower (c.partsFor ty)).LeadsTo ctx mid after := by
  unfold lowerCall Call.partsFor
  rw [leadsTo_bind]
  refine exists_congr fun ty => exists_congr fun mid => and_congr_right fun _ => ?_
  cases Callee.ofTy? ty with
  | none => exact leadsTo_pure.trans leadsTo_pure.symm
  | some callee =>
    dsimp only
    split
    · exact leadsTo_pure.trans leadsTo_pure.symm
    · rw [leadsTo_lowerAll_append]
      refine (leadsTo_andThen fun _ _ => leadsTo_bind_pure).trans ?_
      simp only [leadsTo_lowerSlots, leadsTo_lowerAll_singleton]

/-- Lowering an expression is lowering its parts one after the other. -/
theorem leadsTo_lowerWith {e : Expr} : (e.lowerWith ask lower).LeadsTo ctx memo after ↔
    (e.partsWith ask >>= lowerAll lower).LeadsTo ctx memo after := by
  cases e with
  | call c =>
    rw [Expr.partsWith, bind_assoc, leadsTo_bind]
    simp only [pure_bind]
    exact leadsTo_lowerCall
  | list | block | binary => exact leadsTo_bind_pure
  | delete | access | unary => exact leadsTo_bind_pure.trans leadsTo_lowerAll_singleton.symm
  | bind b => exact leadsTo_bind_pure.trans leadsTo_lowerValue
  | insert _ table _ cells =>
    refine (leadsTo_andThen fun _ _ => leadsTo_bind_pure.trans leadsTo_lowerValues).trans ?_
    exact leadsTo_lowerAll_cons.symm
  | conditional id condition question yes no =>
    refine (leadsTo_andThen fun _ _ => leadsTo_andThen fun _ _ => leadsTo_bind_pure).trans ?_
    simp only [Expr.partsWith, Expr.operands, pure_bind, leadsTo_lowerAll_cons,
      leadsTo_lowerAll_nil, exists_eq_right]
  | _ =>
    simp only [Expr.partsWith, Expr.operands, pure_bind, leadsTo_lowerAll_nil]
    exact leadsTo_pure

end Lower

/-! ## What contains a part -/

/-- An expression that is smaller, and in which nothing else is nested. -/
structure Expr.Contains (e p : Expr) : Prop where
  nested : p.nested ⊆ e.nested
  size : sizeOf p < sizeOf e

theorem Expr.contains_of_mem {e p : Expr} {items : List Expr}
    (hnested : nestedInExprs items ⊆ e.nested) (hsize : sizeOf items < sizeOf e) (h : p ∈ items) :
    e.Contains p :=
  ⟨nestedInExprs_subset.1 hnested p h, Nat.lt_trans (List.sizeOf_lt_of_mem h) hsize⟩

theorem Binder.sizeOf_value {b : Binder} {value : Expr} (h : b.value = some value) :
    sizeOf value < sizeOf b := by
  obtain ⟨id, names, ty, value', rest⟩ := b
  obtain rfl : value' = some value := h
  simp only [Binder.mk.sizeOf_spec, Option.some.sizeOf_spec]
  omega

theorem Binder.nested_value {b : Binder} {value : Expr} (h : b.value = some value) :
    value.nested ⊆ b.nested :=
  (Binder.nested_subset.1 (List.Subset.refl _)).2 value h

theorem sizeOf_argumentValue (e : Expr) : sizeOf (argumentValue e) ≤ sizeOf e := by
  cases e with
  | bind b =>
    cases hv : b.value with
    | none =>
      rw [argumentValue, hv]
      exact Nat.le_refl _
    | some value =>
      have hlt := Binder.sizeOf_value hv
      rw [argumentValue, hv, Option.getD_some, Expr.bind.sizeOf_spec]
      omega
  | _ => exact Nat.le_refl _

theorem Call.contains_callee (c : Call) : (Expr.call c).Contains c.callee := by
  have hparts := Call.nested_subset.1 (List.Subset.refl c.nested)
  refine ⟨List.subset_cons_of_subset _ hparts.2.1, ?_⟩
  obtain ⟨id, types, callee, opening, inputs, closing⟩ := c
  simp only [Expr.call.sizeOf_spec, Call.mk.sizeOf_spec]
  omega

theorem Call.contains_argument {c : Call} {argument : Expr} (h : argument ∈ c.inputs) :
    (Expr.call c).Contains (argumentValue argument) := by
  have hparts := Call.nested_subset.1 (List.Subset.refl c.nested)
  refine ⟨nested_argumentValue (List.subset_cons_of_subset _ (hparts.2.2 argument h)), ?_⟩
  have hle := sizeOf_argumentValue argument
  have hlt := List.sizeOf_lt_of_mem h
  obtain ⟨id, types, callee, opening, inputs, closing⟩ := c
  simp only [Expr.call.sizeOf_spec, Call.mk.sizeOf_spec] at hlt ⊢
  omega

theorem Expr.contains_of_operands {e p : Expr} (h : p ∈ e.operands) : e.Contains p := by
  cases e with
  | list id opening items closing =>
    refine contains_of_mem (List.subset_cons_self _ _) ?_ h
    simp only [list.sizeOf_spec]
    omega
  | block id statements =>
    refine contains_of_mem (List.subset_cons_self _ _) ?_ h
    simp only [block.sizeOf_spec]
    omega
  | insert id table mark cells =>
    rcases List.mem_cons.1 h with rfl | h
    · refine ⟨List.subset_cons_of_subset _ (List.subset_append_left _ _), ?_⟩
      simp only [insert.sizeOf_spec]
      omega
    · obtain ⟨cell, hcell, hvalue⟩ := List.mem_filterMap.1 h
      have hnested := nestedInBinders_subset.1 (List.Subset.refl _) cell hcell
      have hlt := List.sizeOf_lt_of_mem hcell
      have hlt' := Binder.sizeOf_value hvalue
      refine ⟨List.subset_cons_of_subset _ (List.subset_append_of_subset_right _ ?_), ?_⟩
      · exact List.Subset.trans (Binder.nested_value hvalue) hnested
      · simp only [insert.sizeOf_spec]
        omega
  | bind b =>
    have hvalue := Option.mem_toList.1 h
    have hlt := Binder.sizeOf_value hvalue
    refine ⟨List.subset_cons_of_subset _ (Binder.nested_value hvalue), ?_⟩
    simp only [bind.sizeOf_spec]
    omega
  | conditional id condition question yes no =>
    simp only [operands, List.mem_cons, List.not_mem_nil, or_false] at h
    rcases h with rfl | rfl | rfl
    all_goals
      refine ⟨fun x hx => ?_, ?_⟩
      · rw [nested]
        simp [hx]
      · simp only [conditional.sizeOf_spec]
        omega
  | binary id left mark op right =>
    simp only [operands, List.mem_cons, List.not_mem_nil, or_false] at h
    rcases h with rfl | rfl
    all_goals
      refine ⟨fun x hx => ?_, ?_⟩
      · rw [nested]
        simp [hx]
      · simp only [binary.sizeOf_spec]
        omega
  | delete id table mark query =>
    obtain rfl := List.mem_singleton.1 h
    refine ⟨List.subset_cons_of_subset _ (List.subset_append_left _ _), ?_⟩
    simp only [delete.sizeOf_spec]
    omega
  | access id subject dot name =>
    obtain rfl := List.mem_singleton.1 h
    refine ⟨List.subset_cons_self _ _, ?_⟩
    simp only [access.sizeOf_spec]
    omega
  | unary id mark op operand =>
    obtain rfl := List.mem_singleton.1 h
    refine ⟨List.subset_cons_self _ _, ?_⟩
    simp only [unary.sizeOf_spec]
    omega
  | _ => cases h

/-- The parts of a call are contained in it, or are defaults that it writes out. -/
theorem Call.contains_or_default {c : Call} {ty : Ty} {p : Expr} (h : p ∈ c.partsFor ty) :
    (Expr.call c).Contains p ∨
      ∃ callee, Callee.ofTy? ty = some callee ∧ Slot.default p ∈ plan callee.inputs c.inputs := by
  unfold partsFor at h
  cases hc : Callee.ofTy? ty with
  | none =>
    rw [hc] at h
    cases h
  | some callee =>
    rw [hc] at h
    dsimp only at h
    split at h
    · cases h
    · rcases List.mem_append.1 h with h | h
      · obtain ⟨slot, hslot, hvalue⟩ := List.mem_flatMap.1 h
        rcases value_of_plan hslot hvalue with ⟨rfl, -⟩ | ⟨argument, hmem, rfl⟩
        · exact .inr ⟨callee, rfl, hslot⟩
        · exact .inl (c.contains_argument hmem)
      · obtain rfl := List.mem_singleton.1 h
        exact .inl c.contains_callee

/-- The parts of an expression are contained in it, or it is a call that writes them out.  To tell
them takes one query, and that only for a call. -/
theorem Expr.partsWith_cases {ctx : Context} {memo after : Memo} {ask : Ask} {e : Expr}
    {parts : List Expr} (h : e.partsWith ask ctx memo = some (parts, after)) :
    (after = memo ∧ ∀ p ∈ parts, e.Contains p) ∨
      ∃ c ty, e = .call c ∧ ask c.callee ctx memo = some (ty, after) ∧ parts = c.partsFor ty := by
  cases e with
  | call c =>
    obtain ⟨ty, mid, hty, h⟩ := bind_eq_some.1 h
    obtain ⟨rfl, rfl⟩ := pure_eq_some.1 h
    exact .inr ⟨c, ty, rfl, hty, rfl⟩
  | _ =>
    obtain ⟨rfl, rfl⟩ := pure_eq_some.1 h
    exact .inl ⟨rfl, fun p hp => contains_of_operands hp⟩

end Stepwise

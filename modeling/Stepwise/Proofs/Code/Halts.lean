import Stepwise.Proofs.Code.Inlining
import Stepwise.Proofs.Sample
import Stepwise.Proofs.Typing.Reported

/-!
# Halts in the place of calls

Code halts where a callee cannot be called, and where an input gets neither an argument nor a
default.  `mem_lower_iff` says where these halts come from: each stands in the code of a call that
lowering comes to, and the type of the callee tells which there are (`Call.haltsFor`).

Analysis asks about the same callees, so a program that has been checked has no halts of the first
kind, and halts of the second only where analysis does not compare a call with its callee
(`halts_of_checked`): where the inputs of the callee are not in order.  These are expected to be
reported where the callee is defined, but the inputs of written types never are (`Unordered.halts`).
-/

namespace Stepwise

open Query Relation

/-- Whether an instruction ends the evaluation on account of a call. -/
def Instruction.refusesCall : Instruction → Bool
  | .halt _ (.notCallable _) => true
  | .halt _ (.missingInput _) => true
  | _ => false

/-- The halts in the place of the inputs that get nothing. -/
def missingHalts (id : NodeId) (slots : List Slot) : Code :=
  (slots.filterMap Slot.missing?).map fun input => .halt id (.missingInput input.primaryName)

/-- The halts in the code of a call itself, when its callee has the type. -/
def Call.haltsFor (c : Call) (ty : Ty) : Code :=
  match Callee.ofTy? ty with
  | none => [.halt c.id (.notCallable c.callee.describe)]
  | some callee =>
    if c.callee.isUnparsable || c.inputs.any Expr.isUnparsable then []
    else missingHalts c.id (plan callee.inputs c.inputs)

/-- The instruction is in the code of one of the expressions, lowered one after the other. -/
inductive Occurs (lower : Expr → Query Code) (ctx : Context) (i : Instruction) :
    Memo → List Expr → Prop
  | here {memo mid : Memo} {e : Expr} {rest : List Expr} {code : Code}
      (h : lower e ctx memo = some (code, mid)) (hi : i ∈ code) :
      Occurs lower ctx i memo (e :: rest)
  | later {memo mid : Memo} {e : Expr} {rest : List Expr} (h : (lower e).LeadsTo ctx memo mid)
      (hrest : Occurs lower ctx i mid rest) : Occurs lower ctx i memo (e :: rest)

section Parts

variable {lower : Expr → Query Code} {ctx : Context} {i : Instruction} {memo mid after : Memo}
  {code : Code}

theorem occurs_nil : ¬ Occurs lower ctx i memo [] :=
  fun h => nomatch h

theorem occurs_cons {e : Expr} {rest : List Expr} (h : lower e ctx memo = some (code, mid)) :
    Occurs lower ctx i memo (e :: rest) ↔ i ∈ code ∨ Occurs lower ctx i mid rest := by
  constructor
  · rintro (⟨h', hi⟩ | ⟨⟨code', h'⟩, hrest⟩)
    · obtain ⟨rfl, rfl⟩ := Prod.mk.inj (Option.some.inj (h.symm.trans h'))
      exact .inl hi
    · obtain ⟨rfl, rfl⟩ := Prod.mk.inj (Option.some.inj (h.symm.trans h'))
      exact .inr hrest
  · rintro (hi | hrest)
    · exact .here h hi
    · exact .later ⟨code, h⟩ hrest

theorem occurs_singleton {e : Expr} (h : lower e ctx memo = some (code, mid)) :
    Occurs lower ctx i memo [e] ↔ i ∈ code := by
  rw [occurs_cons h]
  exact or_iff_left occurs_nil

theorem mem_lowerAll {es : List Expr} (h : lowerAll lower es ctx memo = some (code, after)) :
    i ∈ code ↔ Occurs lower ctx i memo es := by
  induction es generalizing memo code with
  | nil =>
    obtain ⟨rfl, rfl⟩ := pure_eq_some.1 h
    exact iff_of_false List.not_mem_nil occurs_nil
  | cons e rest ih =>
    obtain ⟨first, mid, hfirst, h⟩ := bind_eq_some.1 h
    obtain ⟨others, last, hothers, h⟩ := bind_eq_some.1 h
    obtain ⟨rfl, rfl⟩ := pure_eq_some.1 h
    rw [List.mem_append, occurs_cons hfirst, ih hothers]

theorem occurs_append {es fs : List Expr} (h : (lowerAll lower es).LeadsTo ctx memo mid) :
    Occurs lower ctx i memo (es ++ fs) ↔
      Occurs lower ctx i memo es ∨ Occurs lower ctx i mid fs := by
  induction es generalizing memo with
  | nil =>
    obtain rfl := leadsTo_lowerAll_nil.1 h
    exact (or_iff_right occurs_nil).symm
  | cons e rest ih =>
    obtain ⟨next, ⟨code, he⟩, hrest⟩ := leadsTo_lowerAll_cons.1 h
    rw [List.cons_append, occurs_cons he, occurs_cons he, ih hrest, or_assoc]

/-- What lowers before the expression leads to the memo that it is lowered in. -/
theorem Occurs.split {es : List Expr} (h : Occurs lower ctx i memo es) :
    ∃ before e rest start code last, es = before ++ e :: rest ∧
      (lowerAll lower before).LeadsTo ctx memo start ∧ lower e ctx start = some (code, last) ∧
        i ∈ code := by
  induction h with
  | @here memo mid e rest code h hi =>
    exact ⟨[], e, rest, memo, code, mid, rfl, leadsTo_lowerAll_nil.2 rfl, h, hi⟩
  | @later memo mid e rest h _ ih =>
    obtain ⟨before, other, rest, start, code, last, rfl, hbefore, hcode, hi⟩ := ih
    exact ⟨e :: before, other, rest, start, code, last, rfl,
      leadsTo_lowerAll_cons.2 ⟨mid, h, hbefore⟩, hcode, hi⟩

/-! ## Calls -/

theorem mem_lowerSlot {id : NodeId} {slot : Slot}
    (h : lowerSlot lower id slot ctx memo = some (code, after)) :
    i ∈ code ↔ i ∈ missingHalts id [slot] ∨ Occurs lower ctx i memo slot.values := by
  cases slot with
  | given value =>
    have hvalue : lower value ctx memo = some (code, after) := h
    exact ((or_iff_right List.not_mem_nil).trans (occurs_singleton hvalue)).symm
  | default value =>
    have hvalue : lower value ctx memo = some (code, after) := h
    exact ((or_iff_right List.not_mem_nil).trans (occurs_singleton hvalue)).symm
  | missing input =>
    obtain ⟨rfl, -⟩ := pure_eq_some.1 h
    exact (or_iff_left occurs_nil).symm
  | rest values => exact (mem_lowerAll h).trans (or_iff_right List.not_mem_nil).symm

theorem mem_lowerSlots {id : NodeId} {slots : List Slot}
    (h : lowerSlots lower id slots ctx memo = some (code, after)) :
    i ∈ code ↔ i ∈ missingHalts id slots ∨ Occurs lower ctx i memo (slots.flatMap Slot.values) := by
  induction slots generalizing memo code with
  | nil =>
    obtain ⟨rfl, -⟩ := pure_eq_some.1 h
    exact ((or_iff_right List.not_mem_nil).trans (iff_of_false occurs_nil List.not_mem_nil)).symm
  | cons slot slots ih =>
    obtain ⟨first, mid, hfirst, h⟩ := bind_eq_some.1 h
    obtain ⟨others, last, hothers, h⟩ := bind_eq_some.1 h
    obtain ⟨rfl, rfl⟩ := pure_eq_some.1 h
    have hleads := leadsTo_lowerSlot.1 ⟨first, hfirst⟩
    have hhalts : missingHalts id (slot :: slots) =
        missingHalts id [slot] ++ missingHalts id slots := by
      rw [missingHalts, missingHalts, missingHalts, ← List.map_append, ← List.filterMap_append]
      rfl
    rw [List.mem_append, mem_lowerSlot hfirst, ih hothers, List.flatMap_cons,
      occurs_append hleads, hhalts, List.mem_append]
    exact or_or_or_comm

theorem mem_lowerCall {ask : Ask} {c : Call} (hi : i.refusesCall = true)
    (h : lowerCall ask lower c ctx memo = some (code, after)) :
    i ∈ code ↔ ∃ ty mid, ask c.callee ctx memo = some (ty, mid) ∧
      (i ∈ c.haltsFor ty ∨ Occurs lower ctx i mid (c.partsFor ty)) := by
  obtain ⟨ty, mid, hty, h⟩ := bind_eq_some.1 h
  suffices hown : i ∈ code ↔ i ∈ c.haltsFor ty ∨ Occurs lower ctx i mid (c.partsFor ty) by
    rw [hown]
    constructor
    · exact fun h => ⟨ty, mid, hty, h⟩
    · rintro ⟨ty', mid', hty', h⟩
      obtain ⟨rfl, rfl⟩ := Prod.mk.inj (Option.some.inj (hty.symm.trans hty'))
      exact h
  unfold Call.haltsFor Call.partsFor
  cases hc : Callee.ofTy? ty with
  | none =>
    rw [hc] at h
    obtain ⟨rfl, -⟩ := pure_eq_some.1 h
    exact (or_iff_left occurs_nil).symm
  | some callee =>
    rw [hc] at h
    dsimp only at h ⊢
    by_cases hparsed : (c.callee.isUnparsable || c.inputs.any Expr.isUnparsable) = true
    · rw [if_pos hparsed] at h ⊢
      rw [if_pos hparsed]
      obtain ⟨rfl, -⟩ := pure_eq_some.1 h
      refine iff_of_false (fun hmem => ?_) (not_or.2 ⟨List.not_mem_nil, occurs_nil⟩)
      rw [List.mem_singleton.1 hmem] at hi
      cases hi
    · rw [if_neg hparsed] at h ⊢
      rw [if_neg hparsed]
      obtain ⟨arguments, next, harguments, h⟩ := bind_eq_some.1 h
      obtain ⟨calleeCode, last, hcallee, h⟩ := bind_eq_some.1 h
      obtain ⟨rfl, rfl⟩ := pure_eq_some.1 h
      have hleads := leadsTo_lowerSlots.1 ⟨arguments, harguments⟩
      have hmarks : i ∈ enclose (.call c) (arguments ++ calleeCode) ↔
          i ∈ arguments ∨ i ∈ calleeCode := by
        have hstart : i ≠ .start (.call c) := by rintro rfl; cases hi
        have hfinish : i ≠ .finish (.call c) := by rintro rfl; cases hi
        simp [enclose, hstart, hfinish]
      rw [hmarks, mem_lowerSlots harguments, occurs_append hleads, occurs_singleton hcallee,
        or_assoc]

/-! ## Other expressions -/

theorem mem_lowerValue {b : Binder} (hi : i.refusesCall = true)
    (h : lowerValue lower b ctx memo = some (code, after)) :
    i ∈ code ↔ Occurs lower ctx i memo b.value.toList := by
  unfold lowerValue at h
  cases hv : b.value with
  | some value =>
    rw [hv] at h
    have hvalue : lower value ctx memo = some (code, after) := h
    exact (occurs_singleton hvalue).symm
  | none =>
    rw [hv] at h
    obtain ⟨rfl, -⟩ := pure_eq_some.1 h
    refine iff_of_false (fun hmem => ?_) occurs_nil
    rw [List.mem_singleton.1 hmem] at hi
    cases hi

theorem mem_lowerValues {bs : List Binder} (hi : i.refusesCall = true)
    (h : lowerValues lower bs ctx memo = some (code, after)) :
    i ∈ code ↔ Occurs lower ctx i memo (bs.filterMap Binder.value) := by
  induction bs generalizing memo code with
  | nil =>
    obtain ⟨rfl, -⟩ := pure_eq_some.1 h
    exact iff_of_false List.not_mem_nil occurs_nil
  | cons b rest ih =>
    obtain ⟨first, mid, hfirst, h⟩ := bind_eq_some.1 h
    obtain ⟨others, last, hothers, h⟩ := bind_eq_some.1 h
    obtain ⟨rfl, rfl⟩ := pure_eq_some.1 h
    have hvalues : (b :: rest).filterMap Binder.value =
        b.value.toList ++ rest.filterMap Binder.value := by
      cases hv : b.value <;> simp [hv]
    have hleads := leadsTo_lowerValue.1 ⟨first, hfirst⟩
    rw [List.mem_append, mem_lowerValue hi hfirst, ih hothers, hvalues, occurs_append hleads]

/-- The markers of an expression are no halts. -/
theorem mem_enclose {e : Expr} {body : Code} (hi : i.refusesCall = true) :
    i ∈ enclose e body ↔ i ∈ body := by
  have hstart : i ≠ .start e := by rintro rfl; cases hi
  have hfinish : i ≠ .finish e := by rintro rfl; cases hi
  simp [enclose, hstart, hfinish]

theorem mem_conditionalCode {id : NodeId} {condition yes no : Code} (hi : i.refusesCall = true) :
    i ∈ conditionalCode id condition yes no ↔ i ∈ yes ∨ i ∈ no ∨ i ∈ condition := by
  have hskip : i ≠ .jumpIfFalse yes.length id := by rintro rfl; cases hi
  have hjump : i ≠ .jump no.length id := by rintro rfl; cases hi
  simp only [conditionalCode, List.mem_append, List.mem_cons, hskip, hjump, false_or]
  rw [or_assoc, or_comm (a := i ∈ condition), or_assoc]

/-- Expressions that are no calls tell their parts without a query. -/
theorem partsWith_eq {ask : Ask} {e : Expr} (h : ∀ c, e ≠ .call c) :
    e.partsWith ask ctx memo = some (e.operands, memo) := by
  cases e with
  | call c => exact absurd rfl (h c)
  | _ => rfl

/-- A halt on account of a call is in the code of a part, unless it is one of the call itself. -/
theorem mem_lowerWith {ask : Ask} {e : Expr} (hi : i.refusesCall = true)
    (h : e.lowerWith ask lower ctx memo = some (code, after)) :
    i ∈ code ↔
      (∃ c ty mid, e = .call c ∧ ask c.callee ctx memo = some (ty, mid) ∧ i ∈ c.haltsFor ty) ∨
      ∃ parts mid, e.partsWith ask ctx memo = some (parts, mid) ∧ Occurs lower ctx i mid parts := by
  have operands (hcall : ∀ c, e ≠ .call c) (hown : i ∈ code ↔ Occurs lower ctx i memo e.operands) :
      i ∈ code ↔ (∃ c ty mid, e = .call c ∧ ask c.callee ctx memo = some (ty, mid) ∧
        i ∈ c.haltsFor ty) ∨
        ∃ parts mid, e.partsWith ask ctx memo = some (parts, mid) ∧
          Occurs lower ctx i mid parts := by
    rw [hown]
    constructor
    · intro hoccurs
      exact .inr ⟨e.operands, memo, partsWith_eq hcall, hoccurs⟩
    · rintro (⟨c, ty, mid, rfl, -⟩ | ⟨parts, mid, hparts, hoccurs⟩)
      · exact absurd rfl (hcall c)
      · obtain ⟨rfl, rfl⟩ := Prod.mk.inj (Option.some.inj (hparts.symm.trans (partsWith_eq hcall)))
        exact hoccurs
  cases e with
  | call c =>
    rw [mem_lowerCall hi h]
    constructor
    · rintro ⟨ty, mid, hty, hhalt | hoccurs⟩
      · exact .inl ⟨c, ty, mid, rfl, hty, hhalt⟩
      · exact .inr ⟨c.partsFor ty, mid, bind_eq_some.2 ⟨ty, mid, hty, rfl⟩, hoccurs⟩
    · rintro (⟨c', ty, mid, hc, hty, hhalt⟩ | ⟨parts, mid, hparts, hoccurs⟩)
      · obtain rfl := Expr.call.inj hc
        exact ⟨ty, mid, hty, .inl hhalt⟩
      · obtain ⟨ty, mid', hty, hpure⟩ := bind_eq_some.1 hparts
        obtain ⟨rfl, rfl⟩ := pure_eq_some.1 hpure
        exact ⟨ty, _, hty, .inr hoccurs⟩
  | conditional id condition question yes no =>
    obtain ⟨yesCode, mid, hyes, h⟩ := bind_eq_some.1 h
    obtain ⟨noCode, mid', hno, h⟩ := bind_eq_some.1 h
    obtain ⟨conditionCode, last, hcondition, h⟩ := bind_eq_some.1 h
    obtain ⟨rfl, rfl⟩ := pure_eq_some.1 h
    refine operands (fun _ => Expr.noConfusion) ?_
    rw [mem_conditionalCode hi, Expr.operands, occurs_cons hyes, occurs_cons hno,
      occurs_singleton hcondition]
  | insert id table mark cells =>
    obtain ⟨tableCode, mid, htable, h⟩ := bind_eq_some.1 h
    obtain ⟨cellCode, last, hcells, h⟩ := bind_eq_some.1 h
    obtain ⟨rfl, rfl⟩ := pure_eq_some.1 h
    refine operands (fun _ => Expr.noConfusion) ?_
    rw [mem_enclose hi, List.mem_append, mem_lowerValues hi hcells, Expr.operands,
      occurs_cons htable]
  | list | block | binary =>
    obtain ⟨body, last, hbody, h⟩ := bind_eq_some.1 h
    obtain ⟨rfl, rfl⟩ := pure_eq_some.1 h
    exact operands (fun _ => Expr.noConfusion) ((mem_enclose hi).trans (mem_lowerAll hbody))
  | delete | access | unary =>
    obtain ⟨body, last, hbody, h⟩ := bind_eq_some.1 h
    obtain ⟨rfl, rfl⟩ := pure_eq_some.1 h
    exact operands (fun _ => Expr.noConfusion)
      ((mem_enclose hi).trans (occurs_singleton hbody).symm)
  | bind b =>
    obtain ⟨body, last, hbody, h⟩ := bind_eq_some.1 h
    obtain ⟨rfl, rfl⟩ := pure_eq_some.1 h
    exact operands (fun _ => Expr.noConfusion) ((mem_enclose hi).trans (mem_lowerValue hi hbody))
  | _ =>
    obtain ⟨rfl, rfl⟩ := pure_eq_some.1 h
    refine operands (fun _ => Expr.noConfusion) (iff_of_false (fun hmem => ?_) occurs_nil)
    rw [List.mem_singleton.1 hmem] at hi
    cases hi

end Parts

namespace Lowering

variable {ctx : Context} {i : Instruction}

/-- Where halts on account of calls come from: each is in the code of a call that lowering comes to,
and follows from the type of its callee. -/
theorem mem_lower_iff (hi : i.refusesCall = true) {budget : Nat} {e : Expr} {memo after : Memo}
    {code : Code} (h : e.lower budget ctx memo = some (code, after)) :
    i ∈ code ↔ ∃ l c ty mid, ReflTransGen (Needs ctx) ⟨e, memo⟩ l ∧ l.expr = .call c ∧
      Gives (fun n => c.callee.typeOf n) ctx l.memo ty mid ∧ i ∈ c.haltsFor ty := by
  induction budget generalizing e memo after code with
  | zero => cases h
  | succ budget ih =>
    rw [mem_lowerWith hi h]
    constructor
    · rintro (⟨c, ty, mid, rfl, hty, hmem⟩ | ⟨parts, mid, hparts, hoccurs⟩)
      · exact ⟨⟨.call c, memo⟩, c, ty, mid, .refl, rfl, ⟨budget, hty⟩, hmem⟩
      · obtain ⟨before, p, rest, start, code', last, rfl, hbefore, hcode, hmem⟩ := hoccurs.split
        obtain ⟨l, c, ty, mid', hl, hc, hty, hhalt⟩ := (ih hcode).1 hmem
        exact ⟨l, c, ty, mid', .head (.part ⟨budget, hparts⟩ ⟨budget, hbefore⟩) hl, hc, hty, hhalt⟩
    · rintro ⟨l, c, ty, mid, hl, hc, hty, hhalt⟩
      rcases hl.cases_head with rfl | ⟨d, hneeds, hrest⟩
      · obtain rfl : e = .call c := hc
        obtain ⟨ty', mid', hty', -⟩ := bind_eq_some.1 h
        obtain ⟨rfl, -⟩ := Gives.unique (steady_typeOf c.callee) hty ⟨budget, hty'⟩
        exact .inl ⟨c, _, mid', rfl, hty', hhalt⟩
      · -- The parts are the same as those that the code has been made of.
        cases hneeds with
        | @part _ p _ start' start before rest hparts hbefore =>
          obtain ⟨parts, mid', hparts', hcodes⟩ := leadsTo_bind.1 (leadsTo_lowerWith.1 ⟨code, h⟩)
          obtain ⟨rfl, rfl⟩ := Gives.unique (steady_partsWith e) hparts ⟨budget, hparts'⟩
          obtain ⟨next, hbefore', hcodes⟩ := leadsTo_lowerAll_append.1 hcodes
          obtain rfl : next = start := hbefore.unique ⟨budget, hbefore'⟩
          obtain ⟨last, ⟨code', hcode⟩, -⟩ := leadsTo_lowerAll_cons.1 hcodes
          have hmem : i ∈ code' := (ih hcode).2 ⟨l, c, ty, mid, hrest, hc, hty, hhalt⟩
          refine .inr ⟨_, _, hparts', (occurs_append hbefore').2 (.inr (.here hcode hmem))⟩

end Lowering

/-! ## Calls in checked programs -/

theorem Slot.missing?_eq_some {slot : Slot} {input : Binder} :
    slot.missing? = some input ↔ slot = .missing input := by
  cases slot <;> simp [missing?]

theorem mem_missingHalts {id node : NodeId} {slots : List Slot} {name : String} :
    .halt node (.missingInput name) ∈ missingHalts id slots ↔
      ∃ input, .missing input ∈ slots ∧ node = id ∧ name = input.primaryName := by
  simp only [missingHalts, List.mem_map, List.mem_filterMap, Slot.missing?_eq_some,
    Instruction.halt.injEq, HaltReason.missingInput.injEq]
  constructor
  · rintro ⟨input, ⟨slot, hslot, rfl⟩, rfl, rfl⟩
    exact ⟨input, hslot, rfl, rfl⟩
  · rintro ⟨input, hslot, rfl, rfl⟩
    exact ⟨input, ⟨_, hslot, rfl⟩, rfl, rfl⟩

/-- If a call leaves out an input without a default, then checking closes with such an input. -/
theorem exists_closing (call : Call) {inputs : List Binder} {pool : List Expr} {input : Binder}
    (h : Slot.missing input ∈ plan inputs pool) :
    ∃ first, closing call inputs pool = [missingConflict call first] := by
  have hsome : ((plan inputs pool).findSome? Slot.missing?).isSome = true :=
    List.findSome?_isSome_iff.2 ⟨_, h, rfl⟩
  obtain ⟨first, hfirst⟩ := Option.isSome_iff_exists.1 hsome
  exact ⟨first, by rw [closing, hfirst]⟩

/-- Calling a structure with abstract functions is no minor conflict. -/
theorem not_minor_of_abstractConflict {c : Call} {callee : Callee} {conflict : Conflict}
    (h : conflict ∈ abstractConflict c callee) : conflict.isMinor = false := by
  cases callee with
  | function => cases h
  | struct definition args =>
    unfold abstractConflict at h
    dsimp only at h
    split at h
    · cases h
    · rw [List.mem_singleton.1 h]

/-- A call whose conflicts are all minor can be called, and gives an argument for each input that
needs one, if the inputs are in order. -/
theorem Call.complete_of_minor {budget : Nat} {ctx : Context} {memo after : Memo} {c : Call}
    {own : List Conflict} (hcallee : c.callee.isUnparsable = false)
    (harguments : ∀ argument ∈ c.inputs, (argumentValue argument).isUnparsable = false)
    (h : c.conflicts budget ctx memo = some (own, after)) (hminor : ∀ x ∈ own, x.isMinor = true) :
    ∃ ty mid callee, c.callee.typeOf budget ctx memo = some (ty, mid) ∧ mid.Grows after ∧
      Callee.ofTy? ty = some callee ∧
      (inputListConflicts callee.inputs = [] → ∀ input,
        Slot.missing input ∉ plan callee.inputs c.inputs) := by
  unfold conflicts at h
  rw [hcallee] at h
  obtain ⟨ty, mid, hty, h⟩ := bind_eq_some.1 h
  cases hc : Callee.ofTy? ty with
  | none =>
    simp only [hc] at h
    obtain ⟨rfl, -⟩ := pure_eq_some.1 h
    cases hminor _ (List.mem_singleton.2 rfl)
  | some callee =>
    simp only [hc] at h
    cases habstract : abstractConflict c callee with
    | cons conflict rest =>
      simp only [habstract] at h
      obtain ⟨rfl, rfl⟩ := pure_eq_some.1 h
      have hmajor : conflict.isMinor = false :=
        not_minor_of_abstractConflict (habstract ▸ List.mem_cons_self)
      have hmin := hminor conflict List.mem_cons_self
      rw [hmajor] at hmin
      cases hmin
    | nil =>
      simp only [habstract] at h
      by_cases hcheckable : isCheckable c callee = true
      · rw [if_pos hcheckable] at h
        have hgrows :=
          (settles_checkInputs (Nat.le_refl budget) c callee callee.inputs c.inputs).grows h
        refine ⟨ty, mid, callee, hty, hgrows, hc, fun _ input hmem => ?_⟩
        obtain ⟨single, rfl, -⟩ := checkInputs_eq_some h
        obtain ⟨first, hclosing⟩ := exists_closing c hmem
        have hmin := hminor (missingConflict c first) (by simp [hclosing])
        cases hmin
      · rw [if_neg hcheckable] at h
        obtain ⟨-, rfl⟩ := pure_eq_some.1 h
        refine ⟨ty, mid, callee, hty, .refl mid, hc, fun horder => absurd ?_ hcheckable⟩
        simp only [isCheckable, horder, List.isEmpty_nil, Bool.true_and, List.all_eq_true,
          Bool.not_eq_true']
        exact harguments

namespace Lowering

variable {ctx : Context} {l d : Lowering}

/-- The expression is a call that leaves out an input without a default, and the inputs of its
callee are not in order. -/
def LeavesOut (ctx : Context) (l : Lowering) (c : Call) (input : Binder) : Prop :=
  l.expr = .call c ∧ ∃ ty mid callee, Gives (fun n => c.callee.typeOf n) ctx l.memo ty mid ∧
    Callee.ofTy? ty = some callee ∧ Slot.missing input ∈ plan callee.inputs c.inputs ∧
      inputListConflicts callee.inputs ≠ []

theorem Needs.grows (h : l.Needs ctx d) : l.memo.Grows d.memo := by
  cases h with
  | @part e p memo mid after before rest hparts hbefore =>
    exact (hparts.grows (steady_partsWith e)).trans hbefore.grows

theorem grows_of_reach (h : ReflTransGen (Needs ctx) l d) : l.memo.Grows d.memo := by
  induction h with
  | refl => exact .refl _
  | tail _ hneeds ih => exact ih.trans hneeds.grows

theorem Within.reach {es : List Expr} (hctx : ctx.Within es) (hl : l.Within es)
    (h : ReflTransGen (Needs ctx) l d) : d.Within es := by
  induction h with
  | refl => exact hl
  | tail _ hneeds ih => exact hneeds.within hctx ih

end Lowering

/-- What the names of the program stand for is made of its expressions. -/
theorem Program.within_nested (program : Program) :
    Context.Within { lexicon := program.lexicon } program.root.nested := by
  intro name d hd
  have hd : program.lexicon.find? name = some d := by simpa [Context.find?] using hd
  exact Lexicon.find?_ofExpr_nested hd

/-- The halts in the code of a program that has been checked.  No callee is one that cannot be
called.  An input has a halt in its place just if lowering comes to a call that leaves it out, and
whose callee has inputs that are not in order: such a call has not been compared with its callee.

Nothing in the program stands for text that could not be parsed, and analysis has come to all calls
in the names of the program. -/
theorem halts_of_checked {program : Program} {ctx : Context} {memo after later : Memo}
    (hctx : ctx = { lexicon := program.lexicon })
    (hparsed : ∀ e ∈ program.root.nested, e.isUnparsable = false)
    (hanalysed : ∀ c, .call c ∈ program.root.nested → .call c ∈ program.root.analysed)
    (hrest : memo.AtRest) (hcheck : Gives (fun n => program.check n) ctx memo (.ok ()) after)
    (hlater : after.Extends later) (hknown : later.Known ctx program.root.nested) {e : Expr}
    (he : e.nested ⊆ program.root.nested) {code : Code} {last : Memo}
    (hlower : Gives (fun n => e.lower n) ctx later code last) (node : NodeId) (name : String) :
    .halt node (.notCallable name) ∉ code ∧
      (.halt node (.missingInput name) ∈ code ↔
        ∃ l c input, ReflTransGen (Lowering.Needs ctx) ⟨e, later⟩ l ∧ l.LeavesOut ctx c input ∧
          node = c.id ∧ name = input.primaryName) := by
  have hwithin : ctx.Within program.root.nested := hctx ▸ program.within_nested
  obtain ⟨budget, hminor⟩ := Program.reported_of_check hcheck
  obtain ⟨budget', hlower⟩ := hlower
  -- The callee of a call that lowering comes to has the type that analysis has found for it.
  have hcalls {l : Lowering} {c : Call} {ty : Ty} {mid : Memo}
      (hl : ReflTransGen (Lowering.Needs ctx) ⟨e, later⟩ l) (hc : l.expr = .call c)
      (hty : Gives (fun n => c.callee.typeOf n) ctx l.memo ty mid) :
      ∃ callee, Callee.ofTy? ty = some callee ∧
        (c.callee.isUnparsable || c.inputs.any Expr.isUnparsable) = false ∧
        (inputListConflicts callee.inputs = [] → ∀ input,
          Slot.missing input ∉ plan callee.inputs c.inputs) := by
    have hnested : (Expr.call c).nested ⊆ program.root.nested :=
      hc ▸ (Lowering.Within.reach hwithin ⟨he, hknown.within hwithin⟩ hl).expr
    have hparts := Call.nested_subset.1 (List.Subset.refl c.nested)
    have hown : c.nested ⊆ program.root.nested := fun x hx => hnested (List.mem_cons_of_mem _ hx)
    have hcallee : c.callee.isUnparsable = false :=
      hparsed _ (hown (hparts.2.1 c.callee.mem_nested_self))
    have hinputs : ∀ argument ∈ c.inputs, argument.isUnparsable = false := fun argument hmem =>
      hparsed _ (hown (hparts.2.2 argument hmem argument.mem_nested_self))
    have harguments : ∀ argument ∈ c.inputs, (argumentValue argument).isUnparsable = false := by
      intro argument hmem
      have hvalue := nested_argumentValue (List.Subset.trans (hparts.2.2 argument hmem) hown)
      exact hparsed _ (hvalue (argumentValue argument).mem_nested_self)
    obtain ⟨start, own, end', hstart, hconflicts, hend, hown⟩ :=
      hminor (.call c) (hanalysed c (hnested (Expr.mem_nested_self _)))
    obtain ⟨ty', mid', callee, hty', hgrows, hof, hcomplete⟩ :=
      Call.complete_of_minor hcallee harguments hconflicts hown
    have hextends : mid'.Extends l.memo := by
      have hreach := Lowering.grows_of_reach hl
      refine .of_grows (hgrows.trans hend) ⟨hreach.atRest hlater.atRest, fun id found hfound => ?_⟩
      exact hreach.keeps id found (hlater.keeps id found hfound)
    have hagain :=
      Gives.again (steady_typeOf c.callee) (hstart.atRest hrest) ⟨budget, hty'⟩ hextends
    obtain ⟨rfl, -⟩ := Gives.unique (steady_typeOf c.callee) hagain hty
    refine ⟨callee, hof, ?_, hcomplete⟩
    rw [hcallee, Bool.false_or, List.any_eq_false]
    exact fun argument hmem => by simp [hinputs argument hmem]
  constructor
  · intro hmem
    obtain ⟨l, c, ty, mid, hl, hc, hty, hhalt⟩ := (Lowering.mem_lower_iff rfl hlower).1 hmem
    obtain ⟨callee, hof, hplain, -⟩ := hcalls hl hc hty
    rw [Call.haltsFor, hof] at hhalt
    simp only [hplain, Bool.false_eq_true, if_false, missingHalts, List.mem_map] at hhalt
    obtain ⟨input, -, hhalt⟩ := hhalt
    cases hhalt
  · rw [Lowering.mem_lower_iff rfl hlower]
    constructor
    · rintro ⟨l, c, ty, mid, hl, hc, hty, hhalt⟩
      obtain ⟨callee, hof, hplain, hcomplete⟩ := hcalls hl hc hty
      rw [Call.haltsFor, hof] at hhalt
      simp only [hplain, Bool.false_eq_true, if_false] at hhalt
      obtain ⟨input, hmem, hnode, hname⟩ := mem_missingHalts.1 hhalt
      have horder : inputListConflicts callee.inputs ≠ [] := fun h => hcomplete h input hmem
      exact ⟨l, c, input, hl, ⟨hc, ty, mid, callee, hty, hof, hmem, horder⟩, hnode, hname⟩
    · rintro ⟨l, c, input, hl, ⟨hc, ty, mid, callee, hty, hof, hmem, -⟩, hnode, hname⟩
      obtain ⟨callee', hof', hplain, -⟩ := hcalls hl hc hty
      obtain rfl := Option.some.inj (hof.symm.trans hof')
      refine ⟨l, c, ty, mid, hl, hc, hty, ?_⟩
      rw [Call.haltsFor, hof]
      simp only [hplain, Bool.false_eq_true, if_false]
      exact mem_missingHalts.2 ⟨input, hmem, hnode, hname⟩

namespace Unordered

/-- The last input. -/
def required : Binder :=
  binderOf 9 "y" (some .boolean) none

/-- The function `ƒ h(a•? b•?) ? a`. -/
def function : Expr :=
  .function (functionOf 2 "h" [binderOf 3 "a" (some .boolean) none,
    binderOf 4 "b" (some .boolean) none] (some .boolean) (some (referenceOf 5 "a")))

/-- The inputs `x•?: ⊥ y•?`, which are not in order. -/
def inputs : List Binder :=
  [binderOf 7 "x" (some .boolean) (some (booleanOf 8 false)), required]

/-- The function under another name, with a written type that has these inputs. -/
def renamed : Expr :=
  .bind (binderOf 6 "g" (some (.function [] inputs .boolean)) (some (referenceOf 10 "h")))

/-- The program `ƒ h(a•? b•?) ? a, g•ƒ(x•?: ⊥ y•?) ?: h, g()`. -/
def program : Program :=
  ⟨.block ⟨1⟩ [function, renamed, callOf 11 12 "g"]⟩

/-- Where the program is checked and lowered. -/
def context : Context :=
  { lexicon := program.lexicon }

theorem parsed : ∀ e ∈ program.root.nested, e.isUnparsable = false := by
  decide

/-- What is known when the program has been checked, and its code. -/
theorem checked : ∃ memo code last,
    Gives (fun n => program.check n) context .empty (.ok ()) memo ∧ memo.AtRest ∧
      Gives (fun n => program.lower n) context memo code last ∧
        .halt ⟨11⟩ (.missingInput "y") ∈ code := by
  refine ⟨_, _, _, ⟨20, rfl⟩, rfl, ⟨20, rfl⟩, ?_⟩
  have hname : (required.resolveNames context).primaryName = "y" := rfl
  simp [enclose, hname, callWith]

/-- Nothing in the program stands for text that could not be parsed, and it is checked.  Its code
halts in the place of `y` all the same: the call is not compared with inputs that are not in order,
and these are inputs of a written type, whose order nothing reports. -/
theorem halts : (∀ e ∈ program.root.nested, e.isUnparsable = false) ∧
    ∃ memo code last, Gives (fun n => program.check n) context .empty (.ok ()) memo ∧
      Gives (fun n => program.root.lower n) context memo code last ∧
        .halt ⟨11⟩ (.missingInput "y") ∈ code := by
  obtain ⟨memo, code, last, hcheck, -, hlower, hmem⟩ := checked
  exact ⟨parsed, memo, code, last, hcheck, hlower, hmem⟩

/-- The halt in the code of the program is there for a call that leaves out an input, and none is
there for a callee that cannot be called. -/
theorem halts_of_checked_renamed :
    ∃ memo code last, Gives (fun n => program.check n) context .empty (.ok ()) memo ∧
      Gives (fun n => program.root.lower n) context memo code last ∧
      (∀ node name, .halt node (.notCallable name) ∉ code) ∧
      ∃ l c input, ReflTransGen (Lowering.Needs context) ⟨program.root, memo⟩ l ∧
        l.LeavesOut context c input ∧ c.id = ⟨11⟩ ∧ input.primaryName = "y" := by
  obtain ⟨memo, code, last, hcheck, hrest, hlower, hmem⟩ := checked
  have hanalysed : program.root.nested = program.root.analysed := rfl
  have hknown : memo.Known context program.root.nested :=
    .check (fun _ _ hd => Lexicon.find?_ofExpr_nested hd) (List.Subset.refl _) .lexicon .empty
      hcheck
  have hhalts := halts_of_checked rfl parsed (fun c hc => hanalysed ▸ hc) Memo.atRest_empty hcheck
    (.refl hrest) hknown (List.Subset.refl _) hlower
  obtain ⟨l, c, input, hl, hleaves, hnode, hname⟩ := (hhalts ⟨11⟩ "y").2.1 hmem
  exact ⟨memo, code, last, hcheck, hlower, fun node name => (hhalts node name).1, l, c, input, hl,
    hleaves, hnode.symm, hname.symm⟩

end Unordered

end Stepwise

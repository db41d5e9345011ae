import Stepwise.Proofs.Code.Origins
import Stepwise.Proofs.Code.Parts
import Stepwise.Proofs.Sample
import Stepwise.Proofs.Typing.Termination

/-!
# When lowering ends

A call writes out the defaults of the inputs that it gives no argument, and a default may be a call
in turn.  Nothing stops the lowering of a default that comes to a call of the function which it is a
default of, so lowering may go on for ever even for a program without conflicts.

`Lowering.Needs` relates a lowering to those that it comes to.  `lowering_ends_iff` is the result: a
lowering ends if and only if the types of all callees that it comes to can be found and no
expression comes back while it is lowered; and on the way back of one that does, a default is
written out.  `ownDefault` is a program that is checked and cannot be lowered: a function with a
call of itself as the default of its only input.
-/

namespace Stepwise

open Query Relation

/-- A lowering: an expression, and what is known when it is lowered. -/
structure Lowering where
  expr : Expr
  memo : Memo

theorem steady_lower (e : Expr) : Steady fun n => e.lower n :=
  ⟨fun hle => settles_lower hle e⟩

theorem steady_lowerAll (es : List Expr) : Steady fun n => lowerAll (Expr.lower n) es :=
  ⟨fun hle => settles_lowerAll (fun e => settles_lower hle e) es⟩

theorem steady_partsWith (e : Expr) : Steady fun n => e.partsWith (Expr.typeOf n) :=
  ⟨fun hle => settles_partsWith hle e⟩

namespace Lowering

variable {ctx : Context} {memo mid after later : Memo} {es ps : List Expr} {l d : Lowering}

/-- The lowering ends, and leaves the memo `after`. -/
def EndsAt (ctx : Context) (l : Lowering) (after : Memo) : Prop :=
  ∃ budget, (l.expr.lower budget).LeadsTo ctx l.memo after

/-- Lowering the expressions one after the other ends, and leaves the memo `after`. -/
def AllEndAt (ctx : Context) (memo : Memo) (es : List Expr) (after : Memo) : Prop :=
  ∃ budget, (lowerAll (Expr.lower budget) es).LeadsTo ctx memo after

/-- If the expression is a call, the type of its callee can be found. -/
def FindsCallee (ctx : Context) (l : Lowering) : Prop :=
  ∀ c, l.expr = .call c → Ends (fun n => c.callee.typeOf n) ctx l.memo

/-- The expression is a call, which gives no argument for an input with the default `value`. -/
def WritesOut (ctx : Context) (l : Lowering) (value : Expr) : Prop :=
  ∃ c ty mid callee, l.expr = .call c ∧ Gives (fun n => c.callee.typeOf n) ctx l.memo ty mid ∧
    Callee.ofTy? ty = some callee ∧ Slot.default value ∈ plan callee.inputs c.inputs

/-- Lowering an expression comes to lowering one of its parts, when those before it have been
lowered. -/
inductive Needs (ctx : Context) : Lowering → Lowering → Prop where
  | part {e p : Expr} {memo mid after : Memo} {before rest : List Expr}
      (hparts : Gives (fun n => e.partsWith (Expr.typeOf n)) ctx memo (before ++ p :: rest) mid)
      (hbefore : AllEndAt ctx mid before after) : Needs ctx ⟨e, memo⟩ ⟨p, after⟩

/-! ## One step -/

theorem ends_iff {e : Expr} :
    Ends (fun n => e.lower n) ctx memo ↔ ∃ after, EndsAt ctx ⟨e, memo⟩ after := by
  constructor
  · rintro ⟨code, after, budget, h⟩
    exact ⟨after, budget, code, h⟩
  · rintro ⟨after, budget, code, h⟩
    exact ⟨code, after, budget, h⟩

theorem EndsAt.grows (h : l.EndsAt ctx after) : l.memo.Grows after := by
  obtain ⟨budget, h⟩ := h
  exact h.grows (steady_lower l.expr)

theorem AllEndAt.grows (h : AllEndAt ctx memo es after) : memo.Grows after := by
  obtain ⟨budget, h⟩ := h
  exact h.grows (steady_lowerAll es)

theorem AllEndAt.unique (h : AllEndAt ctx memo es after) (h' : AllEndAt ctx memo es mid) :
    mid = after := by
  obtain ⟨_, h⟩ := h
  obtain ⟨_, h'⟩ := h'
  exact h.unique (steady_lowerAll es) h'

theorem AllEndAt.again (hrest : memo.AtRest) (h : AllEndAt ctx memo es after)
    (hlater : after.Extends later) : AllEndAt ctx later es later := by
  obtain ⟨budget, h⟩ := h
  exact ⟨budget, h.again (steady_lowerAll es) hrest hlater⟩

theorem allEndAt_nil : AllEndAt ctx memo [] after ↔ memo = after := by
  simp [AllEndAt, leadsTo_lowerAll_nil]

theorem allEndAt_cons {e : Expr} : AllEndAt ctx memo (e :: es) after ↔
    ∃ mid, EndsAt ctx ⟨e, memo⟩ mid ∧ AllEndAt ctx mid es after := by
  constructor
  · rintro ⟨budget, h⟩
    obtain ⟨mid, he, hes⟩ := leadsTo_lowerAll_cons.1 h
    exact ⟨mid, ⟨budget, he⟩, budget, hes⟩
  · rintro ⟨mid, ⟨budget, he⟩, budget', hes⟩
    refine ⟨max budget budget', leadsTo_lowerAll_cons.2 ⟨mid, ?_, ?_⟩⟩
    · exact he.more (steady_lower e) (Nat.le_max_left budget budget')
    · exact hes.more (steady_lowerAll es) (Nat.le_max_right budget budget')

theorem allEndAt_append : AllEndAt ctx memo (es ++ ps) after ↔
    ∃ mid, AllEndAt ctx memo es mid ∧ AllEndAt ctx mid ps after := by
  induction es generalizing memo with
  | nil => simp [allEndAt_nil]
  | cons e rest ih =>
    simp only [List.cons_append, allEndAt_cons, ih]
    constructor
    · rintro ⟨first, he, mid, hrest, hps⟩
      exact ⟨mid, ⟨first, he, hrest⟩, hps⟩
    · rintro ⟨mid, ⟨first, he, hrest⟩, hps⟩
      exact ⟨first, he, mid, hrest, hps⟩

/-- A lowering ends if its parts can be told and lowered one after the other. -/
theorem endsAt_iff : l.EndsAt ctx after ↔ ∃ parts mid,
    Gives (fun n => l.expr.partsWith (Expr.typeOf n)) ctx l.memo parts mid ∧
      AllEndAt ctx mid parts after := by
  constructor
  · rintro ⟨budget, h⟩
    cases budget with
    | zero =>
      obtain ⟨code, h⟩ := h
      cases h
    | succ budget =>
      obtain ⟨parts, mid, hparts, hcodes⟩ := leadsTo_bind.1 (leadsTo_lowerWith.1 h)
      exact ⟨parts, mid, ⟨budget, hparts⟩, budget, hcodes⟩
  · rintro ⟨parts, mid, ⟨budget, hparts⟩, budget', hcodes⟩
    refine ⟨max budget budget' + 1, leadsTo_lowerWith.2 (leadsTo_bind.2 ⟨parts, mid, ?_, ?_⟩)⟩
    · exact ((steady_partsWith l.expr).settles (Nat.le_max_left budget budget')).same hparts
    · exact hcodes.more (steady_lowerAll parts) (Nat.le_max_right budget budget')

/-- The parts can be told if the type of the callee can be found. -/
theorem findsCallee_iff : l.FindsCallee ctx ↔
    Ends (fun n => l.expr.partsWith (Expr.typeOf n)) ctx l.memo := by
  obtain ⟨e, memo⟩ := l
  cases e with
  | call c =>
    constructor
    · intro h
      obtain ⟨ty, after, budget, hty⟩ := h c rfl
      exact ⟨c.partsFor ty, after, budget, bind_eq_some.2 ⟨ty, after, hty, rfl⟩⟩
    · rintro ⟨parts, after, budget, h⟩ c' hc
      obtain rfl : c = c' := Expr.call.inj hc
      obtain ⟨ty, mid, hty, -⟩ := bind_eq_some.1 h
      exact ⟨ty, mid, budget, hty⟩
  | _ => exact ⟨fun _ => ⟨_, memo, 0, rfl⟩, fun _ c h => by cases h⟩

/-- The lowerings that a lowering comes to are of what its expression contains, or of defaults that
it writes out. -/
theorem Needs.contains_or_writesOut (h : l.Needs ctx d) :
    l.expr.Contains d.expr ∨ l.WritesOut ctx d.expr := by
  cases h with
  | @part e p memo mid after before rest hparts hbefore =>
    obtain ⟨budget, hparts⟩ := hparts
    have hmem : p ∈ before ++ p :: rest := by simp
    rcases Expr.partsWith_cases hparts with ⟨-, hcontains⟩ | ⟨c, ty, rfl, hty, heq⟩
    · exact .inl (hcontains p hmem)
    · rw [heq] at hmem
      rcases Call.contains_or_default hmem with hcontains | ⟨callee, hcallee, hslot⟩
      · exact .inl hcontains
      · exact .inr ⟨c, ty, mid, callee, rfl, ⟨budget, hty⟩, hcallee, hslot⟩

/-! ## What ends does not come back -/

/-- What lowering with some budget comes to can be lowered with less. -/
theorem acc_of_leadsTo {e : Expr} {budget : Nat} (h : (e.lower budget).LeadsTo ctx memo after) :
    Acc (fun d l => Needs ctx l d) ⟨e, memo⟩ := by
  induction budget generalizing e memo after with
  | zero =>
    obtain ⟨code, h⟩ := h
    cases h
  | succ budget ih =>
    obtain ⟨parts, mid, hparts, hcodes⟩ := leadsTo_bind.1 (leadsTo_lowerWith.1 h)
    refine ⟨_, fun d hneeds => ?_⟩
    cases hneeds with
    | @part _ p _ _ start before rest hparts' hbefore' =>
      obtain ⟨hsame, rfl⟩ := Gives.unique (steady_partsWith e) ⟨budget, hparts⟩ hparts'
      rw [← hsame, leadsTo_lowerAll_append] at hcodes
      obtain ⟨start', hbefore, hcodes⟩ := hcodes
      obtain rfl : start = start' := AllEndAt.unique ⟨budget, hbefore⟩ hbefore'
      obtain ⟨last, hp, -⟩ := leadsTo_lowerAll_cons.1 hcodes
      exact ih hp

/-- The lowering starts between queries, and has ended when the memo is `later`. -/
def EndsBy (ctx : Context) (later : Memo) (l : Lowering) : Prop :=
  l.memo.AtRest ∧ ∃ after, l.EndsAt ctx after ∧ after.Extends later

/-- Once it has ended, what a lowering has come to has ended too, and lowering the expression again
comes to it again. -/
theorem EndsBy.needs (h : l.EndsBy ctx later) (hneeds : l.Needs ctx d) :
    d.EndsBy ctx later ∧ Needs ctx ⟨l.expr, later⟩ ⟨d.expr, later⟩ := by
  obtain ⟨hrest, after, hend, hlater⟩ := h
  cases hneeds with
  | @part e p memo mid start before rest hparts hbefore =>
    obtain ⟨parts, mid', hparts', hcodes⟩ := endsAt_iff.1 hend
    obtain ⟨rfl, rfl⟩ := hparts.unique (steady_partsWith e) hparts'
    obtain ⟨start', hbefore', hcodes⟩ := allEndAt_append.1 hcodes
    obtain rfl : start' = start := hbefore.unique hbefore'
    obtain ⟨last, hp, hothers⟩ := allEndAt_cons.1 hcodes
    have hmid := (hparts.grows (steady_partsWith e)).atRest hrest
    have hstart := hp.grows.trans hothers.grows
    refine ⟨⟨hbefore.grows.atRest hmid, last, hp, .of_grows hothers.grows hlater⟩, ?_⟩
    refine .part (hparts.again (steady_partsWith e) hrest ?_) (hbefore.again hmid ?_)
    · exact .of_grows (hbefore.grows.trans hstart) hlater
    · exact .of_grows hstart hlater

theorem EndsBy.reach (h : l.EndsBy ctx later) (hd : ReflTransGen (Needs ctx) l d) :
    d.EndsBy ctx later := by
  induction hd with
  | refl => exact h
  | tail _ hneeds ih => exact (ih.needs hneeds).1

theorem EndsBy.again (h : l.EndsBy ctx later) (hd : TransGen (Needs ctx) l d) :
    TransGen (Needs ctx) ⟨l.expr, later⟩ ⟨d.expr, later⟩ := by
  induction hd with
  | single hneeds => exact .single (h.needs hneeds).2
  | tail hd hneeds ih => exact ih.tail ((h.reach hd.to_reflTransGen).needs hneeds).2

/-- While an expression is lowered it does not come back, if its lowering ends.  Otherwise lowering
it again would go round in a circle, since by then nothing is left to be found. -/
theorem EndsBy.not_back (h : l.EndsBy ctx later) : ¬ TransGen (Needs ctx) l ⟨l.expr, memo⟩ := by
  intro hback
  have hcircle := h.again hback
  obtain ⟨hrest, after, ⟨budget, hend⟩, hlater⟩ := h
  have hagain := hend.again (steady_lower l.expr) hrest hlater
  exact not_transGen_of_acc (acc_of_leadsTo hagain) hcircle

theorem EndsBy.findsCallee (h : l.EndsBy ctx later) : l.FindsCallee ctx := by
  obtain ⟨-, after, hend, -⟩ := h
  obtain ⟨parts, mid, hparts, -⟩ := endsAt_iff.1 hend
  exact findsCallee_iff.2 hparts.ends

/-! ## What does not come back ends -/

/-- A lowering ends if there is no endless chain of lowerings that come to one another. -/
theorem exists_endsAt_of_acc (hacc : Acc (fun d l => Needs ctx l d) l)
    (hfinds : ∀ d, ReflTransGen (Needs ctx) l d → d.FindsCallee ctx) :
    ∃ after, l.EndsAt ctx after := by
  induction hacc with
  | intro l _ ih =>
    obtain ⟨parts, mid, hparts⟩ := findsCallee_iff.1 (hfinds l .refl)
    -- The parts are lowered from left to right.
    have hall (before rest : List Expr) : parts = before ++ rest → ∀ start,
        AllEndAt ctx mid before start → ∃ after, AllEndAt ctx start rest after := by
      induction rest generalizing before with
      | nil => exact fun _ start _ => ⟨start, allEndAt_nil.2 rfl⟩
      | cons p rest ihrest =>
        rintro rfl start hbefore
        have hneeds : Needs ctx l ⟨p, start⟩ := .part hparts hbefore
        obtain ⟨last, hp⟩ := ih _ hneeds fun d hd => hfinds d (.head hneeds hd)
        have hlonger : AllEndAt ctx mid (before ++ [p]) last :=
          allEndAt_append.2 ⟨start, hbefore, allEndAt_cons.2 ⟨last, hp, allEndAt_nil.2 rfl⟩⟩
        obtain ⟨after, hrest⟩ := ihrest (before ++ [p]) (by simp) last hlonger
        exact ⟨after, allEndAt_cons.2 ⟨last, hp, hrest⟩⟩
    obtain ⟨after, hcodes⟩ := hall [] parts rfl mid (allEndAt_nil.2 rfl)
    exact ⟨after, endsAt_iff.2 ⟨parts, mid, hparts, hcodes⟩⟩

/-- The expression and what is known are made of the expressions of a program. -/
structure Within (l : Lowering) (es : List Expr) : Prop where
  expr : l.expr.nested ⊆ es
  memo : l.memo.Within es

section Program

variable (hctx : ctx.Within es)

include hctx

theorem within_partsWith {e : Expr} {budget : Nat} (he : e.nested ⊆ es) (hmemo : memo.Within es)
    (h : e.partsWith (Expr.typeOf budget) ctx memo = some (ps, after)) :
    (∀ p ∈ ps, p.nested ⊆ es) ∧ after.Within es := by
  rcases Expr.partsWith_cases h with ⟨rfl, hcontains⟩ | ⟨c, ty, rfl, hty, rfl⟩
  · exact ⟨fun p hp => List.Subset.trans (hcontains p hp).nested he, hmemo⟩
  · have hcallee := List.Subset.trans c.contains_callee.nested he
    obtain ⟨hnested, hafter⟩ := (answers_typeOf hctx budget hcallee).gives hmemo ⟨0, hty⟩
    refine ⟨fun p hp => ?_, hafter⟩
    rcases Call.contains_or_default hp with hcontains | ⟨callee, hc, hslot⟩
    · exact List.Subset.trans hcontains.nested he
    · have hinputs : ∀ e ∈ c.inputs, e.nested ⊆ es := by
        rw [Expr.nested] at he
        exact (Call.nested_subset.1 (List.Subset.trans (List.subset_cons_self _ _) he)).2.2
      exact nested_plan (Callee.nested_inputs hnested hc) hinputs hslot (List.mem_singleton.2 rfl)

theorem Needs.within (h : l.Needs ctx d) (hl : l.Within es) : d.Within es := by
  cases h with
  | @part e p memo mid after before rest hparts hbefore =>
    obtain ⟨budget, hparts⟩ := hparts
    obtain ⟨budget', codes, hbefore⟩ := hbefore
    obtain ⟨hnested, hmid⟩ := within_partsWith hctx hl.expr hl.memo hparts
    have hlower (e : Expr) (he : e.nested ⊆ es) :=
      answers_lower (fun budget _ hx => answers_typeOf hctx budget hx) budget' he
    have hcodes := answers_lowerAll hlower fun q hq => hnested q (List.mem_append_left _ hq)
    exact ⟨hnested p (by simp), (hcodes.gives hmid ⟨0, hbefore⟩).2⟩

/-- An endless chain of lowerings within a program comes back to an expression. -/
theorem acc_of_not_back (hl : l.Within es)
    (hback : ∀ d, ReflTransGen (Needs ctx) l d → ∀ memo, ¬ TransGen (Needs ctx) d ⟨d.expr, memo⟩) :
    Acc (fun d l => Needs ctx l d) l := by
  by_contra hacc
  obtain ⟨chain, hzero, hchain⟩ := not_acc_iff_exists_descending_chain.1 hacc
  have hreach (i : Nat) : ReflTransGen (Needs ctx) l (chain i) := by
    induction i with
    | zero => exact hzero ▸ .refl
    | succ i ih => exact ih.tail (hchain i)
  have hwithin (i : Nat) : (chain i).Within es := by
    induction i with
    | zero => exact hzero ▸ hl
    | succ i ih => exact (hchain i).within hctx ih
  obtain ⟨i, j, hexpr, hij⟩ := exists_transGen_of_finite hchain Lowering.expr es.finite_toSet
    fun i => (hwithin i).expr (chain i).expr.mem_nested_self
  exact hback (chain i) (hreach i) (chain j).memo (by rwa [← hexpr])

end Program

end Lowering

/-! ## Whole programs -/

/-- Queries about expressions that all definitions are made of answer what is made of them. -/
theorem answering_of_lexicon {lexicon : Lexicon} {es : List Expr}
    (hlexicon : ∀ name d, lexicon.find? name = some d → d.nested ⊆ es) :
    Answering False lexicon es where
  within hctx := hctx.within hlexicon
  ask hctx _ he :=
    ⟨fun hmemo h => hmemo.typeOf (hctx.within hlexicon) he ⟨_, h⟩, False.elim⟩
  accepts hctx _ _ ha hb :=
    ⟨fun hmemo h => ⟨trivial, hmemo.accepts (hctx.within hlexicon) ha hb ⟨_, h⟩⟩, False.elim⟩

/-- A program may be lowered after it has been checked. -/
theorem Memo.Known.check {program : Program} {lexicon : Lexicon} {es : List Expr} {ctx : Context}
    {memo after : Memo} {result : Except Error Unit}
    (hlexicon : ∀ name d, lexicon.find? name = some d → d.nested ⊆ es)
    (hroot : program.root.nested ⊆ es) (hctx : Context.Over lexicon es ctx)
    (hmemo : Memo.Known ctx es memo)
    (h : Gives (fun n => program.check n) ctx memo result after) : after.Known ctx es := by
  obtain ⟨budget, h⟩ := h
  obtain ⟨found, mid, hfound, h⟩ := bind_eq_some.1 h
  obtain ⟨-, rfl⟩ := pure_eq_some.1 h
  have hanalyze := answers_analyze (answering_of_lexicon hlexicon) hroot hctx
  exact (hanalyze.gives hmemo ⟨budget, hfound⟩).2

/-- Over a program, take any memo between queries and any expression of the program.  Lowering it
ends if and only if for all that this comes to the type of the callee can be found, if it is a call,
and the expression does not come back while it is lowered.  When an expression comes back, then a
call on the way writes out a default. -/
theorem lowering_ends_iff {root : Expr} {lexicon : Lexicon} {ctx : Context} {memo : Memo}
    (hctx : Context.Over lexicon (expressionsOf root lexicon) ctx)
    (hmemo : Memo.Known ctx (expressionsOf root lexicon) memo) (hrest : memo.AtRest) {e : Expr}
    (he : e.nested ⊆ expressionsOf root lexicon) :
    (Ends (fun n => e.lower n) ctx memo ↔
      ∀ l, ReflTransGen (Lowering.Needs ctx) ⟨e, memo⟩ l → l.FindsCallee ctx ∧
        ∀ after, ¬ TransGen (Lowering.Needs ctx) l ⟨l.expr, after⟩) ∧
    ∀ l after, TransGen (Lowering.Needs ctx) l ⟨l.expr, after⟩ →
      ∃ d d', ReflTransGen (Lowering.Needs ctx) l d ∧ d.Needs ctx d' ∧ d.WritesOut ctx d'.expr ∧
        ReflTransGen (Lowering.Needs ctx) d' ⟨l.expr, after⟩ := by
  have hwithin := hctx.within_expressionsOf
  refine ⟨⟨fun hends l hl => ?_, fun h => ?_⟩, fun l after hback => ?_⟩
  · obtain ⟨after, hend⟩ := Lowering.ends_iff.1 hends
    have hby : Lowering.EndsBy ctx after ⟨e, memo⟩ :=
      ⟨hrest, after, hend, .refl (hend.grows.atRest hrest)⟩
    exact ⟨(hby.reach hl).findsCallee, fun _ => (hby.reach hl).not_back⟩
  · have hacc := Lowering.acc_of_not_back hwithin ⟨he, hmemo.within hwithin⟩
      fun d hd => (h d hd).2
    exact Lowering.ends_iff.2 (Lowering.exists_endsAt_of_acc hacc fun d hd => (h d hd).1)
  · refine exists_step_of_transGen (fun d d' => d.WritesOut ctx d'.expr)
      (fun l => sizeOf l.expr) (fun d d' hneeds => ?_) hback (Nat.le_refl _)
    exact hneeds.contains_or_writesOut.symm.imp_right Expr.Contains.size

/-! ## Defaults that are calls -/

/-- The input `a`, with a default. -/
def defaultInput (default : Expr) : Binder :=
  binderOf 3 "a" (some .plainNumber) (some default)

/-- A function that yields the number 1. -/
def yieldsOne (id body : Nat) (name : String) (inputs : List Binder) : Expr :=
  .function (functionOf id name inputs (some .plainNumber) (some (numberOf body 1 .empty)))

/-- A function with a call of another one as the default of its only input, and a call of it. -/
def otherDefault : Program :=
  ⟨.block ⟨1⟩ [yieldsOne 9 10 "g" [], yieldsOne 2 6 "f" [defaultInput (callOf 4 5 "g")],
    callOf 7 8 "f"]⟩

/-- The program is checked and lowered, so no expression comes back. -/
theorem lowering_ends_iff_otherDefault :
    let context : Context := { lexicon := otherDefault.lexicon }
    ∃ memo, Gives (fun n => otherDefault.check n) context .empty (.ok ()) memo ∧
      Ends (fun n => otherDefault.lower n) context memo ∧
      ∀ l, ReflTransGen (Lowering.Needs context) ⟨otherDefault.root, memo⟩ l →
        l.FindsCallee context ∧ ∀ after, ¬ TransGen (Lowering.Needs context) l ⟨l.expr, after⟩ := by
  intro context
  obtain ⟨memo, hcheck, hrest, hends⟩ : ∃ memo,
      Gives (fun n => otherDefault.check n) context .empty (.ok ()) memo ∧ memo.AtRest ∧
        Ends (fun n => otherDefault.lower n) context memo :=
    ⟨_, ⟨20, rfl⟩, rfl, _, _, 20, rfl⟩
  have hmemo := Memo.Known.check
    (fun _ _ hd => List.Subset.trans (Lexicon.nested_find hd) (List.subset_append_right _ _))
    (List.subset_append_left _ _) .lexicon .empty hcheck
  have hiff := lowering_ends_iff .lexicon hmemo hrest (List.subset_append_left _ _)
  exact ⟨memo, hcheck, hends, hiff.1.1 hends⟩

/-- A function with a call of itself as the default of its only input, and a call of it. -/
def ownDefault : Program :=
  ⟨.block ⟨1⟩ [yieldsOne 2 6 "f" [defaultInput (callOf 4 5 "f")], callOf 7 8 "f"]⟩

namespace OwnDefault

/-- Where the program is checked and lowered. -/
def context : Context :=
  { lexicon := ownDefault.lexicon }

/-- What is known when the program has been checked. -/
def memo : Memo :=
  let functionTy : Ty := .function [] [defaultInput (callOf 4 5 "f")] .plainNumber
  { types := ⟨[(⟨5⟩, functionTy), (⟨8⟩, functionTy)]⟩ }

/-- Both calls of the function write out the default. -/
theorem needs_default {id callee : Nat}
    (h : (referenceOf callee "f").typeOf 1 context memo =
      some (.function [] [defaultInput (callOf 4 5 "f")] .plainNumber, memo)) :
    Lowering.Needs context ⟨callOf id callee "f", memo⟩ ⟨callOf 4 5 "f", memo⟩ := by
  have hparts : Gives (fun n => (callOf id callee "f").partsWith (Expr.typeOf n)) context memo
      ([] ++ callOf 4 5 "f" :: [referenceOf callee "f"]) memo :=
    ⟨1, bind_eq_some.2 ⟨_, _, h, rfl⟩⟩
  exact .part hparts (Lowering.allEndAt_nil.2 rfl)

/-- The program has no conflicts, but its lowering does not end, whatever the budget. -/
theorem never_lowered : Gives (fun n => ownDefault.check n) context .empty (.ok ()) memo ∧
    ¬ Ends (fun n => ownDefault.lower n) context memo := by
  refine ⟨⟨20, rfl⟩, ?_⟩
  rintro ⟨code, after, budget, hlower⟩
  have hroot : Lowering.Needs context ⟨ownDefault.root, memo⟩ ⟨callOf 7 8 "f", memo⟩ :=
    @Lowering.Needs.part context ownDefault.root _ memo memo memo
      [yieldsOne 2 6 "f" [defaultInput (callOf 4 5 "f")]] [] ⟨0, rfl⟩ ⟨1, _, rfl⟩
  have hacc := Lowering.acc_of_leadsTo ⟨code, hlower⟩
  -- The default is lowered for the call in it.
  have hdefault := (hacc.inv hroot).inv (needs_default rfl)
  exact not_transGen_of_acc hdefault (.single (needs_default rfl))

end OwnDefault

end Stepwise

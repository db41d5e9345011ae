import Stepwise.Proofs.Code.Inlining
import Stepwise.Proofs.Machine.Aside
import Stepwise.Proofs.Machine.Limits
import Stepwise.Proofs.Sample
import Stepwise.Syntax.Replace

/-!
# Passes after other passes

A pass begins from scratch, except that an evaluator keeps the code that it has lowered, by node,
and that the context keeps the types that have been found out.  So the question is whether what is
kept can be relied on (`Aside.Sound`): the code of an expression has to be what lowering the
expression yields now.

It is, as long as no two expressions that are asked for their code share an identity.  Lowering an
expression again yields the same code at any later time, whatever else has been found out meanwhile.
A pass then ends as it does in an evaluator that has evaluated nothing before
(`passes_independent`).  In any case the code that is kept is that of some expression that has been
asked for it (`Aside.From`).

An edit keeps the identities of the nodes above the one that it replaces.  Where an edited tree is
evaluated after the tree that it comes from, two expressions do share an identity, and the second
pass runs the code of the first tree.  And where types depend on themselves, a pass over one root
decides what a pass over another finds out (`passes_not_independent`).
-/

namespace Stepwise

open Stepwise.Action Stepwise.Query

/-! ## Limits that stay -/

theorem Evaluator.capacity_of_evolves {ev mid : Evaluator} {lower : List Value}
    (h : (ev.withItems lower).Evolves mid) : mid.stack.capacity = ev.stack.capacity := by
  rw [h.stack]
  rfl

theorem Acts.sameLimits {ev after : Evaluator} {i : Instruction} {r : Except Exception Unit}
    (h : Acts ev i r after) : ev.SameLimits after := by
  refine ⟨h.options, ?_⟩
  cases h with
  | starts => rfl
  | jumps => rw [Evaluator.advance_eq]
  | holds => rfl
  | skips => rw [Evaluator.advance_eq]; rfl
  | yields values lower mid value he hi hn hb ho hm hv => exact (Evaluator.capacity_of_evolves hm :)
  | idles values lower mid he hi hn hb ho hm => exact (Evaluator.capacity_of_evolves hm :)
  | enters callee inputs values lower hi hc hn hb hs =>
    obtain ⟨mid, frame, hm, -, -⟩ := hs
    exact (Evaluator.capacity_of_evolves hm :)
  | fails x values lower hi hb hm => exact (Evaluator.capacity_of_evolves hm :)

namespace Evaluator

variable {ev mid after begun last : Evaluator} {budget : Nat}

theorem Raises.sameLimits {x : Exception} (h : ev.Raises x mid) : ev.SameLimits mid := by
  cases h with
  | act budget hf hc ha =>
    have hacts := (act_cases ha).sameLimits
    exact ⟨hacts.options, hacts.capacity⟩
  | _ => exact ⟨rfl, rfl⟩

theorem Moves.sameLimits (h : ev.Moves after) : ev.SameLimits after := by
  cases h with
  | acts budget ho hf hc ha =>
    have hacts := (act_cases ha).sameLimits
    exact ⟨hacts.options, hacts.capacity⟩
  | halts ho hx => exact ⟨hx.sameLimits.options, hx.sameLimits.capacity⟩
  | _ => exact ⟨rfl, rfl⟩

/-- The options stay, and so does the capacity of the stack. -/
theorem Passes.sameLimits (h : ev.Passes after) : ev.SameLimits after := by
  induction h with
  | refl => exact .refl ev
  | tail _ hturn ih =>
    refine ih.trans ?_
    cases hturn with
    | moves hmoves => exact hmoves.sameLimits
    | begins budget root hbegin =>
      obtain ⟨code, mid, hcode, rfl⟩ := beginPass_cases hbegin
      have hevolves := (evolving_codeOf budget root).evolves hcode
      have hcapacity := congrArg Stack.capacity hevolves.stack
      exact ⟨hevolves.options, hcapacity⟩

end Evaluator

/-! ## What is kept -/

/-- What is kept can be relied on: nothing is being found out, and the code that there is for the
expressions is what lowering them yields. -/
structure Aside.Sound (U : Expr → Prop) (a : Aside) : Prop where
  atRest : a.memo.AtRest
  codes : ∀ {e code}, U e → a.lowered.find? e.id = some code →
    Gives (fun n => e.lower n) a.context a.memo code a.memo

/-- What is kept can be relied on in both, and the same has been found out. -/
structure Aside.Agrees (U : Expr → Prop) (a b : Aside) : Prop where
  left : a.Sound U
  right : b.Sound U
  context : b.context = a.context
  memo : b.memo = a.memo

theorem Aside.Agrees.symm {U : Expr → Prop} {a b : Aside} (h : a.Agrees U b) : b.Agrees U a :=
  ⟨h.right, h.left, h.context.symm, h.memo.symm⟩

theorem Aside.Sound.agrees {U : Expr → Prop} {a : Aside} (h : a.Sound U) : a.Agrees U a :=
  ⟨h, h, rfl, rfl⟩

namespace Action

variable {U : Expr → Prop} {e : Expr} {ev after : Evaluator} {budget : Nat}

/-- Code that is asked for is what lowering yields. -/
theorem lower_of_codeOf {r : Except Exception Code} (hsound : ev.aside.Sound U) (he : U e)
    (h : codeOf budget e ev = some (r, after)) :
    ∃ code later, r = .ok code ∧
      Gives (fun n => e.lower n) ev.context ev.memo code later := by
  obtain ⟨code, rfl, ⟨hfound, -⟩ | ⟨memo, -, hlower, -⟩⟩ := codeOf_cases h
  · exact ⟨code, ev.memo, rfl, hsound.codes he hfound⟩
  · exact ⟨code, memo, rfl, budget, hlower⟩

variable (hids : ∀ e e', U e → U e' → e.id = e'.id → e = e')

include hids

/-- What lowering yields is the code that is asked for, and what is kept then can be relied on. -/
theorem codeOf_of_gives {a : Aside} {code : Code} {later : Memo} (hsound : a.Sound U) (he : U e)
    (h : Gives (fun n => e.lower n) a.context a.memo code later) :
    ∃ b : Aside, b.Sound U ∧ b.context = a.context ∧ b.memo = later ∧
      ∃ least, ∀ budget, least ≤ budget → ∀ ev : Evaluator,
        codeOf budget e (ev.withAside a) = some (.ok code, ev.withAside b) := by
  cases hfound : a.lowered.find? e.id with
  | some found =>
    obtain ⟨rfl, rfl⟩ := h.unique (steady_lower e) (hsound.codes he hfound)
    exact ⟨a, hsound, rfl, rfl, 0, fun budget _ ev => codeOf_of_find? hfound⟩
  | none =>
    have hgrows := h.grows (steady_lower e)
    have hlater : later.AtRest := hgrows.atRest hsound.atRest
    refine ⟨{ a with memo := later, lowered := a.lowered.insert e.id code }, ⟨hlater, ?_⟩, rfl, rfl,
      ?_⟩
    · intro other found hother hcode
      rw [Assoc.find?_insert] at hcode
      split at hcode
      · rename_i hsame
        obtain rfl := hids other e hother he (by simpa using hsame)
        obtain rfl := Option.some.inj hcode
        exact h.again (steady_lower other) hsound.atRest (.refl hlater)
      · exact (hsound.codes hother hcode).again (steady_lower other) hsound.atRest
          (.of_grows hgrows (.refl hlater))
    · obtain ⟨least, hlower⟩ := h.enough (steady_lower e)
      exact ⟨least, fun budget hle ev => codeOf_of_lower hfound (hlower budget hle)⟩

/-- Where what is kept can be relied on, it does not matter what it is. -/
theorem reflects_agrees (budget : Nat) : Reflects (Aside.Agrees U) U budget id := by
  refine fun e he ev => ⟨fun {r after a} hR h => ?_⟩
  obtain ⟨code, later, rfl, hgives⟩ := lower_of_codeOf hR.left he h
  have hother : Gives (fun n => e.lower n) a.context a.memo code later := by
    rw [hR.context, hR.memo]
    exact hgives
  obtain ⟨own, hown, hcontext, hmemo, least, hcode⟩ := codeOf_of_gives hids hR.left he hgives
  obtain ⟨b, hb, hcontext', hmemo', least', hcode'⟩ := codeOf_of_gives hids hR.right he hother
  have hmore := (lessDefined_codeOf (Nat.le_max_left budget least) e).same h
  have hsame := hcode (max budget least) (Nat.le_max_right budget least) ev
  rw [Evaluator.withAside_aside, hmore] at hsame
  obtain rfl := (Prod.mk.inj (Option.some.inj hsame)).2
  have hsameContext : b.context = own.context := by
    rw [hcontext', hR.context, hcontext]
  exact ⟨b, ⟨hown, hb, hsameContext, hmemo'.trans hmemo.symm⟩, least',
    fun budget hle => hcode' budget hle ev⟩

end Action

/-! ## Whose code is kept -/

/-- All code that is kept is that of one of these expressions. -/
def Aside.From (U : Expr → Prop) (a : Aside) : Prop :=
  ∀ id code, a.lowered.find? id = some code → ∃ e budget memo after, U e ∧ e.id = id ∧
    e.lower budget a.context memo = some (code, after)

section From

variable {U : Expr → Prop} {ev after : Evaluator} {budget : Nat}

/-- An expression with an identity of its own has its own code. -/
theorem Aside.From.own {a : Aside} {e : Expr} {code : Code} (h : a.From U)
    (hown : ∀ other, U other → other.id = e.id → other = e)
    (hcode : a.lowered.find? e.id = some code) :
    ∃ budget memo after, e.lower budget a.context memo = some (code, after) := by
  obtain ⟨other, budget, memo, after, hother, hid, hlower⟩ := h e.id code hcode
  obtain rfl := hown other hother hid
  exact ⟨budget, memo, after, hlower⟩

theorem from_of_codeOf {e : Expr} {r : Except Exception Code} (he : U e) (hev : ev.aside.From U)
    (h : codeOf budget e ev = some (r, after)) : after.aside.From U := by
  obtain ⟨code, rfl, ⟨-, rfl⟩ | ⟨memo, -, hlower, rfl⟩⟩ := codeOf_cases h
  · exact hev
  · intro id found hfound
    have hfound : (ev.lowered.insert e.id code).find? id = some found := hfound
    rw [Assoc.find?_insert] at hfound
    split at hfound
    · rename_i hid
      obtain rfl := Option.some.inj hfound
      exact ⟨e, budget, ev.memo, memo, he, (eq_of_beq hid).symm, hlower⟩
    · exact hev id found hfound

theorem reflects_from (budget : Nat) :
    Reflects (fun a b => b = a ∧ a.From U) U budget id := by
  refine fun e he ev => ⟨fun {r after a} hR h => ?_⟩
  obtain ⟨rfl, hfrom⟩ := hR
  refine ⟨after.aside, ⟨rfl, from_of_codeOf he hfrom h⟩, budget, fun more hle => ?_⟩
  exact (lessDefined_codeOf hle e).same h

end From

namespace Evaluator

variable {U : Expr → Prop} {ev ev' begun begun' mid after last : Evaluator} {a : Aside}
  {budget : Nat} {root : Expr} {answer : Step} {outcome : Outcome} {ctx : Context} {memo : Memo}
  {options : Options}

/-! ## Histories -/

/-- What a host can do, when these are the only expressions that are asked for their code. -/
inductive Handles (U : Expr → Prop) (ev after : Evaluator) : Prop
  | beginPass (budget : Nat) (root : Expr) (hroot : U root)
      (h : ev.beginPass budget root = some after)
  | step (budget : Nat) (answer : Step) (hasks : ∀ e, ev.Asks e → U e)
      (h : ev.step budget = some (answer, after))
  | inject (stream : String) (value : Value) (h : after = ev.inject stream value)
  | defineGlobal (name : String) (value : Value) (h : after = ev.defineGlobal name value)

/-- What a host has done with an evaluator: it has begun passes, each of which it may have stepped
to its end or not, queued values and defined names. -/
abbrev History (U : Expr → Prop) : Evaluator → Evaluator → Prop :=
  Relation.ReflTransGen (Handles U)

/-- The pass asks these expressions only for their code, whatever it comes to. -/
def AsksOnly (U : Expr → Prop) (ev : Evaluator) : Prop :=
  ∀ now, ev.ComesTo now → ∀ e, now.Asks e → U e

theorem AsksOnly.step (h : ev.AsksOnly U) (ho : ev.outcome = none)
    (hs : ev.step budget = some (answer, after)) : after.AsksOnly U :=
  fun now hnow => h now (.head ⟨ho, budget, answer, hs⟩ hnow)

theorem Handles.serves (h : Handles U ev after) : ev.Serves after := by
  cases h with
  | beginPass budget root _ h => exact .beginPass budget root h
  | step budget answer _ h => exact .step budget answer h
  | inject stream value h => exact .inject stream value h
  | defineGlobal name value h => exact .defineGlobal name value h

theorem History.reaches (h : History U ev after) : ev.Reaches after := by
  induction h with
  | refl => exact .refl
  | tail _ hhandles ih => exact ih.tail hhandles.serves

/-- Running a pass to its end is part of a history. -/
theorem History.of_run {fuel : Nat} (hasks : ev.AsksOnly U)
    (h : ev.run budget fuel = some (outcome, last)) : History U ev last := by
  induction fuel generalizing ev with
  | zero => cases h
  | succ fuel ih =>
    rcases run_succ.1 h with hs | ⟨mid, hs, h⟩
    · exact .single (.step budget _ (hasks ev .refl) hs)
    · cases ho : ev.outcome with
      | some outcome =>
        rw [step_of_outcome ho] at hs
        cases hs
      | none => exact .head (.step budget _ (hasks ev .refl) hs) (ih (hasks.step ho hs) h)

/-- What a pass comes to is part of a history. -/
theorem History.of_comesTo (hasks : ev.AsksOnly U) (h : ev.ComesTo after) : History U ev after := by
  induction h with
  | refl => exact .refl
  | @tail mid _ hmid hproceeds ih =>
    obtain ⟨-, budget, answer, hs⟩ := hproceeds
    exact ih.tail (.step budget answer (hasks mid hmid) hs)

/-- Code is kept for those expressions that have been asked for it. -/
theorem History.kept (h : History U (new ctx memo options) ev) : ev.aside.From U := by
  induction h with
  | refl => exact fun _ _ hcode => nomatch hcode
  | @tail mid after _ hhandles ih =>
    cases hhandles with
    | inject stream value h => exact h ▸ ih
    | defineGlobal name value h => exact h ▸ ih
    | step budget answer hasks h =>
      obtain ⟨b, ⟨-, hafter⟩, -⟩ := step_mirrored (reflects_from budget) hasks ⟨rfl, ih⟩ h
      exact hafter
    | beginPass budget root hroot h =>
      obtain ⟨code, begun, hcode, rfl⟩ := beginPass_cases h
      have hreset : mid.reset.aside.From U := ih
      have hbegun := from_of_codeOf hroot hreset hcode
      exact hbegun

/-- A pass begins with code for its root. -/
theorem beginPass_of_codeOf {code : Code} (h : codeOf budget root ev.reset = some (.ok code, mid)) :
    ev.beginPass budget root = some { mid with
      frames := [{ kind := .program, node := root.id, code := code, bindings := .empty,
                   scope := .mk (.captured mid.nextScope) .empty none }]
      nextScope := mid.nextScope + 1 } := by
  simp only [Evaluator.beginPass, h]

theorem Begins.unique (h : ev.Begins root begun) (h' : ev.Begins root begun') : begun' = begun := by
  obtain ⟨budget, h⟩ := h
  obtain ⟨budget', h'⟩ := h'
  obtain ⟨code, mid, hcode, rfl⟩ := beginPass_cases h
  obtain ⟨code', mid', hcode', rfl⟩ := beginPass_cases h'
  have hfirst := (lessDefined_codeOf (Nat.le_max_left budget budget') root).same hcode
  have hsecond := (lessDefined_codeOf (Nat.le_max_right budget budget') root).same hcode'
  obtain ⟨hsame, rfl⟩ := Prod.mk.inj (Option.some.inj (hfirst.symm.trans hsecond))
  rw [Except.ok.inj hsame]

section

variable (hids : ∀ e e', U e → U e' → e.id = e'.id → e = e')

include hids

/-- What is kept can be relied on, whatever has been done. -/
theorem History.sound (hrest : memo.AtRest) (h : History U (new ctx memo options) ev) :
    ev.aside.Sound U := by
  induction h with
  | refl =>
    refine ⟨hrest, fun _ hcode => ?_⟩
    cases hcode
  | @tail mid after _ hhandles ih =>
    cases hhandles with
    | inject stream value h => exact h ▸ ⟨ih.atRest, ih.codes⟩
    | defineGlobal name value h => exact h ▸ ⟨ih.atRest, ih.codes⟩
    | step budget answer hasks h =>
      obtain ⟨b, hagrees, -⟩ := step_mirrored (reflects_agrees hids budget) hasks ih.agrees h
      exact hagrees.left
    | beginPass budget root hroot h =>
      obtain ⟨code, begun, hcode, rfl⟩ := beginPass_cases h
      have hreset : mid.reset.aside.Sound U := ⟨ih.atRest, ih.codes⟩
      obtain ⟨b, hagrees, -⟩ :=
        (reflects_agrees hids budget root hroot mid.reset).mirrored hreset.agrees hcode
      exact ⟨hagrees.left.atRest, hagrees.left.codes⟩

/-! ## The same pass in both -/

/-- A pass comes to states that differ in nothing but what is kept, so it asks for the same code. -/
theorem AsksOnly.withAside (hR : ev.aside.Agrees U a) (h : ev.AsksOnly U) :
    (ev.withAside a).AsksOnly U := by
  have hsame {now : Evaluator} (hnow : (ev.withAside a).ComesTo now) :
      ∃ b, now.aside.Agrees U b ∧ ev.ComesTo (now.withAside b) := by
    induction hnow with
    | refl => exact ⟨ev.aside, hR.symm, .refl⟩
    | @tail mid after _ hproceeds ih =>
      obtain ⟨b, hagrees, hcomes⟩ := ih
      obtain ⟨ho, budget, answer, hs⟩ := hproceeds
      have hasks : ∀ e, mid.Asks e → U e := fun e he => h (mid.withAside b) hcomes e he
      obtain ⟨b', hagrees', least, hstep⟩ :=
        step_mirrored (reflects_agrees hids budget) hasks hagrees hs
      exact ⟨b', hagrees', hcomes.tail ⟨ho, least, answer, hstep least (Nat.le_refl least)⟩⟩
  intro now hnow e hasks
  obtain ⟨b, -, hcomes⟩ := hsame hnow
  exact h _ hcomes e hasks

/-- A pass ends in the same way with something else laid aside. -/
theorem EndsWith.withAside (hR : ev.aside.Agrees U a) (hasks : ev.AsksOnly U)
    (h : ev.EndsWith outcome last) : ∃ b, (ev.withAside a).EndsWith outcome (last.withAside b) := by
  obtain ⟨budget, fuel, h⟩ := h
  induction fuel generalizing ev a with
  | zero => cases h
  | succ fuel ih =>
    have hmirrored {answer after} (hs : ev.step budget = some (answer, after)) :=
      step_mirrored (reflects_agrees hids budget) (hasks ev .refl) hR hs
    rcases run_succ.1 h with hs | ⟨mid, hs, h⟩
    · obtain ⟨b, -, least, hstep⟩ := hmirrored hs
      exact ⟨b, least, 1, run_succ.2 (.inl (hstep least (Nat.le_refl least)))⟩
    · cases ho : ev.outcome with
      | some outcome =>
        rw [step_of_outcome ho] at hs
        cases hs
      | none =>
        obtain ⟨b, hagrees, least, hstep⟩ := hmirrored hs
        obtain ⟨b', hends⟩ := ih hagrees (hasks.step ho hs) h
        exact ⟨b', .of_step (hstep least (Nat.le_refl least)) hends⟩

/-- The next pass begins alike in both, but for what is kept, and that can be relied on in both. -/
structure ResetsAlike (U : Expr → Prop) (ev ev' : Evaluator) : Prop where
  reset : ev'.reset = ev.reset.withAside ev'.reset.aside
  agrees : ev.reset.aside.Agrees U ev'.reset.aside

omit hids in
theorem ResetsAlike.symm (h : ResetsAlike U ev ev') : ResetsAlike U ev' ev := by
  refine ⟨?_, h.agrees.symm⟩
  rw [h.reset]
  rfl

theorem ResetsAlike.begins (h : ResetsAlike U ev ev') (hroot : U root)
    (hbegin : ev.Begins root begun) :
    ∃ b, begun.aside.Agrees U b ∧ ev'.Begins root (begun.withAside b) := by
  obtain ⟨budget, hbegin⟩ := hbegin
  obtain ⟨code, mid, hcode, rfl⟩ := beginPass_cases hbegin
  obtain ⟨b, hagrees, least, hsame⟩ :=
    (reflects_agrees hids budget root hroot ev.reset).mirrored h.agrees hcode
  refine ⟨b, ⟨hagrees.left, hagrees.right, hagrees.context, hagrees.memo⟩, least, ?_⟩
  have hcode' : codeOf least root ev'.reset = some (.ok code, mid.withAside b) := by
    rw [h.reset]
    exact hsame least (Nat.le_refl least)
  exact beginPass_of_codeOf hcode'

theorem ResetsAlike.passEnds (h : ResetsAlike U ev ev') (hroot : U root)
    (hasks : ∀ begun, ev.Begins root begun → begun.AsksOnly U)
    (hends : ev.PassEnds root outcome last) : ∃ last', ev'.PassEnds root outcome last' := by
  obtain ⟨begun, hbegin, hends⟩ := hends
  obtain ⟨b, hagrees, hbegin'⟩ := h.begins hids hroot hbegin
  obtain ⟨b', hends'⟩ := hends.withAside hids hagrees (hasks begun hbegin)
  exact ⟨_, _, hbegin', hends'⟩

/-- If the next pass asks for no other code in one of them, then neither does it in the other. -/
theorem ResetsAlike.asksOnly (h : ResetsAlike U ev ev') (hroot : U root)
    (hasks : ∀ begun, ev.Begins root begun → begun.AsksOnly U) (hbegin : ev'.Begins root begun) :
    begun.AsksOnly U := by
  obtain ⟨b, hagrees, hbegin'⟩ := h.symm.begins hids hroot hbegin
  have hother := hasks _ hbegin'
  exact @AsksOnly.withAside _ (begun.withAside b) begun.aside hids hagrees.symm hother

end

/-! ## Trying what is asked for -/

/-- The expression that the next instruction asks for its code. -/
def asked? (ev : Evaluator) : Option Expr :=
  match ev.outcome, ev.frames, ev.stack.items with
  | none, frame :: _, callee :: _ =>
    match frame.current? with
    | some (.finish (.call _)) => callee.code?
    | _ => none
  | _, _, _ => none

theorem asked?_of_asks {e : Expr} (h : ev.Asks e) : ev.asked? = some e := by
  obtain ⟨ho, frame, outer, call, callee, lower, hf, hc, hi, hcode⟩ := h
  simp only [asked?, ho, hf, hi, hc, hcode]

/-- Whether the pass ends, and asks for code of these expressions only. -/
def endsAsking (known : Expr → Bool) (budget : Nat) : Nat → Evaluator → Bool
  | 0, _ => false
  | fuel + 1, ev =>
    ev.asked?.all known &&
      match ev.step budget with
      | some (.running, after) => endsAsking known budget fuel after
      | some (.ended _, _) => true
      | none => false

theorem asksOnly_of_outcome (h : ev.outcome = some outcome) : ev.AsksOnly U := by
  intro now hnow e hasks
  rcases hnow.cases_head with rfl | ⟨mid, hproceeds, -⟩
  · cases h.symm.trans hasks.1
  · cases h.symm.trans hproceeds.1

theorem asksOnly_of_endsAsking {known : Expr → Bool} {fuel : Nat}
    (hknown : ∀ e, known e = true → U e) (h : ev.endsAsking known budget fuel = true) :
    ev.AsksOnly U := by
  induction fuel generalizing ev with
  | zero => cases h
  | succ fuel ih =>
    rw [endsAsking, Bool.and_eq_true] at h
    obtain ⟨hasked, h⟩ := h
    intro now hnow e hasks
    rcases hnow.cases_head with rfl | ⟨mid, ⟨-, budget', answer, hs⟩, hlater⟩
    · rw [asked?_of_asks hasks] at hasked
      exact hknown e hasked
    -- The step that the pass takes is the one that has been tried.
    have hmore := step_more (Nat.le_max_right budget budget') hs
    cases htried : ev.step budget with
    | none => simp [htried] at h
    | some done =>
      obtain ⟨tried, after⟩ := done
      have hsame := step_more (Nat.le_max_left budget budget') htried
      obtain ⟨rfl, rfl⟩ := Prod.mk.inj (Option.some.inj (hsame.symm.trans hmore))
      cases tried with
      | ended outcome => exact asksOnly_of_outcome (outcome_of_step hs) now hlater e hasks
      | running =>
        rw [htried] at h
        exact ih h now hlater e hasks

/-! ## Evaluators that have evaluated nothing -/

/-- An evaluator over the same context, under the same options, that has not evaluated anything.
The host has supplied it with the same names and with the latest values of the streams, and scopes
that have been captured before keep their identities to themselves. -/
def afresh (ev : Evaluator) : Evaluator :=
  { new ev.context ev.memo ev.options with
    globals := ev.globals
    streams := ev.streams.insertAll ev.pending
    nextScope := ev.nextScope }

theorem resetsAlike_afresh (hsound : ev.aside.Sound U)
    (hcapacity : ev.stack.capacity = ev.options.valueStackSize) :
    ResetsAlike U ev ev.afresh := by
  refine ⟨?_, ⟨hsound.atRest, hsound.codes⟩, ⟨hsound.atRest, fun _ hcode => ?_⟩, rfl, rfl⟩
  · unfold afresh reset withAside new Stack.clear Stack.empty
    rw [hcapacity]
    rfl
  · cases hcode

/-- A pass begins with the code that lowering its root yields. -/
theorem Begins.runs (hsound : ev.aside.Sound U) (hroot : U root) (h : ev.Begins root begun) :
    ∃ code later scope, Gives (fun n => root.lower n) ev.context ev.memo code later ∧
      begun.frames = [{ kind := .program, node := root.id, code := code, bindings := .empty,
                        scope := .mk scope .empty none }] := by
  obtain ⟨budget, h⟩ := h
  obtain ⟨code, mid, hcode, rfl⟩ := beginPass_cases h
  have hreset : ev.reset.aside.Sound U := ⟨hsound.atRest, hsound.codes⟩
  obtain ⟨code', later, hsame, hgives⟩ := lower_of_codeOf hreset hroot hcode
  obtain rfl := Except.ok.inj hsame
  exact ⟨code, later, _, hgives, rfl⟩

/-- Passes do not depend on the passes before them.

Let no two of the expressions that are asked for their code share an identity.  Then, whatever a
host has done before, the next pass runs the code that lowering its root yields, it begins if it
begins in an evaluator that has not evaluated anything, and it ends as it does there. -/
theorem passes_independent (hids : ∀ e e', U e → U e' → e.id = e'.id → e = e')
    (hrest : memo.AtRest) (hhistory : History U (new ctx memo options) ev) (hroot : U root)
    (hasks : ∀ begun, ev.Begins root begun → begun.AsksOnly U) :
    (∀ begun, ev.Begins root begun → ∃ code later scope,
      Gives (fun n => root.lower n) ev.context ev.memo code later ∧
        begun.frames = [{ kind := .program, node := root.id, code := code, bindings := .empty,
                          scope := .mk scope .empty none }]) ∧
    ((∃ begun, ev.Begins root begun) ↔ ∃ begun, ev.afresh.Begins root begun) ∧
    ∀ outcome, (∃ last, ev.PassEnds root outcome last) ↔
      ∃ last, ev.afresh.PassEnds root outcome last := by
  have hsound := hhistory.sound hids hrest
  have hlimits := hhistory.reaches.passes.sameLimits
  have hcapacity : ev.stack.capacity = ev.options.valueStackSize := by
    rw [hlimits.capacity, hlimits.options]
    rfl
  have halike := resetsAlike_afresh hsound hcapacity
  refine ⟨fun begun hbegin => hbegin.runs hsound hroot, ⟨?_, ?_⟩, fun outcome => ⟨?_, ?_⟩⟩
  · rintro ⟨begun, hbegin⟩
    obtain ⟨b, -, hbegin'⟩ := halike.begins hids hroot hbegin
    exact ⟨_, hbegin'⟩
  · rintro ⟨begun, hbegin⟩
    obtain ⟨b, -, hbegin'⟩ := halike.symm.begins hids hroot hbegin
    exact ⟨_, hbegin'⟩
  · rintro ⟨last, hends⟩
    exact halike.passEnds hids hroot hasks hends
  · rintro ⟨last, hends⟩
    exact halike.symm.passEnds hids hroot (fun _ => halike.asksOnly hids hroot hasks) hends

end Evaluator

/-! ### A pass that has been abandoned -/

/-- The boolean that a pass has produced, if it has. -/
def Outcome.boolean? : Outcome → Option Bool
  | .produced (.boolean b) => some b
  | _ => none

theorem Outcome.eq_of_boolean? {outcome : Outcome} {b : Bool} (h : outcome.boolean? = some b) :
    outcome = .produced (.boolean b) := by
  unfold boolean? at h
  split at h
  · rw [Option.some.inj h]
  · cases h

/-- An evaluator for programs without names, which has evaluated nothing. -/
def nameless : Evaluator :=
  .new { lexicon := .empty } .empty {}

namespace Resumed

/-- The body of the function. -/
def body : Expr :=
  booleanOf 2 true

/-- The program `(ƒ() ⊤)()`. -/
def root : Expr :=
  .call (callWith 0 (.function ⟨⟨1⟩, [], [], [], none, some body⟩) [])

/-- The expressions that are asked for their code. -/
def Evaluated (e : Expr) : Prop :=
  e = root ∨ e = body

theorem evaluated_unique (e e' : Expr) (h : Evaluated e) (h' : Evaluated e') (hid : e.id = e'.id) :
    e = e' := by
  rcases h with rfl | rfl <;> rcases h' with rfl | rfl <;> first | rfl | cases hid

/-- Whether an expression is the body of the function. -/
def isBody : Expr → Bool
  | .boolean ⟨2⟩ tok true => tok == tokenOf "⊤" .boolean
  | _ => false

theorem evaluated_of_isBody (e : Expr) (h : isBody e = true) : Evaluated e := by
  unfold isBody at h
  split at h
  · rw [eq_of_beq h]
    exact .inr rfl
  · cases h

/-- Whether the next pass asks for no other code. -/
def asksKnown (ev : Evaluator) : Bool :=
  (ev.beginPass 5 root).any (·.endsAsking isBody 5 9)

theorem asksOnly_of_asksKnown {ev begun : Evaluator} (h : asksKnown ev = true)
    (hbegin : ev.Begins root begun) : begun.AsksOnly Evaluated := by
  obtain ⟨tried, htried, hends⟩ := (Option.any_eq_true _ _).1 h
  obtain rfl := Evaluator.Begins.unique ⟨5, htried⟩ hbegin
  exact Evaluator.asksOnly_of_endsAsking evaluated_of_isBody hends

/-- Whether a pass that is left after a step is followed by one that produces `⊤`. -/
def resumes (ended : Evaluator) : Bool :=
  (ended.beginPass 5 root).any fun second =>
    (second.step 5).any fun (answer, left) =>
      answer.isRunning && (asksKnown left && (left.lowered.find? root.id).isSome &&
        ((left.beginPass 5 root).bind (·.run 5 9)).any fun done => done.1.boolean? == some true)

/-- A pass has run to its end, and another has been left after a step.  The next pass runs code that
has been kept, and cannot be told from one in an evaluator that has evaluated nothing. -/
theorem passes_independent_resumed :
    ∃ first outcome ended second left, nameless.Begins root first ∧ first.EndsWith outcome ended ∧
      ended.Begins root second ∧ second.step 5 = some (.running, left) ∧
        Evaluator.History Evaluated nameless left ∧
        (∀ begun, left.Begins root begun → begun.AsksOnly Evaluated) ∧
          (left.lowered.find? root.id).isSome = true ∧
            ∃ last, left.afresh.PassEnds root (.produced (.boolean true)) last := by
  have htried : (nameless.beginPass 5 root).any (fun first =>
      asksKnown nameless && (first.run 5 9).any fun done => asksKnown done.2 && resumes done.2) =
        true := by
    decide +kernel
  obtain ⟨first, hfirst, h⟩ := (Option.any_eq_true _ _).1 htried
  obtain ⟨hasks, h⟩ := Bool.and_eq_true_iff.1 h
  obtain ⟨⟨outcome, ended⟩, hrun, h⟩ := (Option.any_eq_true _ _).1 h
  obtain ⟨hasks', h⟩ := Bool.and_eq_true_iff.1 h
  obtain ⟨second, hsecond, h⟩ := (Option.any_eq_true _ _).1 h
  obtain ⟨⟨answer, left⟩, hstep, h⟩ := (Option.any_eq_true _ _).1 h
  obtain ⟨hrunning, h⟩ := Bool.and_eq_true_iff.1 h
  obtain ⟨h, hdone⟩ := Bool.and_eq_true_iff.1 h
  obtain ⟨hasks'', hkept⟩ := Bool.and_eq_true_iff.1 h
  obtain ⟨⟨produced, last⟩, hlast, htrue⟩ := (Option.any_eq_true _ _).1 hdone
  obtain ⟨third, hthird, hend⟩ := Option.bind_eq_some_iff.1 hlast
  obtain rfl := Outcome.eq_of_boolean? (eq_of_beq htrue)
  obtain rfl : answer = .running := by
    cases answer with
    | running => rfl
    | ended => cases hrunning
  have hfinished : Evaluator.History Evaluated first ended :=
    Evaluator.History.of_run (asksOnly_of_asksKnown hasks ⟨5, hfirst⟩) hrun
  have hsecondAsks : second.AsksOnly Evaluated := asksOnly_of_asksKnown hasks' ⟨5, hsecond⟩
  have habandoned : Evaluator.History Evaluated ended left :=
    .head (.beginPass 5 root (.inl rfl) hsecond)
      (.single (.step 5 .running (hsecondAsks second .refl) hstep))
  have hhistory : Evaluator.History Evaluated nameless left :=
    .head (.beginPass 5 root (.inl rfl) hfirst) (hfinished.trans habandoned)
  have hlater : ∀ begun, left.Begins root begun → begun.AsksOnly Evaluated :=
    fun begun => asksOnly_of_asksKnown hasks''
  obtain ⟨-, -, hsame⟩ := Evaluator.passes_independent evaluated_unique Memo.atRest_empty hhistory
    (.inl rfl) hlater
  exact ⟨first, outcome, ended, second, left, ⟨5, hfirst⟩, ⟨5, 9, hrun⟩, ⟨5, hsecond⟩, hstep,
    hhistory, hlater, hkept, (hsame _).1 ⟨last, third, ⟨5, hthird⟩, 5, 9, hend⟩⟩

end Resumed

/-! ## What shows in later passes -/

/-- The exception that has ended a pass, if one has. -/
def Outcome.kind? : Outcome → Option ExceptionKind
  | .halted x => some x.kind
  | .produced _ => none

theorem Outcome.eq_of_kind? {outcome : Outcome} {kind : ExceptionKind}
    (h : outcome.kind? = some kind) : ∃ x, outcome = .halted x ∧ x.kind = kind := by
  cases outcome with
  | produced value => cases h
  | halted x => exact ⟨x, rfl, Option.some.inj h⟩

/-- How the pass over the expression ends, within these bounds. -/
def Evaluator.tryPass (ev : Evaluator) (root : Expr) : Option (Outcome × Evaluator) :=
  (ev.beginPass 20 root).bind (·.run 20 30)

theorem Evaluator.passEnds_of_tryPass {ev last : Evaluator} {root : Expr} {outcome : Outcome}
    (h : ev.tryPass root = some (outcome, last)) : ev.PassEnds root outcome last := by
  obtain ⟨begun, hbegin, hrun⟩ := Option.bind_eq_some_iff.1 h
  exact ⟨begun, ⟨20, hbegin⟩, 20, 30, hrun⟩

theorem Evaluator.reaches_of_tryPass {ev last : Evaluator} {root : Expr} {outcome : Outcome}
    (h : ev.tryPass root = some (outcome, last)) : ev.Reaches last := by
  obtain ⟨begun, hbegin, hrun⟩ := Option.bind_eq_some_iff.1 h
  exact .tail (.single (.beginPass 20 root hbegin)) (.run 20 30 outcome hrun)

/-- Whether the pass over the expression produces the boolean. -/
def Evaluator.produces (ev : Evaluator) (root : Expr) (b : Bool) : Bool :=
  (ev.tryPass root).any fun done => done.1.boolean? == some b

theorem Evaluator.passEnds_of_produces {ev : Evaluator} {root : Expr} {b : Bool}
    (h : ev.produces root b = true) : ∃ last, ev.PassEnds root (.produced (.boolean b)) last := by
  obtain ⟨⟨outcome, last⟩, htry, hb⟩ := (Option.any_eq_true _ _).1 h
  obtain rfl := Outcome.eq_of_boolean? (eq_of_beq hb)
  exact ⟨last, passEnds_of_tryPass htry⟩

/-- Whether the pass over the expression ends with this kind of exception. -/
def Evaluator.raises (ev : Evaluator) (root : Expr) (kind : ExceptionKind) : Bool :=
  (ev.tryPass root).any fun done => done.1.kind? == some kind

theorem Evaluator.passEnds_of_raises {ev : Evaluator} {root : Expr} {kind : ExceptionKind}
    (h : ev.raises root kind = true) :
    ∃ x last, ev.PassEnds root (.halted x) last ∧ x.kind = kind := by
  obtain ⟨⟨outcome, last⟩, htry, hkind⟩ := (Option.any_eq_true _ _).1 h
  obtain ⟨x, rfl, hx⟩ := Outcome.eq_of_kind? (eq_of_beq hkind)
  exact ⟨x, last, passEnds_of_tryPass htry, hx⟩

namespace Edited

/-- The program `¬⊤`. -/
def root : Expr :=
  unaryOf 0 .not (booleanOf 1 true)

/-- The program with `⊥` in the place of `⊤`. -/
def after : Expr :=
  root.replace ⟨⟨1⟩, .expr (booleanOf 2 false)⟩

end Edited

namespace Circular

/-- A function without inputs that yields what another name stands for. -/
def yields (id : Nat) (name other : String) : Expr :=
  .function (functionOf id name [] none (some (referenceOf (id + 1) other)))

/-- A call of what the expression yields. -/
def calls (id : Nat) (callee : Expr) : Expr :=
  .call (callWith id callee [])

/-- The program `ƒ f() g, ƒ g() f, g()()()()`. -/
def program : Program :=
  ⟨.block ⟨1⟩ [yields 2 "f" "g", yields 4 "g" "f",
    calls 9 (calls 8 (calls 7 (callOf 6 10 "g")))]⟩

/-- The program `f()`. -/
def other : Expr :=
  callOf 11 12 "f"

/-- An evaluator that has evaluated nothing. -/
def start : Evaluator :=
  startOf program

end Circular

/-- Passes do depend on the passes before them, in two ways.

After a pass over `¬⊤` the edited program `¬⊥` still yields `⊥`, while it yields `⊤` in an evaluator
over the same context that has evaluated nothing.

The second way is through the context, and here the evaluators that are compared have different
ones: what a pass over `f()` has found out stays in the memo, and with it the type of `g` has one
more level of functions in it than without.  So the call `g()()()()` is evaluated until it comes to
a name that is not there, while over a memo that knows nothing it is no call of a function. -/
theorem passes_not_independent :
    (∃ ev, nameless.Reaches ev ∧
      (∃ last, ev.PassEnds Edited.after (.produced (.boolean false)) last) ∧
      ∃ last, ev.afresh.PassEnds Edited.after (.produced (.boolean true)) last) ∧
    ∃ ev, Circular.start.Reaches ev ∧
      (∃ x last, ev.PassEnds Circular.program.root (.halted x) last ∧ x.kind = .unknownName "g") ∧
      ∃ x last, Circular.start.PassEnds Circular.program.root (.halted x) last ∧
        x.kind = .notCallable "Evaluate" := by
  constructor
  · have htried : (nameless.tryPass Edited.root).any (fun done =>
        done.2.produces Edited.after false && done.2.afresh.produces Edited.after true) = true := by
      decide +kernel
    obtain ⟨⟨outcome, ev⟩, hpass, h⟩ := (Option.any_eq_true _ _).1 htried
    obtain ⟨hstale, hfresh⟩ := Bool.and_eq_true_iff.1 h
    exact ⟨ev, Evaluator.reaches_of_tryPass hpass, Evaluator.passEnds_of_produces hstale,
      Evaluator.passEnds_of_produces hfresh⟩
  · have htried : (Circular.start.tryPass Circular.other).any (fun done =>
        done.2.raises Circular.program.root (.unknownName "g")) = true := by
      decide +kernel
    have hfresh : Circular.start.raises Circular.program.root (.notCallable "Evaluate") = true := by
      decide +kernel
    obtain ⟨⟨outcome, ev⟩, hpass, h⟩ := (Option.any_eq_true _ _).1 htried
    exact ⟨ev, Evaluator.reaches_of_tryPass hpass, Evaluator.passEnds_of_raises h,
      Evaluator.passEnds_of_raises hfresh⟩

end Stepwise

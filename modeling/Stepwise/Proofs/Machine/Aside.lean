import Stepwise.Proofs.Machine.Running

/-!
# What instructions do not look at

Lowering depends on the context and on what has been found out and lowered before; nothing else
does.  Values that the host has queued are looked at only when the next pass begins.  An evaluator
lays all of this aside while it executes instructions (`Aside`), and an action that does not lower
anything does the same whatever has been laid aside (`Action.Oblivious`).

So two evaluators that differ in nothing else execute the same instructions, as long as lowering
yields the same code in both.  `Action.Mirrors` is the relation of what they do: it is given how the
two asides are related, and which expressions lower to the same code under this relation.  It
carries over from the code of expressions (`Reflects`) to instructions (`mirrors_act`) and to steps
(`step_mirrored`).  Only calls ask for code, and `Evaluator.Asks` says of what.
-/

namespace Stepwise

open Stepwise.Action

/-- What an evaluator holds that no instruction looks at, unless it lowers an expression. -/
structure Aside where
  context : Context
  memo : Memo
  lowered : Assoc NodeId Code
  pending : List (String × Value)

namespace Evaluator

/-- What the evaluator has laid aside. -/
def aside (ev : Evaluator) : Aside :=
  ⟨ev.context, ev.memo, ev.lowered, ev.pending⟩

/-- The evaluator with something else laid aside. -/
def withAside (ev : Evaluator) (a : Aside) : Evaluator :=
  { ev with context := a.context, memo := a.memo, lowered := a.lowered, pending := a.pending }

@[simp] theorem withAside_aside (ev : Evaluator) : ev.withAside ev.aside = ev := rfl

@[simp] theorem aside_withAside (ev : Evaluator) (a : Aside) : (ev.withAside a).aside = a := rfl

end Evaluator

/-! ## Actions that do not look aside -/

namespace Action

variable {α β : Type}

/-- An action that does the same whatever has been laid aside. -/
structure Oblivious (m : Action α) : Prop where
  same : ∀ (ev : Evaluator) (a : Aside),
    m (ev.withAside a) = (m ev).map fun done => (done.1, done.2.withAside a)

/-- An action that has a result in every state, and the same whatever has been laid aside. -/
theorem oblivious_of_apply {m : Action α} {f : Evaluator → Except Exception α}
    {g : Evaluator → Evaluator} (h : ∀ ev, m ev = some (f ev, g ev))
    (hf : ∀ ev a, f (ev.withAside a) = f ev)
    (hg : ∀ ev a, g (ev.withAside a) = (g ev).withAside a) : Oblivious m := by
  refine ⟨fun ev a => ?_⟩
  rw [h, h, hf, hg, Option.map_some]

theorem oblivious_pure (a : α) : Oblivious (pure a : Action α) :=
  oblivious_of_apply (pure_apply a) (fun _ _ => rfl) (fun _ _ => rfl)

theorem oblivious_throw (x : Exception) : Oblivious (throw x : Action α) :=
  oblivious_of_apply (throw_apply x) (fun _ _ => rfl) (fun _ _ => rfl)

theorem oblivious_failWith (kind : ExceptionKind) : Oblivious (failWith kind : Action α) :=
  oblivious_of_apply (failWith_apply kind) (fun _ _ => rfl) (fun _ _ => rfl)

theorem oblivious_failAt (node : NodeId) (kind : ExceptionKind) :
    Oblivious (failAt node kind : Action α) :=
  oblivious_of_apply (failAt_apply node kind) (fun _ _ => rfl) (fun _ _ => rfl)

theorem oblivious_modify {f : Evaluator → Evaluator}
    (hf : ∀ ev a, f (ev.withAside a) = (f ev).withAside a) :
    Oblivious (modify f : Action PUnit) :=
  oblivious_of_apply (modify_apply f) (fun _ _ => rfl) hf

theorem Oblivious.bind {m : Action α} {f : α → Action β} (hm : Oblivious m)
    (hf : ∀ a, Oblivious (f a)) : Oblivious (m >>= f) := by
  refine ⟨fun ev a => ?_⟩
  rw [bind_apply, bind_apply, hm.same]
  rcases m ev with _ | ⟨_ | value, mid⟩
  · rfl
  · rfl
  · exact (hf value).same mid a

theorem Oblivious.map {m : Action α} (f : α → β) (hm : Oblivious m) : Oblivious (f <$> m) := by
  rw [← bind_pure_comp]
  exact hm.bind fun a => oblivious_pure (f a)

theorem Oblivious.blaming {m : Action α} (node : NodeId) (hm : Oblivious m) :
    Oblivious (blaming node m) := by
  refine ⟨fun ev a => ?_⟩
  rw [blaming_apply, blaming_apply, hm.same]
  rcases m ev with _ | done <;> rfl

theorem oblivious_ofResult (node : NodeId) (result : Except ExceptionKind α) :
    Oblivious (ofResult node result) := by
  cases result with
  | ok value => exact oblivious_pure value
  | error kind => exact oblivious_failAt node kind

theorem oblivious_popValue : Oblivious popValue := by
  refine ⟨fun ev a => ?_⟩
  have hsame : (ev.withAside a).stack.popAbove (ev.withAside a).base =
      ev.stack.popAbove ev.base := rfl
  rw [popValue_apply, popValue_apply, hsame]
  cases ev.stack.popAbove ev.base <;> rfl

theorem oblivious_popOperand : Oblivious popOperand := by
  refine oblivious_popValue.bind fun value => ?_
  split
  · exact oblivious_throw _
  · exact oblivious_pure _

theorem oblivious_popOperands (count : Nat) : Oblivious (popOperands count) := by
  induction count with
  | zero => exact oblivious_pure []
  | succ count ih =>
    exact oblivious_popOperand.bind fun first => ih.bind fun others => oblivious_pure _

theorem oblivious_bindAll (aliases : List String) (value : Value) :
    Oblivious (bindAll aliases value) := by
  refine oblivious_modify fun ev a => ?_
  rw [Evaluator.bindAll_eq, Evaluator.bindAll_eq]
  rfl

theorem oblivious_advance (distance : Nat) :
    Oblivious (modify (·.advance distance) : Action Unit) := by
  refine oblivious_modify fun ev a => ?_
  rw [Evaluator.advance_eq, Evaluator.advance_eq]
  rfl

theorem oblivious_freshScope : Oblivious freshScope :=
  oblivious_of_apply freshScope_apply (fun _ _ => rfl) (fun _ _ => rfl)

theorem oblivious_startFrame (frame : Frame) : Oblivious (startFrame frame) := by
  refine ⟨fun ev a => ?_⟩
  rw [startFrame_apply, startFrame_apply]
  show (if ev.options.maxDepth ≤ ev.frames.length then _ else _) = _
  split <;> rfl

theorem oblivious_executeDefinition (aliases : List String) (close : Scope → Value) :
    Oblivious (executeDefinition aliases close) := by
  refine oblivious_of_apply (executeDefinition_apply aliases close) (fun _ _ => rfl) fun ev a => ?_
  rw [Evaluator.bindAll_eq, Evaluator.bindAll_eq]
  rfl

/-- Working on operands looks at bindings, names and streams only. -/
theorem oblivious_operate (e : Expr) (values : List Value) : Oblivious (e.operate values) := by
  unfold Expr.operate
  split
  case h_5 => exact oblivious_failAt ..
  case h_6 => exact oblivious_failAt ..
  case h_7 id name =>
    refine ⟨fun ev a => ?_⟩
    have hlookup : (ev.withAside a).lookup name.text = ev.lookup name.text := rfl
    simp only [bind_apply, get_apply, Option.bind_some, continuing_ok, hlookup]
    cases ev.lookup name.text <;> rfl
  case h_8 =>
    refine Oblivious.map _ ?_
    unfold accessMember
    split
    · split
      · exact oblivious_pure _
      · exact oblivious_failAt ..
    · exact oblivious_failAt ..
  case h_9 => exact (oblivious_ofResult ..).map _
  case h_10 => exact (oblivious_ofResult ..).map _
  case h_11 => exact (oblivious_executeDefinition ..).map _
  case h_12 => exact (oblivious_executeDefinition ..).map _
  case h_13 =>
    split
    · exact oblivious_pure _
    · exact oblivious_failAt ..
  case h_14 => exact (oblivious_bindAll ..).bind fun _ => oblivious_pure _
  all_goals exact oblivious_pure _

/-- Instructions other than calls look at no code, and have no use for a budget. -/
theorem oblivious_act (budget : Nat) (i : Instruction) (hi : ∀ call, i ≠ .finish (.call call)) :
    (∀ more, i.act more = i.act budget) ∧ Oblivious (i.act budget) := by
  cases i with
  | start e => exact ⟨fun _ => rfl, oblivious_pure ()⟩
  | jump distance node => exact ⟨fun _ => rfl, oblivious_advance distance⟩
  | halt node reason => exact ⟨fun _ => rfl, oblivious_failAt ..⟩
  | jumpIfFalse distance node =>
    refine ⟨fun _ => rfl, (oblivious_popValue.blaming node).bind fun value => ?_⟩
    split
    · exact oblivious_pure ()
    · exact oblivious_advance _
    · exact oblivious_throw _
    · exact oblivious_failAt ..
  | finish e =>
    have he : e.isCall = false := by
      cases e with
      | call call => exact absurd rfl (hi call)
      | _ => rfl
    refine ⟨fun more => by simp only [Instruction.act, execute_eq _ he], ?_⟩
    simp only [Instruction.act, execute_eq _ he]
    refine ((oblivious_popOperands e.demand).bind fun values =>
      oblivious_operate e values.reverse).bind fun answer => ?_
    split
    · exact oblivious_pure ()
    · exact oblivious_throw _
    · exact oblivious_modify fun _ _ => rfl

end Action

/-! ## Code that is asked for -/

/-- The expression that evaluates a call of the value. -/
def Value.code? : Value → Option Expr
  | .function f _ => f.body
  | .structDef s _ =>
    match s.block with
    | some (.block _ []) => none
    | block => block
  | _ => none

/-- The next instruction is a call that is evaluated by the expression. -/
def Evaluator.Asks (ev : Evaluator) (e : Expr) : Prop :=
  ev.outcome = none ∧ ∃ frame outer call callee lower, ev.frames = frame :: outer ∧
    frame.current? = some (.finish (.call call)) ∧ ev.stack.items = callee :: lower ∧
    callee.code? = some e

/-! ## The same with something else laid aside -/

namespace Action

variable {α β : Type} {R : Aside → Aside → Prop} {U : Expr → Prop} {budget : Nat}
  {spare : Nat → Nat} {ev : Evaluator}

/-- What `m` does to an evaluator, `m'` does to it with something related laid aside, if the budget
is large enough. -/
structure Mirrors (R : Aside → Aside → Prop) (m : Action α) (m' : Nat → Action α)
    (ev : Evaluator) : Prop where
  mirrored : ∀ {r after a}, R ev.aside a → m ev = some (r, after) →
    ∃ a', R after.aside a' ∧ ∃ least, ∀ budget, least ≤ budget →
      m' budget (ev.withAside a) = some (r, after.withAside a')

theorem Oblivious.mirrors {m : Action α} (hm : Oblivious m) : Mirrors R m (fun _ => m) ev := by
  refine ⟨fun {r after a} hR h => ?_⟩
  have hown := hm.same ev ev.aside
  rw [Evaluator.withAside_aside, h, Option.map_some] at hown
  have hkept : after.aside = ev.aside := by
    rw [(Prod.mk.inj (Option.some.inj hown)).2, Evaluator.aside_withAside]
  refine ⟨a, hkept ▸ hR, 0, fun budget _ => ?_⟩
  rw [hm.same, h, Option.map_some]

/-- The second part is compared where the first leads. -/
theorem Mirrors.bind {m : Action α} {m' : Nat → Action α} {f : α → Action β}
    {f' : Nat → α → Action β} (hm : Mirrors R m m' ev)
    (hf : ∀ value mid, m ev = some (.ok value, mid) →
      Mirrors R (f value) (fun budget => f' budget value) mid) :
    Mirrors R (m >>= f) (fun budget => m' budget >>= f' budget) ev := by
  refine ⟨fun {r after a} hR h => ?_⟩
  rcases bind_eq_some h with ⟨value, mid, hfirst, hsecond⟩ | ⟨x, hx, rfl⟩
  · obtain ⟨a₁, hR₁, least₁, hsame₁⟩ := hm.mirrored hR hfirst
    obtain ⟨a₂, hR₂, least₂, hsame₂⟩ := (hf value mid hfirst).mirrored hR₁ hsecond
    refine ⟨a₂, hR₂, max least₁ least₂, fun budget hle => ?_⟩
    have hfirst := hsame₁ budget (Nat.le_trans (Nat.le_max_left ..) hle)
    rw [bind_apply, hfirst, Option.bind_some, continuing_ok]
    exact hsame₂ budget (Nat.le_trans (Nat.le_max_right ..) hle)
  · obtain ⟨a₁, hR₁, least, hsame⟩ := hm.mirrored hR hx
    refine ⟨a₁, hR₁, least, fun budget hle => ?_⟩
    rw [bind_apply, hsame budget hle, Option.bind_some, continuing_error]

theorem Mirrors.blaming {m : Action α} {m' : Nat → Action α} (node : NodeId)
    (hm : Mirrors R m m' ev) :
    Mirrors R (blaming node m) (fun budget => blaming node (m' budget)) ev := by
  refine ⟨fun {r after a} hR h => ?_⟩
  obtain ⟨r', hr, rfl⟩ := blaming_eq_some h
  obtain ⟨a', hR', least, hsame⟩ := hm.mirrored hR hr
  refine ⟨a', hR', least, fun budget hle => ?_⟩
  rw [blaming_apply, hsame budget hle, Option.map_some]

/-- Expressions that yield the same code when related things are laid aside. -/
def Reflects (R : Aside → Aside → Prop) (U : Expr → Prop) (budget : Nat) (spare : Nat → Nat) :
    Prop :=
  ∀ e, U e → ∀ ev, Mirrors R (codeOf budget e) (fun more => codeOf (spare more) e) ev

section Calls

variable (hcode : Reflects R U budget spare)

include hcode

theorem mirrors_prepareFunction (f : FunctionDef) (scope : Scope) (bindings : Bindings)
    (hf : ∀ e, f.body = some e → U e) :
    Mirrors R (prepareFunction budget f scope bindings)
      (fun more => prepareFunction (spare more) f scope bindings) ev := by
  unfold prepareFunction
  cases hbody : f.body with
  | none => exact (oblivious_failWith _).mirrors
  | some body => exact (hcode body (hf body hbody) ev).bind fun _ _ _ => (oblivious_pure _).mirrors

theorem mirrors_blockCode (s : StructDef) (scope : Scope)
    (hs : ∀ e, (Value.structDef s scope).code? = some e → U e) :
    Mirrors R (blockCode budget s) (fun more => blockCode (spare more) s) ev := by
  simp only [Value.code?] at hs
  unfold blockCode
  split
  · exact (oblivious_pure _).mirrors
  · exact (oblivious_pure _).mirrors
  · rename_i block hne hblock
    refine hcode block (hs block ?_) ev
    rw [hblock]
    split
    · rename_i id heq
      exact absurd (Option.some.inj heq) (hne id)
    · rfl

theorem mirrors_prepareStruct (s : StructDef) (scope : Scope) (bindings : Bindings)
    (hs : ∀ e, (Value.structDef s scope).code? = some e → U e) :
    Mirrors R (prepareStruct budget s scope bindings)
      (fun more => prepareStruct (spare more) s scope bindings) ev :=
  (mirrors_blockCode hcode s scope hs).bind fun _ _ _ =>
    (oblivious_freshScope.bind fun _ => oblivious_pure _).mirrors

theorem mirrors_prepare (call : Call) (values : List Value) (callee : Value)
    (h : ∀ e, callee.code? = some e → U e) :
    Mirrors R (prepare budget call values callee)
      (fun more => prepare (spare more) call values callee) ev := by
  have arguments (inputs : List Binder) : Oblivious (argumentBindings call inputs values) := by
    unfold argumentBindings
    split
    · exact oblivious_pure _
    · exact oblivious_throw _
  cases callee with
  | function f scope =>
    exact (arguments f.inputs).mirrors.bind fun bindings mid _ =>
      (mirrors_prepareFunction hcode f scope bindings h).blaming call.id
  | structDef s scope =>
    exact (arguments s.inputs).mirrors.bind fun bindings mid _ =>
      (mirrors_prepareStruct hcode s scope bindings h).blaming call.id
  | _ => exact (oblivious_failAt ..).mirrors

theorem mirrors_prepareCall (call : Call)
    (h : ∀ callee lower e, ev.stack.items = callee :: lower → callee.code? = some e → U e) :
    Mirrors R (prepareCall budget call) (fun more => prepareCall (spare more) call) ev := by
  refine oblivious_popOperand.mirrors.bind fun callee mid hpop => ?_
  have hcallee : ∀ e, callee.code? = some e → U e := by
    intro e hcode
    obtain ⟨lower, hi, -⟩ := popOperand_eq_ok hpop
    exact h callee lower e hi hcode
  cases callee.declaredInputs? with
  | none => exact (oblivious_failAt ..).mirrors
  | some inputs =>
    exact (oblivious_popOperands _).mirrors.bind fun values _ _ =>
      mirrors_prepare hcode call values.reverse callee hcallee

/-- An instruction asks for no code, unless it is a call, which asks for that of its callee. -/
theorem mirrors_act (i : Instruction)
    (hi : ∀ call callee lower e, i = .finish (.call call) → ev.stack.items = callee :: lower →
      callee.code? = some e → U e) :
    Mirrors R (i.act budget) (fun more => i.act (spare more)) ev := by
  by_cases hcall : ∃ call, i = .finish (.call call)
  · obtain ⟨call, rfl⟩ := hcall
    simp only [act_call, executeCall_eq]
    have hprepare := mirrors_prepareCall hcode call fun callee lower e =>
      hi call callee lower e rfl
    exact hprepare.bind fun frame mid _ => ((oblivious_startFrame frame).blaming call.id).mirrors
  · obtain ⟨hsame, hoblivious⟩ := oblivious_act budget i fun call h => hcall ⟨call, h⟩
    simp only [hsame]
    exact hoblivious.mirrors

end Calls

end Action

namespace Evaluator

variable {R : Aside → Aside → Prop} {U : Expr → Prop} {budget : Nat} {spare : Nat → Nat}
  {ev after : Evaluator} {answer : Step} {a : Aside}

/-- Finished frames hand their results down, whatever has been laid aside. -/
theorem completeFrames_withAside (ev : Evaluator) (a : Aside) :
    (ev.withAside a).completeFrames =
      (ev.completeFrames.1, ev.completeFrames.2.withAside a) := by
  have h := handsDown_completeFrames ev
  generalize ev.completeFrames = r at h
  refine HandsDown.completeFrames_eq ?_
  induction h with
  | idle hf => exact .idle hf
  | active hf hd => exact .active hf hd
  | noValue hf hd hr => exact .noValue hf hd hr
  | exception hf hd hr => exact .exception hf hd hr
  | produces hf hd hr hv => exact .produces hf hd hr hv
  | hands hf hd hr hv _ ih => exact .hands hf hd hr hv ih

theorem aside_completeFrames (ev : Evaluator) : ev.completeFrames.2.aside = ev.aside := by
  have hown := completeFrames_withAside ev ev.aside
  exact congrArg (fun done => done.2.aside) hown

/-- Nor does what comes of an instruction depend on it. -/
theorem settle_withAside (r : Except Exception Unit) (ev : Evaluator) (a : Aside) :
    settle (r, ev.withAside a) = ((settle (r, ev)).1, (settle (r, ev)).2.withAside a) ∧
      (settle (r, ev)).2.aside = ev.aside := by
  cases r with
  | error x => exact ⟨rfl, rfl⟩
  | ok => exact ⟨completeFrames_withAside ev a, aside_completeFrames ev⟩

/-- A step is the same with something related laid aside, as far as the code is that it may ask
for. -/
theorem step_mirrored (hcode : Reflects R U budget spare) (hasks : ∀ e, ev.Asks e → U e)
    (hR : R ev.aside a) (h : ev.step budget = some (answer, after)) :
    ∃ a', R after.aside a' ∧ ∃ least, ∀ more, least ≤ more →
      (ev.withAside a).step (spare more) = some (answer, after.withAside a') := by
  cases ho : ev.outcome with
  | some outcome =>
    rw [step_of_outcome ho] at h
    obtain ⟨rfl, rfl⟩ := Prod.mk.inj (Option.some.inj h)
    exact ⟨a, hR, 0, fun more _ => step_of_outcome ho⟩
  | none =>
    have ho' : (ev.withAside a).outcome = none := ho
    cases hl : ev.reachedLimit? with
    | some limit =>
      rw [step_of_reachedLimit ho hl] at h
      obtain ⟨rfl, rfl⟩ := Prod.mk.inj (Option.some.inj h)
      exact ⟨a, hR, 0, fun more _ => step_of_reachedLimit ho' hl⟩
    | none =>
      have hl' : (ev.withAside a).reachedLimit? = none := hl
      cases hf : ev.frames with
      | nil =>
        rw [step_of_idle ho hl hf] at h
        obtain ⟨rfl, rfl⟩ := Prod.mk.inj (Option.some.inj h)
        exact ⟨a, hR, 0, fun more _ => step_of_idle ho' hl' hf⟩
      | cons frame outer =>
        have hf' : (ev.withAside a).frames = frame :: outer := hf
        rw [step_eq budget ho hl hf] at h
        cases hc : frame.current? with
        | none =>
          rw [hc] at h
          obtain ⟨rfl, rfl⟩ := Prod.mk.inj (Option.some.inj h)
          refine ⟨a, (aside_completeFrames ev).symm ▸ hR, 0, fun more _ => ?_⟩
          rw [step_eq (spare more) ho' hl' hf', hc]
          exact congrArg some (completeFrames_withAside ev a)
        | some i =>
          rw [hc] at h
          obtain ⟨⟨r, mid⟩, hact, hs⟩ := Option.map_eq_some_iff.1 h
          have hi : ∀ call callee lower e, i = .finish (.call call) →
              (ev.fetch frame outer i).stack.items = callee :: lower →
              callee.code? = some e → U e := by
            rintro call callee lower e rfl hitems hcallee
            exact hasks e ⟨ho, frame, outer, call, callee, lower, hf, hc, hitems, hcallee⟩
          obtain ⟨a', hR', least, hsame⟩ := (mirrors_act hcode i hi).mirrored hR hact
          obtain ⟨hsettle, hkept⟩ := settle_withAside r mid a'
          rw [hs] at hsettle hkept
          refine ⟨a', hkept ▸ hR', least, fun more hle => ?_⟩
          rw [step_eq (spare more) ho' hl' hf', hc, ← hsettle]
          exact congrArg (Option.map settle) (hsame more hle)

end Evaluator

end Stepwise

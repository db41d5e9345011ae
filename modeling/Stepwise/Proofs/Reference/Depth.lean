import Stepwise.Proofs.Reference.Evaluate

/-!
# The limit on frames

The reference evaluation bounds how many frames may be entered inside of one another.  The bound is
no part of what a program means: an evaluation that stays within it results in the same under every
greater one (`evaluatePass_of_le`), so any such bound tells how a pass should end (`means_iff`).
-/

namespace Stepwise.Reference

/-- The second evaluation results in what the first one results in, unless that is too deep. -/
def Deepens {α : Type} (m m' : Evaluation α) : Prop :=
  ∀ store, m store = .error .tooDeep ∨ m store = m' store

/-- Where the first allows for a frame the second does so too, and deepens its evaluation. -/
def Env.Enter.Deepens (enter enter' : Env.Enter) : Prop :=
  ∀ evaluate, enter = some evaluate → ∃ evaluate', enter' = some evaluate' ∧
    ∀ env layout, Reference.Deepens (evaluate env layout) (evaluate' env layout)

namespace Deepens

variable {α β : Type} {enter enter' : Env.Enter}

theorem refl (m : Evaluation α) : Deepens m m := by
  intro store
  exact Or.inr rfl

theorem trans {m m' m'' : Evaluation α} (h : Deepens m m') (h' : Deepens m' m'') :
    Deepens m m'' := by
  intro store
  rcases h store with hdeep | heq
  · exact Or.inl hdeep
  · rw [heq]
    exact h' store

theorem bind {m m' : Evaluation α} {f f' : α → Evaluation β} (h : Deepens m m')
    (hf : ∀ a, Deepens (f a) (f' a)) : Deepens (m >>= f) (m' >>= f') := by
  intro store
  rcases h store with hdeep | heq
  · exact Or.inl (bind_error hdeep)
  · cases hm : m store with
    | error fault =>
      have hm' : m' store = .error fault := heq ▸ hm
      rw [bind_error hm, bind_error hm']
      exact Or.inr rfl
    | ok r =>
      obtain ⟨a, mid⟩ := r
      have hm' : m' store = .ok (a, mid) := heq ▸ hm
      rw [bind_ok hm, bind_ok hm']
      exact hf a mid

theorem inFrame {m m' : Evaluation α} (bindings : Bindings) (h : Deepens m m') :
    Deepens (inFrame bindings m) (inFrame bindings m') := by
  unfold Reference.inFrame
  refine (refl _).bind fun outer => (refl _).bind fun _ => h.bind fun value => refl _

theorem require (h : enter.Deepens enter')
    {k k' : (Env → Layout → Evaluation Value) → Evaluation α}
    (hk : ∀ evaluate evaluate',
      (∀ env layout, Deepens (evaluate env layout) (evaluate' env layout)) →
      Deepens (k evaluate) (k' evaluate')) :
    Deepens (enter.require >>= k) (enter'.require >>= k') := by
  cases enter with
  | none =>
    intro store
    exact Or.inl rfl
  | some evaluate =>
    obtain ⟨evaluate', rfl, heval⟩ := h evaluate rfl
    exact hk evaluate evaluate' heval

/-! ## Calls and layouts -/

theorem callFunction (h : enter.Deepens enter') (env : Env) (c : Call) (f : FunctionDef)
    (scope : Scope) (arguments : List Value) :
    Deepens (env.callFunction enter c f scope arguments)
      (env.callFunction enter' c f scope arguments) := by
  unfold Env.callFunction
  refine (refl _).bind fun bindings => ?_
  cases f.body with
  | none => exact refl _
  | some body =>
    refine (refl _).bind fun layout => require h fun evaluate evaluate' heval => ?_
    exact (inFrame _ (heval _ layout)).bind fun _ => refl _

theorem forMembers {evaluate evaluate' : Layout → Evaluation Value}
    (h : ∀ layout, Deepens (evaluate layout) (evaluate' layout)) (block : Option Layout) :
    Deepens (Env.forMembers evaluate block) (Env.forMembers evaluate' block) := by
  cases block with
  | none => exact refl _
  | some layout => exact (h layout).bind fun _ => refl _

theorem instantiate (h : enter.Deepens enter') (env : Env) (c : Call) (s : StructDef)
    (scope : Scope) (arguments : List Value) :
    Deepens (env.instantiate enter c s scope arguments)
      (env.instantiate enter' c s scope arguments) := by
  unfold Env.instantiate
  refine (refl _).bind fun bindings => (refl _).bind fun block => (refl _).bind fun id => ?_
  refine require h fun evaluate evaluate' heval => ?_
  exact (inFrame bindings (forMembers (heval _) block)).bind fun _ => refl _

theorem conclude (h : enter.Deepens enter') (env : Env) (e : Expr) (values : List Value) :
    Deepens (env.conclude enter e values) (env.conclude enter' e values) := by
  cases e with
  | call c =>
    simp only [Env.conclude]
    cases values.getLast? with
    | none => exact refl _
    | some callee =>
      cases callee with
      | function f scope => exact callFunction h env c f scope values.dropLast
      | structDef s scope => exact instantiate h env c s scope values.dropLast
      | _ => exact refl _
  | _ => exact refl _

mutual

theorem evaluateWith (h : enter.Deepens enter') (env : Env) (layout : Layout) :
    Deepens (Reference.evaluateWith enter env layout)
      (Reference.evaluateWith enter' env layout) := by
  cases layout with
  | leaf e => exact refl _
  | halt node reason => exact refl _
  | node e parts =>
    refine (evaluateAllWith h env parts).bind fun values => ?_
    exact (conclude h env e values).bind fun _ => refl _
  | branch id condition yes no =>
    refine (evaluateWith h env condition).bind fun value => ?_
    have hyes := evaluateWith h env yes
    have hno := evaluateWith h env no
    cases value with
    | boolean holds =>
      cases holds with
      | true => exact hyes
      | false => exact hno
    | _ => exact refl _
termination_by structural layout

theorem evaluateAllWith (h : enter.Deepens enter') (env : Env) (parts : List Layout) :
    Deepens (Reference.evaluateAllWith enter env parts)
      (Reference.evaluateAllWith enter' env parts) := by
  cases parts with
  | nil => exact refl _
  | cons part parts =>
    have hothers := evaluateAllWith h env parts
    exact (evaluateWith h env part).bind fun first => hothers.bind fun others => refl _
termination_by structural parts

end

end Deepens

/-! ## More depth -/

theorem enterAt_deepens (depth : Nat) : (enterAt depth).Deepens (enterAt (depth + 1)) := by
  induction depth with
  | zero =>
    intro evaluate h
    simp [enterAt] at h
  | succ depth ih =>
    intro evaluate h
    obtain rfl : evaluateAt depth = evaluate := Option.some.inj h
    refine ⟨evaluateAt (depth + 1), rfl, ?_⟩
    intro env layout
    rw [evaluateAt_eq depth, evaluateAt_eq (depth + 1)]
    exact .evaluateWith ih env layout

theorem evaluateAt_deepens {depth depth' : Nat} (h : depth ≤ depth') (env : Env) (layout : Layout) :
    Deepens (evaluateAt depth env layout) (evaluateAt depth' env layout) := by
  induction h with
  | refl => exact .refl _
  | @step deeper _ ih =>
    have hstep : Deepens (evaluateAt deeper env layout) (evaluateAt (deeper + 1) env layout) := by
      rw [evaluateAt_eq deeper, evaluateAt_eq (deeper + 1)]
      exact .evaluateWith (enterAt_deepens deeper) env layout
    exact ih.trans hstep

section Pass

variable {ev : Evaluator} {budget depth depth' : Nat} {layouts : Assoc NodeId Layout} {root : Expr}

/-- What a pass should come to does not depend on a limit that is not reached. -/
theorem evaluatePass_of_le (h : depth ≤ depth')
    (hdepth : evaluatePass ev budget depth layouts root ≠ .error .tooDeep) :
    evaluatePass ev budget depth' layouts root = evaluatePass ev budget depth layouts root := by
  have hdeepens : Deepens
      ((Env.ofPass ev budget).layoutOf root >>= evaluateAt depth (Env.ofPass ev budget))
      ((Env.ofPass ev budget).layoutOf root >>= evaluateAt depth' (Env.ofPass ev budget)) :=
    (Deepens.refl _).bind fun layout => evaluateAt_deepens h _ layout
  rcases hdeepens (Store.ofPass ev layouts) with hdeep | heq
  · refine absurd ?_ hdepth
    show ((_ >>= _ : Evaluation Value) (Store.ofPass ev layouts)).map Prod.fst = _
    rw [hdeep]
    rfl
  · exact congrArg (Except.map Prod.fst) heq.symm

theorem evaluatePass_unique (h : evaluatePass ev budget depth layouts root ≠ .error .tooDeep)
    (h' : evaluatePass ev budget depth' layouts root ≠ .error .tooDeep) :
    evaluatePass ev budget depth layouts root = evaluatePass ev budget depth' layouts root := by
  rcases Nat.le_total depth depth' with hle | hle
  · exact (evaluatePass_of_le hle h).symm
  · exact evaluatePass_of_le hle h'

theorem resultOf_ne_tooDeep (outcome : Outcome) : resultOf outcome ≠ .error .tooDeep := by
  cases outcome <;> simp [resultOf]

/-- How a pass should end can be told with any limit that is not reached. -/
theorem means_iff (hdepth : evaluatePass ev budget depth layouts root ≠ .error .tooDeep)
    {outcome : Outcome} : Means ev budget layouts root outcome ↔
      evaluatePass ev budget depth layouts root = resultOf outcome := by
  constructor
  · rintro ⟨other, hother⟩
    have hne : evaluatePass ev budget other layouts root ≠ .error .tooDeep := by
      rw [hother]
      exact resultOf_ne_tooDeep outcome
    rw [evaluatePass_unique hdepth hne, hother]
  · intro h
    exact ⟨depth, h⟩

end Pass

end Stepwise.Reference

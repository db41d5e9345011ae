import Stepwise.Proofs.Reference.Prospect

/-!
# The machine realizes the reference evaluation

Code and the layout that it is the code of stand for the same thing: when the machine comes to the
code of a layout, it gets behind that code with the value of the layout on the stack, or the pass
ends with the exception that evaluating the layout raises (`Simulates`).

This is proved form by form, given the same for all layouts in places where fewer frames may be
started (`Realizable`).  Calls need that: the frame of the callee has one less on top of it.
-/

namespace Stepwise.Reference

open Stepwise.Action
open Stepwise.Evaluator

/-! ## Code and layouts -/

/-- Code realizes an evaluation at a place: the machine gets from the beginning of the code behind
it, with the values on the stack. -/
structure Simulates {α : Type} (p : Place) (code : Code) (m : Evaluation α)
    (values : α → List Value) : Prop where
  realizes : ∀ {cursor store items ev rest}, p.Holds cursor store items ev →
    p.frame.code.drop cursor = code ++ rest →
    Realizes p.env.budget (ev.prospect p.env.budget) (m store) fun a mid after =>
      p.Holds (cursor + code.length) mid ((values a).reverse ++ items) after ∧
        ∀ value ∈ values a, value.isException = false

theorem current?_of_drop {p : Place} {cursor : Nat} {store : Store} {i : Instruction} {rest : Code}
    (h : p.frame.code.drop cursor = i :: rest) : (p.frameAt cursor store).current? = some i := by
  show p.frame.code[cursor]? = some i
  rw [← List.head?_drop, h, List.head?_cons]

theorem drop_add_of_append {α : Type} {l first others : List α} {n : Nat}
    (h : l.drop n = first ++ others) : l.drop (n + first.length) = others := by
  rw [← List.drop_drop, h, List.drop_left]

section Code

variable {p : Place} {cursor : Nat} {store : Store} {items : List Value} {ev : Evaluator}
  {rest : Code}

/-- An instruction acts when the machine comes to it. -/
theorem leads_of_holds {i : Instruction} (h : p.Holds cursor store items ev)
    (hc : p.frame.code.drop cursor = i :: rest) :
    (ev.prospect p.env.budget).Leads
      (prospectAfter p.env.budget
        (i.act p.env.budget (ev.fetch (p.frameAt cursor store) p.outer i))) := by
  have hcurrent : (p.frameAt cursor store).current? = some i := current?_of_drop hc
  have hlimit : ev.reachedLimit? = none := by
    rw [Evaluator.reachedLimit?, h.options, p.unlimited, Option.filter_none]
  exact leads_act h.running hlimit h.frames hcurrent

theorem realizes_raise {α : Type} {R : α → Store → Evaluator → Prop}
    {r : Option (Except Exception Unit × Evaluator)} {after : Evaluator} {node : NodeId}
    {kind : ExceptionKind} (h : p.Holds cursor store items ev)
    (hr : r = some (.error ((ev.exception kind).atNode node), after)) :
    Realizes p.env.budget (prospectAfter p.env.budget r)
      ((p.env.raise node kind : Evaluation α) store) R := by
  rw [hr, h.exception]
  intro outcome
  exact Iff.rfl

theorem simulates_halt (p : Place) (node : NodeId) (reason : HaltReason) :
    Simulates p [.halt node reason] (p.env.raise node reason.exceptionKind : Evaluation Value)
      (fun value => [value]) := by
  refine ⟨fun h hc => .of_leads ?_ (leads_of_holds h hc)⟩
  exact realizes_raise (h.fetch _) rfl

/-- The code of layouts that realize their evaluations one by one realizes these in order. -/
theorem simulates_nil (p : Place) (enter : Env.Enter) :
    Simulates p (codeAll []) (evaluateAllWith enter p.env []) id := by
  refine ⟨fun {cursor store items ev rest} h _ => ?_⟩
  exact ⟨ev, ⟨h, by simp⟩, .refl _⟩

theorem simulates_cons {enter : Env.Enter} {part : Layout} {parts : List Layout}
    (hpart : Simulates p part.code (evaluateWith enter p.env part) (fun value => [value]))
    (hparts : Simulates p (codeAll parts) (evaluateAllWith enter p.env parts) id) :
    Simulates p (codeAll (part :: parts)) (evaluateAllWith enter p.env (part :: parts)) id := by
  refine ⟨fun {cursor store items ev rest} h hc => ?_⟩
  rw [codeAll, List.append_assoc] at hc
  refine (hpart.realizes h hc).bind fun first mid after hfirst => ?_
  refine (hparts.realizes hfirst.1 (drop_add_of_append hc)).bind fun others last done hothers => ?_
  refine ⟨done, ⟨?_, ?_⟩, .refl _⟩
  · have hlen : cursor + (codeAll (part :: parts)).length =
        cursor + part.code.length + (codeAll parts).length := by
      rw [codeAll, List.length_append, Nat.add_assoc]
    have hitems : (id (first :: others)).reverse ++ items =
        (id others).reverse ++ ([first].reverse ++ items) := by simp
    rw [hlen, hitems]
    exact hothers.1
  · intro value hmem
    rcases List.mem_cons.1 hmem with rfl | hmem
    · exact hfirst.2 value (by simp)
    · exact hothers.2 value hmem

/-- An expression without parts is evaluated by its one instruction. -/
theorem simulates_leaf (p : Place) (enter : Env.Enter) {e : Expr} (he : e.isLeaf = true) :
    Simulates p (Layout.leaf e).code (evaluateWith enter p.env (.leaf e))
      (fun value => [value]) := by
  refine ⟨fun {cursor store items ev rest} h hc => ?_⟩
  rw [Layout.code] at hc
  refine .of_leads ?_ (leads_of_holds h hc)
  have hstands : p.Holds (cursor + 1) store (([] : List Value).reverse ++ items) _ :=
    h.fetch (.finish e)
  have hfinish := mirrors_finish p.env.budget hstands h.base (by simp) (Or.inl ⟨he, rfl⟩)
    (isCall_of_isLeaf he)
  exact hfinish.realizes fun after value mid hm => ⟨hm.1, by simpa using hm.2⟩

/-- The condition decides which branch the machine comes to; behind the first branch it jumps over
the second. -/
theorem simulates_branch {enter : Env.Enter} {id : NodeId} {condition yes no : Layout}
    (hcondition : Simulates p condition.code (evaluateWith enter p.env condition)
      (fun value => [value]))
    (hyes : Simulates p yes.code (evaluateWith enter p.env yes) (fun value => [value]))
    (hno : Simulates p no.code (evaluateWith enter p.env no) (fun value => [value])) :
    Simulates p (Layout.branch id condition yes no).code
      (evaluateWith enter p.env (.branch id condition yes no)) (fun value => [value]) := by
  refine ⟨fun {cursor store items ev rest} h hc => ?_⟩
  rw [Layout.code, conditionalCode_eq] at hc ⊢
  rw [List.append_assoc] at hc
  refine (hcondition.realizes h hc).bind fun value mid after hr => ?_
  obtain ⟨hafter, hv⟩ := hr
  have hjump := drop_add_of_append hc
  refine .of_leads ?_ (leads_of_holds hafter hjump)
  have hfetch := hafter.fetch (.jumpIfFalse yes.code.length id)
  have hlower := hfetch.withItems h.base
  have hact := act_jumpIfFalse p.env.budget yes.code.length id hfetch.stack
    (by rw [hfetch.base_eq]; exact h.base) (hv value (by simp))
  rw [hact]
  have hyesCode : p.frame.code.drop (cursor + condition.code.length + 1) =
      yes.code ++ (.jump no.code.length id :: no.code ++ rest) := by
    rw [← List.drop_drop, hjump]
    simp
  have hlen : cursor + (condition.code ++ .jumpIfFalse yes.code.length id ::
      (yes.code ++ .jump no.code.length id :: no.code)).length =
        cursor + condition.code.length + 1 + yes.code.length + 1 + no.code.length := by
    simp only [List.length_append, List.length_cons]
    omega
  rw [hlen]
  cases value with
  | boolean holds =>
    cases holds with
    | true =>
      refine .of_leads ?_ (leads_of_act rfl)
      refine (hyes.realizes hlower hyesCode).onward fun value last done hr => ?_
      obtain ⟨hdone, hv⟩ := hr
      have hover := (hdone.fetch (.jump no.code.length id)).advance no.code.length
      have hover' := leads_of_holds hdone (drop_add_of_append hyesCode)
      exact ⟨_, ⟨hover, hv⟩, hover'.trans (leads_of_act rfl)⟩
    | false =>
      have hnoCode : p.frame.code.drop
          (cursor + condition.code.length + 1 + (yes.code.length + 1)) = no.code ++ rest := by
        rw [← List.drop_drop, hyesCode]
        simp
      refine .of_leads ?_ (leads_of_act rfl)
      exact hno.realizes (hlower.advance (yes.code.length + 1)) hnoCode
  | exception => simp [Value.isException] at hv
  | _ => exact realizes_raise hfetch rfl

end Code

/-! ## Calls -/

/-- The frame that a call starts at a place. -/
def Place.inner (p : Place) (cursor : Nat) (store : Store) (base : Nat) (frame : Frame)
    {id : NodeId} (hd : frame.definition? = some id) : Place where
  env := { p.env with definition := some id, scope := frame.scope }
  options := p.options
  frame := { frame with base := base }
  outer := p.frameAt cursor store :: p.outer
  scope := rfl
  definition := by
    have hd : ({ frame with base := base } : Frame).definition? = some id := hd
    rw [List.findSome?_cons, hd]
  unlimited := p.unlimited

/-- How many more frames may be started. -/
def Place.room (p : Place) : Nat :=
  p.options.maxDepth - (p.outer.length + 1)

section Calls

variable {p : Place} {cursor : Nat} {store : Store} {items : List Value} {ev : Evaluator}

theorem Place.Holds.pushFrame (h : p.Holds cursor store items ev) {frame : Frame} {id : NodeId}
    (hd : frame.definition? = some id) (hcursor : frame.cursor = 0) :
    (p.inner cursor store items.length frame hd).Holds 0 { store with bindings := frame.bindings }
      items (ev.pushFrame frame) := by
  have hframe : (p.inner cursor store items.length frame hd).frameAt 0
      { store with bindings := frame.bindings } = { frame with base := items.length } := by
    rw [Place.frameAt, ← hcursor]
    rfl
  refine { h with frames := ?_, base := Nat.le_refl _ }
  rw [hframe, Evaluator.pushFrame, Stack.height, h.stack, h.frames]
  rfl

/-- The value on top is the result of a frame that builds no instance. -/
theorem result?_of_items {frame : Frame} {value : Value}
    (hk : ∀ s, frame.kind ≠ .struct s) (hi : ev.stack.items = [value] ++ items)
    (hb : frame.base ≤ items.length) : ev.result? frame = some value := by
  have hlt : frame.base < ev.stack.height := by
    rw [Stack.height, hi, List.singleton_append, List.length_cons]
    omega
  unfold result?
  split
  · rename_i s hs
    exact absurd hs (hk s)
  · rw [Stack.popAbove_of_lt hi hlt]
    rfl

/-- A frame that has come to the end of its code hands its result down, and the caller goes on with
the names that it had bound. -/
theorem Place.Holds.handDown {frame : Frame} {id : NodeId} {hd : frame.definition? = some id}
    {mid : Store} {extra : List Value} {after : Evaluator} {next : Nat}
    (hp : p.frame.base ≤ items.length)
    (h : (p.inner cursor store items.length frame hd).Holds frame.code.length mid
      (extra ++ items) after) {value : Value}
    (hr : after.result? ((p.inner cursor store items.length frame hd).frameAt frame.code.length mid)
      = some value) (hv : value.isException = false)
    (hnext : (after.cleared frame).nextScope = next) :
    ∃ done, p.Holds cursor { mid with bindings := store.bindings, nextScope := next }
        (value :: items) done ∧
      (after.prospect p.env.budget).Leads (done.prospect p.env.budget) := by
  have hdone : ((p.inner cursor store items.length frame hd).frameAt frame.code.length mid).isDone
      = true := by
    simp [Frame.isDone, Place.frameAt, Place.inner]
  refine ⟨_, ?_, leads_handDown h.frames hdone hr hv⟩
  have hdrop : (after.stack.truncate items.length).items = items := by
    simp [Stack.truncate, Stack.height, h.stack]
  exact { h with
    nextScope := hnext
    running := h.running
    frames := rfl
    stack := congrArg (value :: ·) hdrop
    base := Nat.le_succ_of_le hp }

theorem inFrame_bind {α β : Type} (bindings : Bindings) (body : Evaluation α)
    (k : α × Bindings → Evaluation β) :
    (inFrame bindings body >>= k) store =
      (body >>= fun a inner => k (a, inner.bindings) { inner with bindings := store.bindings })
        { store with bindings := bindings } := by
  have hframe : inFrame bindings body store =
      (body { store with bindings := bindings } >>= fun r =>
        .ok ((r.1, r.2.bindings), { r.2 with bindings := store.bindings })) := rfl
  cases hb : body { store with bindings := bindings } with
  | error fault => rw [bind_error hb, bind_error (hframe.trans (by rw [hb]; rfl))]
  | ok r => rw [bind_ok hb, bind_ok (hframe.trans (by rw [hb]; rfl))]

/-- A frame is started when there is room for it. -/
theorem realizes_startFrame {β : Type} {S : β → Store → Evaluator → Prop} {frame : Frame}
    (node : NodeId) {m : (Env → Layout → Evaluation Value) → Evaluation β}
    (h : p.Holds cursor store items ev)
    (hm : ∀ depth, p.room = depth + 1 →
      Realizes p.env.budget ((ev.pushFrame frame).prospect p.env.budget)
        (m (evaluateAt depth) store) S) :
    Realizes p.env.budget (prospectAfter p.env.budget (blaming node (startFrame frame) ev))
      ((Env.Enter.require (enterAt p.room) >>= m) store) S := by
  have hlen : ev.frames.length = p.outer.length + 1 := by rw [h.frames, List.length_cons]
  rw [blaming_apply, startFrame_apply, h.options, hlen]
  cases hroom : p.room with
  | zero =>
    have hfull : p.options.maxDepth ≤ p.outer.length + 1 := by
      unfold Place.room at hroom
      omega
    rw [if_pos hfull]
    exact ⟨_, _, rfl, fun _ => Iff.rfl⟩
  | succ depth =>
    have hfree : ¬p.options.maxDepth ≤ p.outer.length + 1 := by
      unfold Place.room at hroom
      omega
    rw [if_neg hfree]
    exact .of_leads (hm depth hroom) (leads_of_act rfl)

/-- In all places where so many frames may be started, the code of formed layouts realizes their
evaluation. -/
def Realizable (depth : Nat) : Prop :=
  ∀ (p : Place) (layout : Layout), p.room = depth → layout.Formed p.env.context →
    Simulates p layout.code (evaluateAt depth p.env layout) (fun value => [value])

/-- A call leaves its value on the stack. -/
abbrev Arrives (p : Place) (cursor : Nat) (items : List Value) (value : Value) (store : Store)
    (ev : Evaluator) : Prop :=
  p.Holds cursor store (value :: items) ev ∧ value.isException = false

theorem Place.room_inner {frame : Frame} {id : NodeId} {base depth : Nat}
    (hd : frame.definition? = some id) (h : p.room = depth + 1) :
    (p.inner cursor store base frame hd).room = depth := by
  unfold Place.room at h
  show p.options.maxDepth - ((p.frameAt cursor store :: p.outer).length + 1) = depth
  rw [List.length_cons]
  omega

/-- A frame that has been started evaluates the layout of its body. -/
theorem Realizable.realizes_body {depth : Nat} {frame : Frame} {id : NodeId} {layout : Layout}
    (hbelow : Realizable depth) (hroom : p.room = depth + 1) (h : p.Holds cursor store items ev)
    (hd : frame.definition? = some id) (hcursor : frame.cursor = 0) 
    (hcode : frame.code = layout.code) (hformed : layout.Formed p.env.context) :
    Realizes p.env.budget ((ev.pushFrame frame).prospect p.env.budget)
      (evaluateAt depth { p.env with definition := some id, scope := frame.scope } layout
        { store with bindings := frame.bindings })
      (fun value mid after =>
        (p.inner cursor store items.length frame hd).Holds frame.code.length mid
          ([value] ++ items) after ∧ value.isException = false) := by
  have hsim := hbelow (p.inner cursor store items.length frame hd) layout (p.room_inner hd hroom)
    hformed
  have hdrop : frame.code.drop 0 = layout.code ++ [] := by
    rw [List.drop_zero, hcode, List.append_nil]
  refine (hsim.realizes (h.pushFrame hd hcursor) hdrop).onward fun value mid after hr => ?_
  rw [Nat.zero_add, ← hcode] at hr
  exact ⟨after, ⟨hr.1, hr.2 value (by simp)⟩, .refl _⟩

theorem Realizable.realizes_block {depth : Nat} {frame : Frame} {id : NodeId}
    {block : Option Layout} (hbelow : Realizable depth) (hroom : p.room = depth + 1)
    (h : p.Holds cursor store items ev) (hd : frame.definition? = some id)
    (hcursor : frame.cursor = 0) (hcode : frame.code = codeOf? block)
    (hformed : ∀ layout, block = some layout → layout.Formed p.env.context) :
    Realizes p.env.budget ((ev.pushFrame frame).prospect p.env.budget)
      (Env.forMembers
        (evaluateAt depth { p.env with definition := some id, scope := frame.scope }) block
        { store with bindings := frame.bindings })
      (fun _ mid after => ∃ extra,
        (p.inner cursor store items.length frame hd).Holds frame.code.length mid
          (extra ++ items) after) := by
  cases block with
  | none =>
    have hempty : frame.code.length = 0 := by rw [hcode]; rfl
    rw [hempty]
    exact ⟨_, ⟨[], h.pushFrame hd hcursor⟩, .refl _⟩
  | some layout =>
    refine (hbelow.realizes_body hroom h hd hcursor hcode (hformed layout rfl)).bind
      fun value mid after hr => ?_
    exact ⟨after, ⟨[value], hr.1⟩, .refl _⟩

theorem realizes_callFunction (hbelow : ∀ depth, p.room = depth + 1 → Realizable depth)
    (h : p.Holds cursor store items ev) (c : Call) (f : FunctionDef) (scope : Scope)
    {arguments : List Value} (hn : arguments.length = valueCount (plan f.inputs c.inputs)) :
    Realizes p.env.budget
      (prospectAfter p.env.budget
        ((prepare p.env.budget c arguments (.function f scope) >>=
          fun frame => blaming c.id (startFrame frame)) ev))
      (p.env.callFunction (enterAt p.room) c f scope arguments store)
      (Arrives p cursor items) := by
  unfold prepare Env.callFunction
  rw [bind_assoc]
  refine (mirrors_argumentBindings c f.inputs hn).bind_realizes
    fun bindings after found mid hr => ?_
  obtain ⟨rfl, rfl, rfl⟩ := hr
  unfold prepareFunction
  cases f.body with
  | none => exact realizes_raise h rfl
  | some body =>
    dsimp only
    rw [blaming_bind, bind_assoc]
    refine ((mirrors_codeOf body h.context h.memo h.covers).blaming c.id
      fun x hx => nomatch fault_of_layoutOf hx).bind_realizes fun code after layout mid hr => ?_
    obtain ⟨rfl, hformed, hlearnt⟩ := hr
    have hmid := hlearnt.holds h
    rw [bind_apply, blaming_apply, pure_apply]
    refine realizes_startFrame c.id hmid fun depth hroom => ?_
    rw [inFrame_bind]
    have hself : Frame.definition?
        { kind := .function f, node := body.id, code := layout.code,
          bindings := bindSelf bindings f.aliases (.function f scope), scope := scope } =
        some f.id := rfl
    refine ((hbelow depth hroom).realizes_body hroom hmid hself rfl rfl hformed).bind
      fun value last done hr => ?_
    obtain ⟨hdone, hv⟩ := hr
    have hresult : done.result?
        ((p.inner cursor mid items.length _ hself).frameAt layout.code.length last) = some value :=
      result?_of_items nofun hdone.stack (Nat.le_refl items.length)
    obtain ⟨done', hdone', heq⟩ := hdone.handDown h.base hresult hv hdone.nextScope
    exact ⟨done', ⟨hdone', hv⟩, heq⟩

/-- What a structure is called over: names that do not become members. -/
theorem realizes_instantiate (hbelow : ∀ depth, p.room = depth + 1 → Realizable depth)
    (h : p.Holds cursor store items ev) (c : Call) (s : StructDef) (scope : Scope)
    {arguments : List Value} (hn : arguments.length = valueCount (plan s.inputs c.inputs)) :
    Realizes p.env.budget
      (prospectAfter p.env.budget
        ((prepare p.env.budget c arguments (.structDef s scope) >>=
          fun frame => blaming c.id (startFrame frame)) ev))
      (p.env.instantiate (enterAt p.room) c s scope arguments store)
      (Arrives p cursor items) := by
  unfold prepare Env.instantiate
  rw [bind_assoc]
  refine (mirrors_argumentBindings c s.inputs hn).bind_realizes
    fun bindings after found mid hr => ?_
  obtain ⟨rfl, rfl, rfl⟩ := hr
  unfold prepareStruct
  rw [blaming_bind, bind_assoc]
  refine ((mirrors_blockCode s h.context h.memo h.covers).blaming c.id
    fun x hx => nomatch fault_of_layoutOfBlock hx).bind_realizes fun code after block mid hr => ?_
  obtain ⟨rfl, hformed, hlearnt⟩ := hr
  rw [blaming_bind, bind_assoc]
  refine ((mirrors_freshScope (hlearnt.holds h)).blaming c.id nofun).bind_realizes
    fun id after mid' mid hr => ?_
  obtain ⟨rfl, hmid⟩ := hr
  rw [bind_apply, blaming_apply, pure_apply]
  refine realizes_startFrame c.id hmid fun depth hroom => ?_
  rw [inFrame_bind]
  have hself : Frame.definition?
      { kind := .struct s, node := s.id, code := codeOf? block, bindings := bindings,
        scope := .mk id (Assoc.ofList (s.aliases.map fun name => (name, .structDef s scope)))
          (some scope) } = some s.id := rfl
  refine ((hbelow depth hroom).realizes_block hroom hmid hself rfl rfl hformed).bind
    fun _ last done hr => ?_
  obtain ⟨extra, hdone⟩ := hr
  have hresult : done.result?
      ((p.inner cursor mid items.length _ hself).frameAt (codeOf? block).length last) =
        some (.struct s (.mk (.captured last.nextScope) last.bindings
          (some (.mk id (Assoc.ofList (s.aliases.map fun name => (name, .structDef s scope)))
            (some scope))))) := by
    rw [← hdone.nextScope]
    rfl
  obtain ⟨done', hdone', heq⟩ :=
    hdone.handDown h.base hresult rfl (congrArg (· + 1) hdone.nextScope)
  exact ⟨done', ⟨hdone', rfl⟩, heq⟩

/-- A call takes its callee and its arguments, and leaves the value of the callee's frame. -/
theorem realizes_call (hbelow : ∀ depth, p.room = depth + 1 → Realizable depth) (c : Call)
    {arguments : List Value} {callee : Value}
    (h : p.Holds cursor store (callee :: (arguments.reverse ++ items)) ev)
    (hb : p.frame.base ≤ items.length) (hcallee : callee.isException = false)
    (hv : ∀ value ∈ arguments, value.isException = false)
    (hagrees : ∀ inputs, callee.declaredInputs? = some inputs →
      arguments.length = valueCount (plan inputs c.inputs)) :
    Realizes p.env.budget
      (prospectAfter p.env.budget ((Instruction.finish (.call c)).act p.env.budget ev))
      (p.env.callValue (enterAt p.room) c arguments callee store) (Arrives p cursor items) := by
  have hlower : p.frame.base ≤ (arguments.reverse ++ items).length := by
    rw [List.length_append]
    omega
  have hpop := popOperand_of_items h.stack (by rw [h.base_eq]; exact hlower) hcallee
  rw [act_call, executeCall_eq, prepareCall, bind_assoc, bind_apply, hpop, Option.bind_some,
    continuing_ok]
  have harguments := h.withItems hlower
  have hvalues (inputs : List Binder) (hn : arguments.length = valueCount (plan inputs c.inputs)) :
      popOperands (valueCount (plan inputs c.inputs)) (ev.withItems (arguments.reverse ++ items)) =
        some (.ok arguments.reverse, ev.withItems items) := by
    rw [← hn, ← List.length_reverse]
    refine popOperands_apply rfl ?_ fun value hmem => hv value (List.mem_reverse.1 hmem)
    rw [harguments.base_eq]
    exact hb
  have hitems := harguments.withItems hb
  cases callee with
  | function f scope =>
    have hn := hagrees f.inputs rfl
    dsimp only [Value.declaredInputs?]
    rw [bind_assoc, bind_apply, hvalues f.inputs hn, Option.bind_some, continuing_ok,
      List.reverse_reverse]
    exact realizes_callFunction hbelow hitems c f scope hn
  | structDef s scope =>
    have hn := hagrees s.inputs rfl
    dsimp only [Value.declaredInputs?]
    rw [bind_assoc, bind_apply, hvalues s.inputs hn, Option.bind_some, continuing_ok,
      List.reverse_reverse]
    exact realizes_instantiate hbelow hitems c s scope hn
  | _ => exact realizes_raise harguments rfl

theorem bindArguments_mismatched (c : Call) {inputs : List Binder} {arguments : List Value}
    (hn : ¬arguments.length = valueCount (plan inputs c.inputs)) :
    bindArguments c inputs arguments store = .error .mismatched := by
  rw [bindArguments, if_neg hn]
  rfl

/-- A callee that asks for another number of values is a fault before anything else is done. -/
theorem callValue_mismatched {env : Env} {enter : Env.Enter} (c : Call) {inputs : List Binder}
    {arguments : List Value} {callee : Value} (hd : callee.declaredInputs? = some inputs)
    (hn : ¬arguments.length = valueCount (plan inputs c.inputs)) :
    env.callValue enter c arguments callee store = .error .mismatched := by
  have hbind : bindArguments c inputs arguments store = .error .mismatched :=
    bindArguments_mismatched c hn
  cases callee with
  | function f scope =>
    obtain rfl : f.inputs = inputs := Option.some.inj hd
    rw [Env.callValue, Env.callFunction, bind_error hbind]
  | structDef s scope =>
    obtain rfl : s.inputs = inputs := Option.some.inj hd
    rw [Env.callValue, Env.instantiate, bind_error hbind]
  | _ => simp [Value.declaredInputs?] at hd

theorem orRaise_of_value {value : Value} (hv : value.isException = false) :
    orRaise value = pure value := by
  cases value <;> first | rfl | exact nomatch hv

theorem length_of_evaluateAllWith {enter : Env.Enter} {env : Env} {parts : List Layout}
    {values : List Value} {mid : Store}
    (h : evaluateAllWith enter env parts store = .ok (values, mid)) :
    values.length = parts.length := by
  induction parts generalizing store values mid with
  | nil =>
    obtain ⟨rfl, -⟩ := Prod.mk.inj (Except.ok.inj h)
    rfl
  | cons part parts ih =>
    rw [evaluateAllWith] at h
    cases hfirst : evaluateWith enter env part store with
    | error fault =>
      rw [bind_error hfirst] at h
      exact nomatch h
    | ok first =>
      obtain ⟨first, next⟩ := first
      rw [bind_ok hfirst] at h
      cases hothers : evaluateAllWith enter env parts next with
      | error fault =>
        rw [bind_error hothers] at h
        exact nomatch h
      | ok others =>
        obtain ⟨others, last⟩ := others
        rw [bind_ok hothers] at h
        obtain ⟨rfl, -⟩ := Prod.mk.inj (Except.ok.inj h)
        rw [List.length_cons, List.length_cons, ih hothers]

theorem conclude_eq {env : Env} {enter : Env.Enter} {e : Expr} {values : List Value}
    (he : e.isCall = false) : env.conclude enter e values = env.combine e values := by
  cases e <;> first | rfl | exact nomatch he

/-- The last instruction of an expression stands behind the code of its parts. -/
theorem drop_finish {rest : Code} {e : Expr} {parts : List Layout}
    (hc : p.frame.code.drop cursor = .start e :: (codeAll parts ++ .finish e :: rest)) :
    p.frame.code.drop (cursor + (1 + (codeAll parts).length)) = .finish e :: rest := by
  have hc : p.frame.code.drop cursor = (.start e :: codeAll parts) ++ .finish e :: rest := hc
  rw [Nat.add_comm 1]
  exact drop_add_of_append hc

/-- The level of an expression counts its parts when the machine comes to its last instruction. -/
theorem levels_frameAt {rest : Code} {e : Expr} {parts : List Layout}
    (hc : p.frame.code.drop cursor = .start e :: (codeAll parts ++ rest))
    (hformed : ∀ part ∈ parts, part.Formed p.env.context) :
    (p.frameAt (cursor + (1 + (codeAll parts).length)) store).levels =
      ⟨some e, parts.length⟩ :: (p.frameAt cursor store).levels := by
  have htake : p.frame.code.take (cursor + (1 + (codeAll parts).length)) =
      p.frame.code.take cursor ++ (.start e :: codeAll parts) := by
    rw [List.take_add, hc, Nat.add_comm 1, List.take_succ_cons, List.take_left]
  show shapeAfter [⟨none, 0⟩] (p.frame.code.take (cursor + (1 + (codeAll parts).length))) = _
  rw [htake, shapeAfter_append, shapeAfter_cons]
  exact shape_parts (fun part hmem => laysOne_code (hformed part hmem)) e _

/-- A call does not agree when its callee asks for another number of values than it has parts. -/
theorem not_agrees_of_holds {rest : Code} {c : Call} {parts : List Layout} {callee : Value}
    {inputs : List Binder} {lower : List Value}
    (hc : p.frame.code.drop cursor =
      .start (.call c) :: (codeAll parts ++ .finish (.call c) :: rest))
    (hformed : ∀ part ∈ parts, part.Formed p.env.context)
    (h : p.Holds (cursor + (1 + (codeAll parts).length)) store (callee :: lower) ev)
    (hd : callee.declaredInputs? = some inputs)
    (hn : parts.length - 1 ≠ valueCount (plan inputs c.inputs)) : ¬ev.Agrees := by
  intro hagrees
  have hdrop := drop_finish hc
  have hlaid : (p.frameAt (cursor + (1 + (codeAll parts).length)) store).laidOut =
      parts.length - 1 := by
    rw [Frame.laidOut, levels_frameAt hc hformed]
  have hcount := hagrees _ p.outer c callee inputs h.frames (current?_of_drop hdrop)
    (by rw [h.stack]; rfl) hd
  rw [hlaid] at hcount
  exact hn hcount.symm

/-- What a call does with the values of its parts, unless it does not agree with its callee. -/
theorem realizes_finish_call {rest : Code} {c : Call} {parts : List Layout} {values : List Value}
    (hbelow : ∀ depth, p.room = depth + 1 → Realizable depth)
    (hc : p.frame.code.drop cursor =
      .start (.call c) :: (codeAll parts ++ .finish (.call c) :: rest))
    (hparts : (Expr.call c).Parts p.env.context parts.length)
    (hformed : ∀ part ∈ parts, part.Formed p.env.context)
    (h : p.Holds (cursor + (1 + (codeAll parts).length)) store (values.reverse ++ items) ev)
    (hb : p.frame.base ≤ items.length) (hv : ∀ value ∈ values, value.isException = false)
    (hcount : values.length = parts.length) :
    Realizes p.env.budget (ev.prospect p.env.budget)
      ((p.env.conclude (enterAt p.room) (.call c) values >>= orRaise) store)
      (Arrives p (cursor + (1 + (codeAll parts).length) + 1) items) := by
  obtain ⟨ty, static, -, -, hsize⟩ := hparts
  have hne : values ≠ [] := by
    rw [← List.length_pos_iff, hcount, hsize]
    exact Nat.succ_pos _
  obtain ⟨arguments, callee, rfl⟩ : ∃ arguments callee, values = arguments ++ [callee] :=
    ⟨_, _, (List.dropLast_concat_getLast hne).symm⟩
  have hconclude : p.env.conclude (enterAt p.room) (.call c) (arguments ++ [callee]) =
      p.env.callValue (enterAt p.room) c arguments callee := by
    simp [Env.conclude]
  have hitems : (arguments ++ [callee]).reverse ++ items =
      callee :: (arguments.reverse ++ items) := by simp
  have hdrop := drop_finish hc
  have hcount : arguments.length = parts.length - 1 := by
    rw [← hcount, List.length_append, List.length_singleton, Nat.add_sub_cancel]
  rw [hconclude]
  rw [hitems] at h
  by_cases hagrees : ∀ inputs, callee.declaredInputs? = some inputs →
      arguments.length = valueCount (plan inputs c.inputs)
  · refine .of_leads ?_ (leads_of_holds h hdrop)
    have hfetch := h.fetch (.finish (.call c))
    refine (realizes_call hbelow c hfetch hb (hv callee (by simp))
      (fun value hmem => hv value (List.mem_append_left _ hmem)) hagrees).bind
        fun value last done hr => ?_
    rw [orRaise_of_value hr.2]
    exact ⟨done, hr, .refl _⟩
  · obtain ⟨inputs, hother⟩ := Classical.not_forall.1 hagrees
    obtain ⟨hd, hn⟩ := Classical.not_imp.1 hother
    rw [bind_error (callValue_mismatched c hd hn)]
    have hactive : (p.frameAt (cursor + (1 + (codeAll parts).length)) store).current? =
        some (.finish (.call c)) := current?_of_drop hdrop
    have hdone : (p.frameAt (cursor + (1 + (codeAll parts).length)) store).isDone = false := by
      obtain ⟨hlt, -⟩ := List.getElem?_eq_some_iff.1 hactive
      simpa [Frame.isDone] using hlt
    rw [hcount] at hn
    exact ⟨ev, comes_self h.frames hdone, not_agrees_of_holds hc hformed h hd hn⟩

/-- The values of its parts are there when the machine comes to the last instruction of an
expression. -/
theorem simulates_node {e : Expr} {parts : List Layout}
    (hbelow : ∀ depth, p.room = depth + 1 → Realizable depth)
    (hparts : e.Parts p.env.context parts.length)
    (hformed : ∀ part ∈ parts, part.Formed p.env.context)
    (h : Simulates p (codeAll parts) (evaluateAllWith (enterAt p.room) p.env parts) id) :
    Simulates p (Layout.node e parts).code (evaluateWith (enterAt p.room) p.env (.node e parts))
      (fun value => [value]) := by
  refine ⟨fun {cursor store items ev rest} hstands hc => ?_⟩
  rw [Layout.code, enclose, List.append_assoc, List.cons_append, List.singleton_append] at hc
  refine .of_leads ?_ ((leads_of_holds hstands hc).trans (leads_of_act rfl))
  have hcode : p.frame.code.drop (cursor + 1) = codeAll parts ++ (.finish e :: rest) := by
    rw [← List.drop_drop, hc]
    rfl
  have hlen : cursor + (enclose e (codeAll parts)).length =
      cursor + (1 + (codeAll parts).length) + 1 := by
    simp only [enclose, List.length_append, List.length_cons, List.length_nil]
    omega
  refine (h.realizes (hstands.fetch (.start e)) hcode).and_eq.bind
    fun values mid after hr => ?_
  obtain ⟨⟨hafter, hv⟩, heq⟩ := hr
  have hcount : values.length = parts.length := length_of_evaluateAllWith heq
  rw [Nat.add_assoc] at hafter
  rw [Layout.code, hlen]
  cases he : e.isCall with
  | false =>
    refine .of_leads ?_ (leads_of_holds hafter (drop_finish hc))
    have hfetch := hafter.fetch (.finish e)
    rw [conclude_eq he]
    have hfinish := mirrors_finish p.env.budget hfetch hstands.base hv
      (Or.inr (hcount ▸ hparts)) he
    exact hfinish.realizes fun last value done hm => ⟨hm.1, by simpa using hm.2⟩
  | true =>
    cases e with
    | call c =>
      have hfinish := realizes_finish_call hbelow hc hparts hformed hafter hstands.base hv hcount
      refine hfinish.onward fun value last done hr => ?_
      exact ⟨done, ⟨hr.1, by simpa using hr.2⟩, .refl _⟩
    | _ => simp [Expr.isCall] at he

/-! ## Every layout -/

mutual

theorem simulates_layout (p : Place) (hbelow : ∀ depth, p.room = depth + 1 → Realizable depth)
    (layout : Layout) (hf : layout.Formed p.env.context) :
    Simulates p layout.code (evaluateWith (enterAt p.room) p.env layout)
      (fun value => [value]) := by
  cases layout with
  | leaf e =>
    cases hf with
    | leaf he => exact simulates_leaf p (enterAt p.room) he
  | node e parts =>
    cases hf with
    | node hparts hp => exact simulates_node hbelow hparts hp (simulates_layouts p hbelow parts hp)
  | branch id condition yes no =>
    cases hf with
    | branch hc hy hn =>
      exact simulates_branch (simulates_layout p hbelow condition hc)
        (simulates_layout p hbelow yes hy) (simulates_layout p hbelow no hn)
  | halt node reason => exact simulates_halt p node reason
termination_by structural layout

theorem simulates_layouts (p : Place) (hbelow : ∀ depth, p.room = depth + 1 → Realizable depth)
    (parts : List Layout) (hf : ∀ part ∈ parts, part.Formed p.env.context) :
    Simulates p (codeAll parts) (evaluateAllWith (enterAt p.room) p.env parts) id := by
  cases parts with
  | nil => exact simulates_nil p (enterAt p.room)
  | cons part parts =>
    obtain ⟨hpart, hothers⟩ := List.forall_mem_cons.1 hf
    exact simulates_cons (simulates_layout p hbelow part hpart)
      (simulates_layouts p hbelow parts hothers)
termination_by structural parts

end

/-- By induction on how many frames may be started: the body of a callee has one less. -/
theorem realizable (depth : Nat) : Realizable depth := by
  induction depth with
  | zero =>
    intro p layout hroom hf
    rw [evaluateAt_eq, ← hroom]
    exact simulates_layout p (fun depth h => absurd (hroom.symm.trans h) (by simp)) layout hf
  | succ depth ih =>
    intro p layout hroom hf
    rw [evaluateAt_eq, ← hroom]
    refine simulates_layout p (fun other h => ?_) layout hf
    obtain rfl : depth = other := Nat.succ.inj (hroom.symm.trans h)
    exact ih

end Calls

end Stepwise.Reference

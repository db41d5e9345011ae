import Stepwise.Proofs.Machine.Preserving

/-!
# Names never stand for exceptions

Exceptions are values, and a host may define a name to be one.  Evaluation itself never does: an
expression that yields an exception ends the pass before anything can be bound to it.  So if what
the host supplies is clean, then whatever a name stands for in a running pass is clean, and so is
every value on the stack (`Acts.clean`, `clean_handDown`).

A value is clean if it is no exception and no name can be looked up in it that stands for one.  The
elements of a list have no names, and no expression takes them out.
-/

namespace Stepwise

open Stepwise.Action

mutual

/-- A value that is no exception and in which no name stands for one. -/
inductive Value.Clean : Value → Prop
  | boolean (b : Bool) : Value.Clean (.boolean b)
  | text (t : TextValue) : Value.Clean (.text t)
  | number (n : NumberValue) : Value.Clean (.number n)
  | list (items : List Value) : Value.Clean (.list items)
  | function (f : FunctionDef) {scope : Scope} (h : Scope.Clean scope) :
      Value.Clean (.function f scope)
  | structDef (s : StructDef) {scope : Scope} (h : Scope.Clean scope) :
      Value.Clean (.structDef s scope)
  | struct (s : StructDef) {scope : Scope} (h : Scope.Clean scope) : Value.Clean (.struct s scope)

/-- A scope in which no name stands for an exception. -/
inductive Scope.Clean : Scope → Prop
  | mk {id : ScopeId} {bindings : Assoc String Value} {parent : Option Scope}
      (hb : ∀ name value, bindings.find? name = some value → Value.Clean value)
      (hp : ∀ scope, parent = some scope → Scope.Clean scope) : Scope.Clean (.mk id bindings parent)

end

/-- Bindings of clean values. -/
def CleanBindings (bindings : Bindings) : Prop :=
  ∀ name value, bindings.find? name = some value → value.Clean

theorem Value.Clean.isException {value : Value} (h : value.Clean) : value.isException = false := by
  cases h <;> rfl

/-! ## Bindings and scopes -/

theorem clean_bindings : BindingInvariant Value.Clean CleanBindings :=
  allBound_bindings

mutual

theorem Scope.Clean.lookup {name : String} {value : Value} : {scope : Scope} → scope.Clean →
    scope.lookup name = some value → value.Clean
  | .mk id bindings parent, .mk hb hp, h => by
    rw [Scope.lookup] at h
    cases hf : bindings.find? name with
    | none =>
      rw [hf] at h
      exact clean_of_lookup? hp h
    | some found =>
      rw [hf] at h
      exact Option.some.inj h ▸ hb name found hf

theorem clean_of_lookup? {name : String} {value : Value} : {parent : Option Scope} →
    (∀ scope, parent = some scope → scope.Clean) → Scope.lookup? name parent = some value →
    value.Clean
  | none, _, h => nomatch h
  | some scope, hp, h => Scope.Clean.lookup (hp scope rfl) h

end

theorem Scope.Clean.member {definition : StructDef} {scope : Scope} {name : String} {value : Value}
    (h : scope.Clean) (hm : memberValue? definition scope name = some value) : value.Clean := by
  obtain ⟨hb, hp⟩ := h
  unfold memberValue? at hm
  split at hm
  · rename_i found hf
    exact Option.some.inj hm ▸ hb name found hf
  · obtain ⟨f, -, rfl⟩ := Option.map_eq_some_iff.1 hm
    exact .function f (.mk hb hp)

/-! ## Evaluators -/

/-- A frame in which no name stands for an exception. -/
structure Frame.Clean (frame : Frame) : Prop where
  bindings : CleanBindings frame.bindings
  scope : frame.scope.Clean

theorem Frame.Clean.lookup {frame : Frame} {name : String} {value : Value} (h : frame.Clean)
    (hl : frame.lookup name = some value) : value.Clean := by
  rcases Option.or_eq_some_iff.1 hl with hb | ⟨-, hs⟩
  · exact h.bindings name value hb
  · exact h.scope.lookup hs

theorem Frame.Clean.capture {frame : Frame} (h : frame.Clean) (id : ScopeId) :
    (frame.capture id).Clean := by
  refine .mk h.bindings fun scope hs => ?_
  exact Option.some.inj hs ▸ h.scope

namespace Evaluator

/-- What the host has supplied is clean. -/
structure Supplied (ev : Evaluator) : Prop where
  globals : CleanBindings ev.globals
  streams : CleanBindings ev.streams

/-- No name stands for an exception, and no value on the stack is one. -/
structure Clean (ev : Evaluator) : Prop extends ev.Supplied where
  frames : ∀ frame ∈ ev.frames, frame.Clean
  stack : ∀ value ∈ ev.stack.items, value.Clean

variable {ev after : Evaluator}

theorem Works.supplied_iff (h : ev.Works after) : after.Supplied ↔ ev.Supplied :=
  ⟨fun hs => ⟨h.globals ▸ hs.globals, h.streams ▸ hs.streams⟩,
    fun hs => ⟨h.globals ▸ hs.globals, h.streams ▸ hs.streams⟩⟩

/-- Running supplies nothing. -/
theorem Runs.supplied_iff (h : ev.Runs after) : after.Supplied ↔ ev.Supplied := by
  induction h with
  | refl => exact Iff.rfl
  | tail _ hw ih => exact hw.supplied_iff.trans ih

theorem Clean.lookup (h : ev.Clean) {name : String} {value : Value}
    (hl : ev.lookup name = some value) : value.Clean := by
  rcases Option.or_eq_some_iff.1 hl with hl | ⟨-, hs⟩
  · rcases Option.or_eq_some_iff.1 hl with hf | ⟨-, hg⟩
    · obtain ⟨frame, hframe, hf⟩ := Option.bind_eq_some_iff.1 hf
      exact (h.frames frame (List.mem_of_head? hframe)).lookup hf
    · exact h.globals name value hg
  · exact h.streams name value hs

theorem Clean.closure (h : ev.Clean) : ev.closure.Clean := by
  unfold Evaluator.closure
  split
  · rename_i frame hframe
    exact (h.frames frame (List.mem_of_head? hframe)).capture _
  · exact .mk clean_bindings.empty nofun

/-- The values on the stack may be exchanged for clean ones. -/
theorem Clean.withItems (h : ev.Clean) {items : List Value} (hi : ∀ value ∈ items, value.Clean) :
    (ev.withItems items).Clean :=
  ⟨⟨h.globals, h.streams⟩, h.frames, hi⟩

theorem Clean.withCode (h : ev.Clean) {memo : Memo} {lowered : Assoc NodeId Code} :
    { ev with memo := memo, lowered := lowered }.Clean :=
  ⟨⟨h.globals, h.streams⟩, h.frames, h.stack⟩

theorem Clean.draw (h : ev.Clean) : { ev with nextScope := ev.nextScope + 1 }.Clean :=
  ⟨⟨h.globals, h.streams⟩, h.frames, h.stack⟩

/-- The innermost frame may change into a clean one. -/
theorem Clean.modifyHead (h : ev.Clean) {f : Frame → Frame}
    (hf : ∀ frame, frame.Clean → (f frame).Clean) :
    { ev with frames := ev.frames.modifyHead f }.Clean := by
  refine ⟨⟨h.globals, h.streams⟩, fun frame hmem => ?_, h.stack⟩
  cases hframes : ev.frames with
  | nil => simp [hframes] at hmem
  | cons first outer =>
    rw [hframes, List.modifyHead_cons] at hmem
    rcases List.mem_cons.1 hmem with rfl | hmem
    · exact hf first (h.frames first (by simp [hframes]))
    · exact h.frames frame (by simp [hframes, hmem])

theorem Clean.bindAll (h : ev.Clean) (aliases : List String) {value : Value} (hv : value.Clean) :
    (ev.bindAll aliases value).Clean := by
  rw [bindAll_eq]
  exact h.modifyHead fun frame hf => ⟨clean_bindings.bindAliases hf.bindings aliases hv, hf.scope⟩

theorem Clean.advance (h : ev.Clean) (distance : Nat) : (ev.advance distance).Clean := by
  rw [advance_eq]
  exact h.modifyHead fun frame hf => ⟨hf.bindings, hf.scope⟩

end Evaluator

/-! ## What is executed -/

theorem clean_stack : StackInvariant Evaluator.Clean Value.Clean :=
  ⟨fun h => h.stack, fun h hi => h.withItems hi⟩

/-- Operators yield booleans and numbers. -/
theorem clean_of_plain {result : Except ExceptionKind Value} (h : Plain result) {value : Value}
    (hr : result = .ok value) : value.Clean := by
  rcases h.atom value hr with ⟨b, rfl⟩ | ⟨n, rfl⟩
  · exact .boolean b
  · exact .number n

theorem clean_ofResult (node : NodeId) {result : Except ExceptionKind Value} (h : Plain result) :
    Preserves Evaluator.Clean Value.Clean (ofResult node result) :=
  preserves_ofResult node fun _ => clean_of_plain h

theorem clean_codeOf (budget : Nat) (e : Expr) :
    Preserves Evaluator.Clean (fun _ => True) (codeOf budget e) :=
  preserves_codeOf budget e (·.withCode)

theorem clean_blockCode (budget : Nat) (s : StructDef) :
    Preserves Evaluator.Clean (fun _ => True) (blockCode budget s) :=
  preserves_blockCode budget s (·.withCode)

theorem clean_freshScope : Preserves Evaluator.Clean (fun _ => True) freshScope :=
  preserves_freshScope (·.draw)

theorem clean_bindAll (aliases : List String) {value : Value} (hv : value.Clean) :
    Preserves Evaluator.Clean (fun _ => True) (bindAll aliases value) :=
  preserves_modify fun _ hev => hev.bindAll aliases hv

theorem clean_executeDefinition (aliases : List String) {close : Scope → Value}
    (h : ∀ scope, scope.Clean → (close scope).Clean) :
    Preserves Evaluator.Clean Value.Clean (executeDefinition aliases close) :=
  preserves_executeDefinition (·.draw) (fun hev hv => hev.bindAll aliases hv) fun hev =>
    h _ hev.closure

theorem clean_accessMember (id : NodeId) (name : String) {subject : Value} (h : subject.Clean) :
    Preserves Evaluator.Clean Value.Clean (accessMember id name subject) := by
  refine preserves_accessMember id name fun definition scope value hs hm => ?_
  subst hs
  cases h with
  | struct _ hscope => exact hscope.member hm

/-- Working on clean operands yields a clean value, if any. -/
theorem clean_operate (e : Expr) {values : List Value} (hv : ∀ value ∈ values, value.Clean) :
    Preserves Evaluator.Clean (fun answer => ∀ value, answer = some value → value.Clean)
      (e.operate values) := by
  have yields {value : Value} (h : value.Clean) :
      Preserves Evaluator.Clean (fun answer => ∀ value, answer = some value → value.Clean)
        (pure (some value) : Action (Option Value)) :=
    preserves_pure fun other ho => Option.some.inj ho ▸ h
  have wraps {m : Action Value} (h : Preserves Evaluator.Clean Value.Clean m) :
      Preserves Evaluator.Clean (fun answer => ∀ value, answer = some value → value.Clean)
        (some <$> m) :=
    h.map fun a ha other ho => Option.some.inj ho ▸ ha
  unfold Expr.operate
  split
  case h_7 _ id name =>
    refine preserves_get.bind fun ev hev => ?_
    split
    · rename_i value hl
      exact yields (hev.lookup hl)
    · exact preserves_failAt ..
  case h_13 id statements =>
    split
    · rename_i last hl
      exact yields (hv last (List.mem_of_getLast? hl))
    · exact preserves_failAt ..
  case h_14 b value =>
    exact (clean_bindAll _ (hv value (by simp))).bind fun _ _ => yields (hv value (by simp))
  case h_8 id subject dot name value => exact wraps (clean_accessMember _ _ (hv value (by simp)))
  case h_9 => exact wraps (clean_ofResult _ (.binary ..))
  case h_10 => exact wraps (clean_ofResult _ (.unary ..))
  case h_11 _ f => exact wraps (clean_executeDefinition _ fun _ => .function f)
  case h_12 _ s => exact wraps (clean_executeDefinition _ fun _ => .structDef s)
  case h_1 => exact yields (.boolean _)
  case h_2 => exact yields (.number _)
  case h_3 => exact yields (.text _)
  case h_4 => exact yields (.list values)
  case h_5 => exact preserves_failAt ..
  case h_6 => exact preserves_failAt ..
  case h_15 => exact preserves_pure (by simp)

/-- The frame of a call is clean, as its arguments and its callee are. -/
theorem clean_prepare (budget : Nat) (call : Call) {values : List Value} {callee : Value}
    (hv : ∀ value ∈ values, value.Clean) (hc : callee.Clean) :
    Preserves Evaluator.Clean Frame.Clean (prepare budget call values callee) := by
  have arguments := fun inputs => @preserves_argumentBindings Evaluator.Clean _ _
    clean_bindings .list call inputs values hv
  cases hc with
  | function f hs =>
    refine (arguments f.inputs).bind fun bindings hb => .blaming _ ?_
    unfold prepareFunction
    split
    · exact preserves_failWith _
    · refine (clean_codeOf ..).bind fun code _ => preserves_pure ?_
      exact ⟨clean_bindings.bindSelf hb.1 _ (.function f hs), hs⟩
  | structDef s hs =>
    refine (arguments s.inputs).bind fun bindings hb => .blaming _ ?_
    refine (clean_blockCode ..).bind fun code _ => clean_freshScope.bind fun id _ => ?_
    have hself := clean_bindings.ofNames s.aliases (.structDef s hs)
    exact preserves_pure ⟨hb.1, .mk hself fun scope hp => Option.some.inj hp ▸ hs⟩
  | _ => exact preserves_failAt ..

/-- Executing an expression keeps an evaluator clean. -/
theorem clean_execute (budget : Nat) {e : Expr} (he : e.isCall = false) :
    Preserves Evaluator.Clean (fun answer => ∀ value, answer = some value → value.Clean)
      (e.execute budget) := by
  rw [execute_eq budget he]
  exact (clean_stack.popOperands e.demand).bind fun values hv =>
    clean_operate e (by simpa using hv.2)

theorem clean_prepareCall (budget : Nat) (call : Call) :
    Preserves Evaluator.Clean Frame.Clean (prepareCall budget call) :=
  clean_stack.prepareCall budget call fun hv hc => clean_prepare budget call hv hc

/-- Instructions keep an evaluator clean. -/
theorem clean_act (budget : Nat) (i : Instruction) :
    Preserves Evaluator.Clean (fun _ => True) (i.act budget) := by
  refine clean_stack.act budget i (fun hev distance => hev.advance distance)
    (fun call => ?_) ?_
  · refine clean_stack.executeCall budget call
      (fun hv hc => clean_prepare budget call hv hc) fun hev hf => ?_
    exact ⟨⟨hev.globals, hev.streams⟩,
      List.forall_mem_cons.2 ⟨⟨hf.bindings, hf.scope⟩, hev.frames⟩, hev.stack⟩
  · exact fun e values hv => (clean_operate e hv).weaken fun _ ha value hvalue _ => ha value hvalue

namespace Evaluator

variable {ev after : Evaluator}

/-- The result of a frame is clean. -/
theorem Clean.result? {frame : Frame} {outer : List Frame} {value : Value} (h : ev.Clean)
    (hf : ev.frames = frame :: outer) (hr : ev.result? frame = some value) : value.Clean := by
  unfold Evaluator.result? at hr
  split at hr
  · rename_i definition _
    exact Option.some.inj hr ▸ .struct definition ((h.frames frame (by simp [hf])).capture _)
  · obtain ⟨⟨top, lower⟩, hpop, rfl⟩ := Option.map_eq_some_iff.1 hr
    exact h.stack _ (Stack.mem_of_popAbove hpop)

theorem Clean.fetch {frame : Frame} {outer : List Frame} (h : ev.Clean)
    (hf : ev.frames = frame :: outer) (i : Instruction) : (ev.fetch frame outer i).Clean := by
  refine ⟨⟨h.globals, h.streams⟩, fun other hmem => ?_, h.stack⟩
  rcases List.mem_cons.1 hmem with rfl | hmem
  · have hframe := h.frames frame (by simp [hf])
    exact ⟨hframe.bindings, hframe.scope⟩
  · exact h.frames other (by simp [hf, hmem])

/-- A finished frame hands a clean value to the frame that called it. -/
theorem clean_handDown {frame : Frame} {outer : List Frame} {value : Value} (h : ev.Clean)
    (hf : ev.frames = frame :: outer) (hr : ev.result? frame = some value) :
    (ev.handDown frame value outer).Clean := by
  have houter : ∀ other ∈ outer, other.Clean :=
    fun other hmem => h.frames other (hf ▸ List.mem_cons_of_mem frame hmem)
  refine ⟨⟨h.globals, h.streams⟩, houter, fun other hmem => ?_⟩
  rcases List.mem_cons.1 hmem with rfl | hmem
  · exact h.result? hf hr
  · exact h.stack other (List.mem_of_mem_drop hmem)

/-- A pass stays clean while the host supplies clean values. -/
theorem Moves.clean (hm : ev.Moves after) (h : ev.Clean) (ho : after.outcome = none)
    (hs : after.Supplied) : after.Clean := by
  cases hm with
  | @acts budget _ _ frame outer i _ hf hc ha =>
    exact ((clean_act budget i).keeps (h.fetch hf i) ha).1
  | hands _ hf _ hr _ => exact clean_handDown h hf hr
  | produces => exact nomatch ho
  | halts => exact nomatch ho
  | injects => exact ⟨hs, h.frames, h.stack⟩
  | defines => exact ⟨hs, h.frames, h.stack⟩

/-- A pass begins clean if the host has supplied clean values. -/
theorem clean_of_beginPass {budget : Nat} {root : Expr} (h : ev.beginPass budget root = some after)
    (hs : after.Supplied) : after.Clean := by
  obtain ⟨code, mid, hc, rfl⟩ := beginPass_cases h
  refine ⟨hs, fun frame hmem => ?_, fun value hmem => ?_⟩
  · obtain rfl := List.mem_singleton.1 hmem
    exact ⟨clean_bindings.empty, .mk clean_bindings.empty nofun⟩
  · have hstack : mid.stack = ev.stack.clear := ((evolving_codeOf budget root).evolves hc).stack
    have hmem : value ∈ mid.stack.items := hmem
    rw [hstack] at hmem
    exact nomatch hmem

end Evaluator

end Stepwise

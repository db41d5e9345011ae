import Stepwise.Proofs.Code.Places
import Stepwise.Proofs.Machine.Exceptions
import Stepwise.Proofs.Typing.Forms
import Stepwise.Proofs.Value.Bindings

/-!
# Where evaluation stands

Every frame stands at a place that the code of the program leads to, and all names that are bound
on the way to this place can be looked up in the frame.  For a call this rests on what its callee
is closed over: the scope of a definition holds the names that were bound where it was made, so
the code of the definition finds there what it may count on (`Value.Placed`).

Instructions act in a frame that stands behind them.  What they look up is placed, provided that
every reference stands where its name is bound (`Source.Resolves`), so whatever they make of it is
placed as well, and so is the frame that a call starts.
-/

namespace Stepwise

open Stepwise.Action Query

/-! ## Values -/

namespace Source

variable (S : Source)

/-- The body of the function finds in the scope what it may count on. -/
def Runs (f : FunctionDef) (scope : Scope) : Prop :=
  ∀ body, f.body = some body → ∃ names : List String,
    (∀ name ∈ names, (scope.lookup name).isSome) ∧
      ∀ code, S.Lowers body code → S.Reaches ⟨code, f.ownNames ++ names, none⟩

/-- The block of the structure finds in the scope what it may count on. -/
def Builds (s : StructDef) (scope : Scope) : Prop :=
  ∃ names : List String, (∀ name ∈ names, (scope.lookup name).isSome) ∧
    ∀ code, S.LowersBlock s code → S.Reaches ⟨code, s.ownNames ++ names, some s⟩

/-- Every reference that evaluation may come to stands where its name is bound. -/
def Resolves : Prop :=
  ∀ id name rest names owner, S.Reaches ⟨.finish (.reference id name) :: rest, names, owner⟩ →
    name.text ∈ names

end Source

mutual

/-- A value that is no exception and in which all definitions are closed over what their code may
count on. -/
inductive Value.Placed (S : Source) : Value → Prop
  | boolean (b : Bool) : Value.Placed S (.boolean b)
  | text (t : TextValue) : Value.Placed S (.text t)
  | number (n : NumberValue) : Value.Placed S (.number n)
  | list (items : List Value) : Value.Placed S (.list items)
  | function {f : FunctionDef} {scope : Scope} (hf : f.nested ⊆ S.root.nested)
      (hs : Scope.Placed S scope) (hruns : S.Runs f scope) : Value.Placed S (.function f scope)
  | structDef {s : StructDef} {scope : Scope} (hd : s.nested ⊆ S.root.nested)
      (hs : Scope.Placed S scope) (hbuilds : S.Builds s scope) : Value.Placed S (.structDef s scope)
  /-- The functions of an instance are closed over the instance itself. -/
  | struct {s : StructDef} {scope : Scope} (hd : s.nested ⊆ S.root.nested)
      (hs : Scope.Placed S scope) (hruns : ∀ f ∈ s.functions, S.Runs f scope) :
      Value.Placed S (.struct s scope)

/-- A scope in which all names stand for placed values. -/
inductive Scope.Placed (S : Source) : Scope → Prop
  | mk {id : ScopeId} {bindings : Assoc String Value} {parent : Option Scope}
      (hb : ∀ name value, bindings.find? name = some value → Value.Placed S value)
      (hp : ∀ scope, parent = some scope → Scope.Placed S scope) :
      Scope.Placed S (.mk id bindings parent)

end

variable {S : Source}

theorem Value.Placed.isException {value : Value} (h : value.Placed S) :
    value.isException = false := by
  cases h <;> rfl

mutual

theorem Scope.Placed.lookup {name : String} {value : Value} : {scope : Scope} → scope.Placed S →
    scope.lookup name = some value → value.Placed S
  | .mk id bindings parent, .mk hb hp, h => by
    rw [Scope.lookup] at h
    cases hf : bindings.find? name with
    | none =>
      rw [hf] at h
      exact placed_of_lookup? hp h
    | some found =>
      rw [hf] at h
      exact Option.some.inj h ▸ hb name found hf

theorem placed_of_lookup? {name : String} {value : Value} : {parent : Option Scope} →
    (∀ scope, parent = some scope → scope.Placed S) → Scope.lookup? name parent = some value →
    value.Placed S
  | none, _, h => nomatch h
  | some scope, hp, h => Scope.Placed.lookup (hp scope rfl) h

end

theorem Value.Placed.member {definition : StructDef} {scope : Scope} {name : String} {value : Value}
    (h : (Value.struct definition scope).Placed S)
    (hm : memberValue? definition scope name = some value) : value.Placed S := by
  cases h with
  | struct hd hs hruns =>
    unfold memberValue? at hm
    split at hm
    · rename_i found hf
      obtain ⟨hb, -⟩ := hs
      exact Option.some.inj hm ▸ hb name found hf
    · obtain ⟨f, hf, rfl⟩ := Option.map_eq_some_iff.1 hm
      exact .function (StructDef.nested_functionNamed hd hf) hs
        (hruns f (List.mem_of_find?_eq_some hf))

/-! ## Frames -/

namespace Frame

variable {frame : Frame} {names : List String}

/-- The structure that the frame builds. -/
def owner (frame : Frame) : Option StructDef :=
  match frame.kind with
  | .struct s => some s
  | _ => none

/-- The frame with other bindings. -/
def withBindings (frame : Frame) (bindings : Bindings) : Frame :=
  { frame with bindings := bindings }

theorem isSome_lookup {name : String} : (frame.lookup name).isSome = true ↔
    frame.bindings.contains name = true ∨ (frame.scope.lookup name).isSome = true := by
  unfold lookup Assoc.contains
  cases frame.bindings.find? name <;> simp

/-- What a definition made now is closed over is what the frame sees. -/
theorem lookup_capture (frame : Frame) (id : ScopeId) (name : String) :
    (frame.capture id).lookup name = frame.lookup name := by
  unfold capture lookup
  rw [Scope.lookup]
  cases frame.bindings.find? name <;> rfl

/-- What the frame sees is placed, and the names can be looked up in it. -/
structure Sees (S : Source) (frame : Frame) (names : List String) : Prop where
  bindings : AllBound (Value.Placed S) frame.bindings
  scope : frame.scope.Placed S
  names : ∀ name ∈ names, (frame.lookup name).isSome

/-- The frame stands at a place that the code of the program leads to. -/
structure Placed (S : Source) (frame : Frame) : Prop where
  owner : ∀ s, frame.owner = some s → s.nested ⊆ S.root.nested
  place : ∃ names, S.Reaches ⟨frame.code.drop frame.cursor, names, frame.owner⟩ ∧
    frame.Sees S names

theorem Sees.lookup (h : frame.Sees S names) {name : String} {value : Value}
    (hl : frame.lookup name = some value) : value.Placed S := by
  rcases Option.or_eq_some_iff.1 hl with hb | ⟨-, hs⟩
  · exact h.bindings name value hb
  · exact h.scope.lookup hs

theorem Sees.capture (h : frame.Sees S names) (id : ScopeId) : (frame.capture id).Placed S := by
  refine .mk h.bindings fun scope hs => ?_
  exact Option.some.inj hs ▸ h.scope

theorem Sees.isSome_capture (h : frame.Sees S names) (id : ScopeId) :
    ∀ name ∈ names, ((frame.capture id).lookup name).isSome := by
  intro name hname
  rw [frame.lookup_capture id name]
  exact h.names name hname

/-- Binding aliases adds them to the names that the frame sees. -/
theorem Sees.bindAliases (h : frame.Sees S names) (aliases : List String) {value : Value}
    (hv : value.Placed S) :
    (frame.withBindings (bindAliases frame.bindings aliases value)).Sees S (aliases ++ names) := by
  refine ⟨allBound_bindings.bindAliases h.bindings aliases hv, h.scope, fun name hname =>
    isSome_lookup.2 ?_⟩
  have hbound : (Stepwise.bindAliases frame.bindings aliases value).contains name = true ↔
      name ∈ aliases ∨ frame.bindings.contains name = true := contains_bindAliases
  rcases List.mem_append.1 hname with hname | hname
  · exact .inl (hbound.2 (.inl hname))
  · exact (isSome_lookup.1 (h.names name hname)).imp_left fun hb => hbound.2 (.inr hb)

theorem Sees.mono (h : frame.Sees S names) {fewer : List String} (hsub : fewer ⊆ names) :
    frame.Sees S fewer :=
  ⟨h.bindings, h.scope, fun name hname => h.names name (hsub hname)⟩

end Frame

/-! ## Evaluators -/

namespace Evaluator

variable {ev : Evaluator} {frame : Frame} {outer : List Frame} {names : List String}

/-- What is kept is about the program: the code that there is for its expressions is what lowering
them yields. -/
structure Supported (S : Source) (ev : Evaluator) : Prop where
  context : ev.context = S.context
  memo : S.Knows ev.memo
  codes : ∀ e code, e.nested ⊆ S.root.nested → ev.lowered.find? e.id = some code → S.Lowers e code

/-- An instruction acts in the frame, which has changed in nothing but its bindings. -/
structure StandsIn (S : Source) (frame : Frame) (outer : List Frame) (names : List String)
    (ev : Evaluator) : Prop where
  supported : ev.Supported S
  stack : ∀ value ∈ ev.stack.items, value.Placed S
  frames : ∃ bindings, ev.frames = frame.withBindings bindings :: outer ∧
    (frame.withBindings bindings).Sees S names

theorem Supported.of_eq {after : Evaluator} (h : ev.Supported S) (hc : after.context = ev.context)
    (hm : after.memo = ev.memo) (hl : after.lowered = ev.lowered) : after.Supported S :=
  ⟨hc.trans h.context, hm ▸ h.memo, fun e code he hcode => h.codes e code he (hl ▸ hcode)⟩

theorem StandsIn.withItems (h : ev.StandsIn S frame outer names) {items : List Value}
    (hi : ∀ value ∈ items, value.Placed S) : (ev.withItems items).StandsIn S frame outer names :=
  ⟨h.supported.of_eq rfl rfl rfl, hi, h.frames⟩

/-- What is bound in the innermost frame. -/
theorem StandsIn.bindAll (h : ev.StandsIn S frame outer names) (aliases : List String)
    {value : Value} (hv : value.Placed S) :
    (ev.bindAll aliases value).StandsIn S frame outer (aliases ++ names) := by
  obtain ⟨bindings, hframes, hsees⟩ := h.frames
  rw [bindAll_eq]
  refine ⟨h.supported.of_eq rfl rfl rfl, h.stack, bindAliases bindings aliases value, ?_,
    hsees.bindAliases aliases hv⟩
  rw [hframes]
  rfl

theorem StandsIn.advance (h : ev.StandsIn S frame outer names) (distance : Nat) :
    (ev.advance distance).StandsIn S (frame.advance distance) outer names := by
  obtain ⟨bindings, hframes, hsees⟩ := h.frames
  rw [advance_eq]
  refine ⟨h.supported.of_eq rfl rfl rfl, h.stack, bindings, ?_, hsees.bindings, hsees.scope,
    hsees.names⟩
  rw [hframes]
  rfl

theorem StandsIn.mono (h : ev.StandsIn S frame outer names) {fewer : List String}
    (hsub : fewer ⊆ names) : ev.StandsIn S frame outer fewer := by
  obtain ⟨bindings, hframes, hsees⟩ := h.frames
  exact ⟨h.supported, h.stack, bindings, hframes, hsees.mono hsub⟩

/-- A name that is bound is found in the innermost frame. -/
theorem StandsIn.lookup (h : ev.StandsIn S frame outer names) {name : String}
    (hname : name ∈ names) : ∃ value, ev.lookup name = some value ∧ value.Placed S := by
  obtain ⟨bindings, hframes, hsees⟩ := h.frames
  obtain ⟨value, hvalue⟩ := Option.isSome_iff_exists.1 (hsees.names name hname)
  refine ⟨value, ?_, hsees.lookup hvalue⟩
  simp [Evaluator.lookup, currentFrame?, hframes, hvalue]

theorem StandsIn.closure (h : ev.StandsIn S frame outer names) :
    ev.closure.Placed S ∧ ∀ name ∈ names, (ev.closure.lookup name).isSome := by
  obtain ⟨bindings, hframes, hsees⟩ := h.frames
  have hclosure : ev.closure =
      (frame.withBindings bindings).capture (.captured ev.nextScope) := by
    simp [Evaluator.closure, currentFrame?, hframes]
  rw [hclosure]
  exact ⟨hsees.capture _, hsees.isSome_capture _⟩

theorem StandsIn.draw (h : ev.StandsIn S frame outer names) :
    { ev with nextScope := ev.nextScope + 1 }.StandsIn S frame outer names :=
  ⟨h.supported.of_eq rfl rfl rfl, h.stack, h.frames⟩

/-- The frames, when the innermost has come to a place. -/
theorem StandsIn.placed (h : ev.StandsIn S frame outer names)
    (hplace : S.Reaches ⟨frame.code.drop frame.cursor, names, frame.owner⟩)
    (howner : ∀ s, frame.owner = some s → s.nested ⊆ S.root.nested)
    (houter : ∀ other ∈ outer, other.Placed S) : ∀ other ∈ ev.frames, other.Placed S := by
  obtain ⟨bindings, hframes, hsees⟩ := h.frames
  rw [hframes]
  exact List.forall_mem_cons.2 ⟨⟨howner, names, hplace, hsees⟩, houter⟩

end Evaluator

/-! ## What is executed -/

section Execution

variable {frame : Frame} {outer : List Frame} {names : List String}

theorem standsIn_stack :
    StackInvariant (Evaluator.StandsIn S frame outer names) (Value.Placed S) :=
  ⟨fun h => h.stack, fun h hi => h.withItems hi⟩

/-- Operators yield booleans and numbers. -/
theorem placed_of_plain {result : Except ExceptionKind Value} (h : Plain result) {value : Value}
    (hr : result = .ok value) : value.Placed S := by
  rcases h.atom value hr with ⟨b, rfl⟩ | ⟨n, rfl⟩
  · exact .boolean b
  · exact .number n

/-- A definition is closed over what the frame sees, and is bound to its names. -/
theorem standsIn_executeDefinition (aliases : List String) {close : Scope → Value}
    (h : ∀ scope : Scope, scope.Placed S → (∀ name ∈ names, (scope.lookup name).isSome) →
      (close scope).Placed S) {ev after : Evaluator} {r : Except Exception Value}
    (hev : ev.StandsIn S frame outer names)
    (hm : executeDefinition aliases close ev = some (r, after)) :
    after.StandsIn S frame outer (aliases ++ names) ∧ ∀ value, r = .ok value → value.Placed S := by
  rw [executeDefinition_apply] at hm
  obtain ⟨rfl, rfl⟩ := Prod.mk.inj (Option.some.inj hm)
  have hclose := h ev.closure hev.closure.1 hev.closure.2
  exact ⟨hev.draw.bindAll aliases hclose, fun value hv => Except.ok.inj hv ▸ hclose⟩

/-- What has been executed yields a placed value, if any, and has bound its names. -/
structure Executed (S : Source) (frame : Frame) (outer : List Frame) (names : List String)
    (e : Expr) (r : Except Exception (Option Value)) (after : Evaluator) : Prop where
  stands : after.StandsIn S frame outer names
  value : ∀ value, r = .ok (some value) → value.Placed S
  binds : ∀ answer, r = .ok answer → after.StandsIn S frame outer (e.binds ++ names)

/-- Most expressions bind nothing. -/
theorem executed_of_preserves {e : Expr} {m : Action (Option Value)} {ev after : Evaluator}
    {r : Except Exception (Option Value)} (hbinds : e.binds = [])
    (h : Preserves (Evaluator.StandsIn S frame outer names)
      (fun answer => ∀ value, answer = some value → value.Placed S) m)
    (hev : ev.StandsIn S frame outer names) (hm : m ev = some (r, after)) :
    Executed S frame outer names e r after := by
  obtain ⟨hafter, hgood⟩ := h.keeps hev hm
  refine ⟨hafter, fun value hr => hgood _ hr value rfl, fun _ _ => ?_⟩
  rw [hbinds]
  exact hafter

theorem executed_of_definition {e : Expr} {close : Scope → Value} {ev after : Evaluator}
    {r : Except Exception (Option Value)}
    (h : ∀ scope : Scope, scope.Placed S → (∀ name ∈ names, (scope.lookup name).isSome) →
      (close scope).Placed S) (hev : ev.StandsIn S frame outer names)
    (hm : (some <$> executeDefinition e.binds close) ev = some (r, after)) :
    Executed S frame outer names e r after := by
  rw [map_apply, Option.map_eq_some_iff] at hm
  obtain ⟨⟨r', after'⟩, hm, heq⟩ := hm
  obtain ⟨rfl, rfl⟩ := Prod.mk.inj heq
  obtain ⟨hafter, hvalue⟩ := standsIn_executeDefinition e.binds h hev hm
  refine ⟨hafter.mono (List.subset_append_right _ _), fun value hr => ?_, fun _ _ => hafter⟩
  cases r' with
  | ok found =>
    obtain rfl := Option.some.inj (Except.ok.inj hr)
    exact hvalue found rfl
  | error x => cases hr

/-- Working on placed operands yields a placed value, where every reference stands in its place. -/
theorem executed_operate (hctx : S.context.Within S.root.nested) (hresolves : S.Resolves) {e : Expr}
    {rest : Code} (hplace : S.Reaches ⟨.finish e :: rest, names, frame.owner⟩)
    {values : List Value} (hcount : values.length = e.demand)
    (hv : ∀ value ∈ values, value.Placed S) {ev after : Evaluator}
    {r : Except Exception (Option Value)} (hev : ev.StandsIn S frame outer names)
    (h : e.operate values ev = some (r, after)) : Executed S frame outer names e r after := by
  have he : e.nested ⊆ S.root.nested := hplace.finishes hctx e List.mem_cons_self
  have yields {value : Value} (hvalue : value.Placed S) :
      Preserves (Evaluator.StandsIn S frame outer names)
        (fun answer => ∀ value, answer = some value → value.Placed S)
        (pure (some value) : Action (Option Value)) :=
    preserves_pure fun other ho => Option.some.inj ho ▸ hvalue
  have wraps {m : Action Value}
      (hm : Preserves (Evaluator.StandsIn S frame outer names) (Value.Placed S) m) :
      Preserves (Evaluator.StandsIn S frame outer names)
        (fun answer => ∀ value, answer = some value → value.Placed S) (some <$> m) :=
    hm.map fun a ha other ho => Option.some.inj ho ▸ ha
  have operates {node : NodeId} {result : Except ExceptionKind Value} (hr : Plain result) :
      Preserves (Evaluator.StandsIn S frame outer names) (Value.Placed S) (ofResult node result) :=
    preserves_ofResult node fun _ => placed_of_plain hr
  have idles : Preserves (Evaluator.StandsIn S frame outer names)
      (fun answer => ∀ value, answer = some value → value.Placed S)
      (pure none : Action (Option Value)) :=
    preserves_pure fun _ ho => nomatch ho
  cases e with
  | boolean id token value => exact executed_of_preserves rfl (yields (.boolean value)) hev h
  | number id token amount unit => exact executed_of_preserves rfl (yields (.number _)) hev h
  | text id token tag => exact executed_of_preserves rfl (yields (.text _)) hev h
  | list id opening items closing => exact executed_of_preserves rfl (yields (.list values)) hev h
  | delete id table mark query => exact executed_of_preserves rfl (preserves_failAt ..) hev h
  | insert id table mark cells => exact executed_of_preserves rfl (preserves_failAt ..) hev h
  | conditional | call | unparsable => exact executed_of_preserves rfl idles hev h
  | reference id name =>
    -- The look-up comes to no globals or streams, whose values need not be placed.
    refine executed_of_preserves rfl (m := Expr.operate (.reference id name) values) ?_ hev h
    refine preserves_get.bind fun now hnow => ?_
    obtain ⟨value, hlookup, hvalue⟩ := hnow.lookup (hresolves id name rest names _ hplace)
    rw [hlookup]
    exact yields hvalue
  | access id subject dot name =>
    obtain ⟨operand, rfl⟩ := List.length_eq_one_iff.1 hcount
    have hoperand := hv operand (List.mem_singleton.2 rfl)
    refine executed_of_preserves rfl (wraps (preserves_accessMember id name.text ?_)) hev h
    rintro definition scope value rfl hm
    exact hoperand.member hm
  | binary id left mark op right =>
    obtain ⟨first, second, rfl⟩ := List.length_eq_two.1 hcount
    exact executed_of_preserves rfl (wraps (operates (.binary op first second))) hev h
  | unary id mark op operand =>
    obtain ⟨value, rfl⟩ := List.length_eq_one_iff.1 hcount
    exact executed_of_preserves rfl (wraps (operates (.unary op value))) hev h
  | block id statements =>
    refine executed_of_preserves rfl (m := Expr.operate (.block id statements) values) ?_ hev h
    unfold Expr.operate
    dsimp only
    split
    · rename_i last hl
      exact yields (hv last (List.mem_of_getLast? hl))
    · exact preserves_failAt ..
  | function f =>
    have hf : f.nested ⊆ S.root.nested := fun x hx => he (List.mem_cons_of_mem _ hx)
    refine executed_of_definition (fun scope hscope hnames => ?_) hev h
    exact .function hf hscope fun body hbody =>
      ⟨names, hnames, fun code hcode => hplace.leads (.body rest names _ hbody hcode)⟩
  | struct s =>
    have hs : s.nested ⊆ S.root.nested := fun x hx => he (List.mem_cons_of_mem _ hx)
    refine executed_of_definition (fun scope hscope hnames => ?_) hev h
    exact .structDef hs hscope
      ⟨names, hnames, fun code hcode => hplace.leads (.block rest names _ hcode)⟩
  | bind b =>
    obtain ⟨value, rfl⟩ := List.length_eq_one_iff.1 hcount
    have hvalue := hv value (List.mem_singleton.2 rfl)
    obtain ⟨rfl, rfl⟩ := Prod.mk.inj (Option.some.inj h)
    have hafter := hev.bindAll b.aliases hvalue
    refine ⟨hafter.mono (List.subset_append_right _ _), fun other ho => ?_, fun _ _ => hafter⟩
    obtain rfl := Option.some.inj (Except.ok.inj ho)
    exact hvalue

end Execution

/-! ## What is called -/

section Calls

variable {frame : Frame} {outer : List Frame} {names : List String}

/-- The body of a function sees the arguments and the function itself, and whatever is bound where
the function was made. -/
theorem sees_function {f : FunctionDef} {scope : Scope} {bindings : Bindings} {body : NodeId}
    {code : Code} (hself : (Value.function f scope).Placed S) (hs : scope.Placed S)
    (hnames : ∀ name ∈ names, (scope.lookup name).isSome)
    (hb : AllBound (Value.Placed S) bindings)
    (hinputs : ∀ name ∈ f.inputs.flatMap Binder.aliases, bindings.contains name = true) :
    ({ kind := .function f, node := body, code := code,
       bindings := bindSelf bindings f.aliases (.function f scope),
       scope := scope } : Frame).Sees S (f.ownNames ++ names) := by
  refine ⟨allBound_bindings.bindSelf hb _ hself, hs, fun name hname => Frame.isSome_lookup.2 ?_⟩
  simp only [FunctionDef.ownNames, List.mem_append] at hname
  rcases hname with (hname | hname) | hname
  · exact .inl (contains_bindSelf.2 (.inr (hinputs name hname)))
  · exact .inl (contains_bindSelf.2 (.inl hname))
  · exact .inr (hnames name hname)

/-- The block of a structure sees the arguments, the structure itself, and whatever is bound where
the structure was made. -/
theorem sees_struct {s : StructDef} {scope : Scope} {id : ScopeId} {bindings : Bindings}
    {code : Code} (hself : (Value.structDef s scope).Placed S) (hs : scope.Placed S)
    (hnames : ∀ name ∈ names, (scope.lookup name).isSome)
    (hb : AllBound (Value.Placed S) bindings)
    (hinputs : ∀ name ∈ s.inputs.flatMap Binder.aliases, bindings.contains name = true) :
    ({ kind := .struct s, node := s.id, code := code, bindings := bindings,
       scope := .mk id (Assoc.ofList (s.aliases.map fun name => (name, .structDef s scope)))
         (some scope) } : Frame).Sees S (s.ownNames ++ names) := by
  refine ⟨hb, .mk (allBound_bindings.ofNames _ hself) fun around ha => Option.some.inj ha ▸ hs,
    fun name hname => Frame.isSome_lookup.2 ?_⟩
  have hscope : name ∈ s.aliases ∨ (scope.lookup name).isSome → (Scope.lookup name
      (.mk id (Assoc.ofList (s.aliases.map fun name => (name, .structDef s scope)))
        (some scope))).isSome := by
    intro h
    have hown : (Assoc.ofList (s.aliases.map fun name => (name, Value.structDef s scope))).contains
        name = true ↔ name ∈ s.aliases := contains_ofNames
    rw [Assoc.contains] at hown
    rw [Scope.lookup]
    split
    · rfl
    · rename_i hnone
      rw [hnone] at hown
      exact h.resolve_left fun hmem => nomatch hown.2 hmem
  simp only [StructDef.ownNames, List.mem_append] at hname
  rcases hname with (hname | hname) | hname
  · exact .inl (hinputs name hname)
  · exact .inr (hscope (.inl hname))
  · exact .inr (hscope (.inr (hnames name hname)))

variable (hctx : S.context.Within S.root.nested) (hids : Identified S.root.nested)

include hctx hids

/-- The code of an expression of the program is what lowering it yields. -/
theorem supported_codeOf (budget : Nat) {e : Expr} (he : e.nested ⊆ S.root.nested) :
    Preserves (Evaluator.Supported S) (S.Lowers e) (codeOf budget e) := by
  refine ⟨fun {ev r after} hev h => ?_⟩
  obtain ⟨code, rfl, ⟨hfound, rfl⟩ | ⟨memo, -, hlower, rfl⟩⟩ := codeOf_cases h
  · exact ⟨hev, fun other ho => Except.ok.inj ho ▸ hev.codes e code he hfound⟩
  · rw [hev.context] at hlower
    have hcode : S.Lowers e code := ⟨he, ev.memo, memo, hev.memo, budget, hlower⟩
    refine ⟨⟨hev.context, hev.memo.lower hctx he hlower, fun other found hother hf => ?_⟩,
      fun other ho => Except.ok.inj ho ▸ hcode⟩
    rw [Assoc.find?_insert] at hf
    split at hf
    · rename_i hsame
      obtain rfl := hids other (hother other.mem_nested_self) e (he e.mem_nested_self)
        (by simpa using hsame)
      exact Option.some.inj hf ▸ hcode
    · exact hev.codes other found hother hf

theorem standsIn_codeOf (budget : Nat) {e : Expr} (he : e.nested ⊆ S.root.nested) :
    Preserves (Evaluator.StandsIn S frame outer names) (S.Lowers e) (codeOf budget e) := by
  refine ⟨fun {ev r after} hev h => ?_⟩
  obtain ⟨hafter, hcode⟩ := (supported_codeOf hctx hids budget he).keeps hev.supported h
  obtain ⟨code, -, ⟨-, rfl⟩ | ⟨memo, -, -, rfl⟩⟩ := codeOf_cases h
  · exact ⟨hev, hcode⟩
  · exact ⟨⟨hafter, hev.stack, hev.frames⟩, hcode⟩

theorem standsIn_blockCode (budget : Nat) {s : StructDef} (hs : s.nested ⊆ S.root.nested) :
    Preserves (Evaluator.StandsIn S frame outer names) (S.LowersBlock s) (blockCode budget s) := by
  unfold blockCode Source.LowersBlock
  cases hblock : s.block with
  | none => exact preserves_pure rfl
  | some block =>
    have hcode : Preserves (Evaluator.StandsIn S frame outer names) (S.Lowers block)
        (codeOf budget block) :=
      standsIn_codeOf hctx hids budget ((StructDef.nested_subset.1 hs).2 block hblock)
    cases block with
    | block id statements =>
      cases statements with
      | nil => exact preserves_pure rfl
      | cons => exact hcode
    | _ => exact hcode

/-- The frame of a call stands at the start of the code of its callee. -/
theorem standsIn_prepare (budget : Nat) (call : Call) {values : List Value} {callee : Value}
    (hv : ∀ value ∈ values, value.Placed S) (hc : callee.Placed S) :
    Preserves (Evaluator.StandsIn S frame outer names) (Frame.Placed S)
      (prepare budget call values callee) := by
  have hself := hc
  have arguments := fun inputs =>
    @preserves_argumentBindings (Evaluator.StandsIn S frame outer names) _ _
      allBound_bindings .list call inputs values hv
  cases hc with
  | @function f scope hf hs hruns =>
    refine (arguments f.inputs).bind fun bindings hb => .blaming _ ?_
    unfold prepareFunction
    split
    · exact preserves_failWith _
    · rename_i body hbody
      have hnested := (FunctionDef.nested_subset.1 hf).2.2 body hbody
      refine (standsIn_codeOf hctx hids budget hnested).bind fun code hcode => preserves_pure ?_
      obtain ⟨bound, hbound, hplace⟩ := hruns body hbody
      refine ⟨fun _ h => (nomatch h), f.ownNames ++ bound, hplace code hcode, ?_⟩
      exact sees_function hself hs hbound hb.1 hb.2
  | @structDef s scope hd hs hbuilds =>
    refine (arguments s.inputs).bind fun bindings hb => .blaming _ ?_
    refine (standsIn_blockCode hctx hids budget hd).bind fun code hcode =>
      (preserves_freshScope (·.draw)).bind fun id _ => preserves_pure ?_
    obtain ⟨bound, hbound, hplace⟩ := hbuilds
    refine ⟨fun other ho => Option.some.inj ho ▸ hd, s.ownNames ++ bound, hplace code hcode, ?_⟩
    exact sees_struct hself hs hbound hb.1 hb.2
  | _ => exact preserves_failAt ..

theorem standsIn_prepareCall (budget : Nat) (call : Call) :
    Preserves (Evaluator.StandsIn S frame outer names) (Frame.Placed S)
      (prepareCall budget call) :=
  standsIn_stack.prepareCall budget call fun hv hc =>
    standsIn_prepare hctx hids budget call hv hc

end Calls

end Stepwise

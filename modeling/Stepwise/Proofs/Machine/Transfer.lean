import Stepwise.Proofs.Machine.Moves
import Stepwise.Proofs.Value.Renaming

/-!
# Taking a frame to another place

Two evaluators are compared that agree on everything above some frames and values, which may be
entirely different in the two.  Since the identities of scopes are drawn one after the other, they
may differ as well; a `Transfer` says what lies beneath on either side, and which identity of the
one evaluator plays the part of which of the other.

`Transfer.Matches` is the relation of the two evaluators.  Every action that they can take preserves
it (`Carries`), and so does every instruction as long as there is room for the frames of calls
(`carried_act`).
-/

namespace Stepwise

open Stepwise.Action

/-! ## Two places for one frame -/

/-- What lies beneath a frame: the frames that wait for it, and the values below its base. -/
structure Beneath where
  frames : List Frame
  items : List Value

/-- How a frame and what it has started are taken from one place to another. -/
structure Transfer where
  /-- The identity that takes the place of an identity. -/
  rename : ScopeId → ScopeId
  injective : Function.Injective rename
  source : Beneath
  target : Beneath

namespace Transfer

variable (τ : Transfer)

/-- A value at the other place. -/
abbrev value (v : Value) : Value :=
  v.rename τ.rename

/-- Bindings at the other place. -/
abbrev bindings (b : Bindings) : Bindings :=
  b.map τ.value

/-- A frame that has not been started, at the other place. -/
def made (frame : Frame) : Frame :=
  { frame with bindings := τ.bindings frame.bindings, scope := frame.scope.rename τ.rename }

/-- A frame at the other place, where it starts as high above what lies beneath. -/
def frame (frame : Frame) : Frame :=
  { τ.made frame with base := frame.base - τ.source.items.length + τ.target.items.length }

/-- What two evaluators share beyond their frames and stacks. -/
structure Shares (ev₁ ev₂ : Evaluator) : Prop where
  context : ev₂.context = ev₁.context
  memo : ev₂.memo = ev₁.memo
  lowered : ev₂.lowered = ev₁.lowered
  globals : ev₂.globals = τ.bindings ev₁.globals
  streams : ev₂.streams = τ.bindings ev₁.streams
  /-- The next identities to be drawn take each other's place. -/
  identities : ∀ k,
    τ.rename (.captured (ev₁.nextScope + k)) = .captured (ev₂.nextScope + k)

/-- A frame of a definition that keeps off the values beneath. -/
structure Above (frame : Frame) : Prop where
  definition : frame.definition?.isSome
  le_base : τ.source.items.length ≤ frame.base

/-- Two evaluators agree on everything above what lies beneath. -/
structure Matches (ev₁ ev₂ : Evaluator) : Prop extends τ.Shares ev₁ ev₂ where
  frames : ∃ inner, inner ≠ [] ∧ (∀ frame ∈ inner, τ.Above frame) ∧
    ev₁.frames = inner ++ τ.source.frames ∧ ev₂.frames = inner.map τ.frame ++ τ.target.frames
  items : ∃ upper, ev₁.stack.items = upper ++ τ.source.items ∧
    ev₂.stack.items = upper.map τ.value ++ τ.target.items

variable {τ} {ev₁ ev₂ : Evaluator}

/-- The innermost frames of matching evaluators. -/
theorem Matches.innermost (h : τ.Matches ev₁ ev₂) :
    ∃ frame rest, ev₁.frames = frame :: rest ++ τ.source.frames ∧
      ev₂.frames = τ.frame frame :: rest.map τ.frame ++ τ.target.frames ∧ τ.Above frame := by
  obtain ⟨inner, hne, habove, hf₁, hf₂⟩ := h.frames
  cases inner with
  | nil => exact absurd rfl hne
  | cons frame rest => exact ⟨frame, rest, hf₁, hf₂, habove frame (by simp)⟩

/-- Failures are blamed on the same definition. -/
theorem Matches.currentDefinition? (h : τ.Matches ev₁ ev₂) :
    ev₂.currentDefinition? = ev₁.currentDefinition? := by
  obtain ⟨frame, rest, hf₁, hf₂, habove⟩ := h.innermost
  have hsame : (τ.frame frame).definition? = frame.definition? := rfl
  obtain ⟨id, hid⟩ := Option.isSome_iff_exists.1 habove.definition
  unfold Evaluator.currentDefinition?
  rw [hf₁, hf₂, List.cons_append, List.cons_append, List.findSome?_cons, List.findSome?_cons,
    hsame, hid]

theorem Matches.exception (h : τ.Matches ev₁ ev₂) (kind : ExceptionKind) :
    ev₂.exception kind = ev₁.exception kind := by
  unfold Evaluator.exception
  rw [h.currentDefinition?]

theorem Matches.lookup (h : τ.Matches ev₁ ev₂) (name : String) :
    ev₂.lookup name = (ev₁.lookup name).map τ.value := by
  obtain ⟨frame, rest, hf₁, hf₂, -⟩ := h.innermost
  have hframe : (τ.frame frame).lookup name = (frame.lookup name).map τ.value := by
    unfold Frame.lookup Transfer.frame made
    rw [Assoc.find?_map, Scope.lookup_rename]
    cases frame.bindings.find? name <;> rfl
  unfold Evaluator.lookup Evaluator.currentFrame?
  rw [hf₁, hf₂, h.globals, h.streams]
  simp only [List.cons_append, List.head?_cons, Option.bind_some, Assoc.find?_map, hframe]
  cases frame.lookup name <;> cases ev₁.globals.find? name <;> rfl

theorem Matches.closure (h : τ.Matches ev₁ ev₂) :
    ev₂.closure = ev₁.closure.rename τ.rename := by
  obtain ⟨frame, rest, hf₁, hf₂, -⟩ := h.innermost
  unfold Evaluator.closure Evaluator.currentFrame?
  rw [hf₁, hf₂]
  simp only [List.cons_append, List.head?_cons, Frame.capture, Scope.rename_mk, Option.map_some]
  have hid : τ.rename (.captured ev₁.nextScope) = .captured ev₂.nextScope := h.identities 0
  rw [hid]
  rfl

/-! ## Changes that both make -/

/-- The innermost frames change in the same way, and what lies beneath does not. -/
theorem Matches.modifyHead (h : τ.Matches ev₁ ev₂) {f g : Frame → Frame}
    (hfg : ∀ frame, τ.frame (f frame) = g (τ.frame frame))
    (hdef : ∀ frame, (f frame).definition? = frame.definition?)
    (hbase : ∀ frame, (f frame).base = frame.base) :
    τ.Matches { ev₁ with frames := ev₁.frames.modifyHead f }
      { ev₂ with frames := ev₂.frames.modifyHead g } := by
  obtain ⟨inner, hne, habove, hf₁, hf₂⟩ := h.frames
  cases inner with
  | nil => exact absurd rfl hne
  | cons frame rest =>
    refine ⟨⟨h.context, h.memo, h.lowered, h.globals, h.streams, h.identities⟩, ?_, h.items⟩
    refine ⟨f frame :: rest, by simp, fun member hmem => ?_, ?_, ?_⟩
    · rcases List.mem_cons.1 hmem with rfl | hmem
      · obtain ⟨hdefined, hle⟩ := habove frame (by simp)
        exact ⟨by rw [hdef]; exact hdefined, by rw [hbase]; exact hle⟩
      · exact habove member (List.mem_cons_of_mem _ hmem)
    · rw [hf₁]
      rfl
    · rw [hf₂, List.map_cons, List.map_cons, hfg]
      rfl

theorem Matches.bindAll (h : τ.Matches ev₁ ev₂) (aliases : List String) (value : Value) :
    τ.Matches (ev₁.bindAll aliases value) (ev₂.bindAll aliases (τ.value value)) := by
  rw [Evaluator.bindAll_eq, Evaluator.bindAll_eq]
  refine h.modifyHead (fun frame => ?_) (fun _ => rfl) (fun _ => rfl)
  simp only [Transfer.frame, made, Transfer.bindings, ← bindAliases_rename]

theorem Matches.advance (h : τ.Matches ev₁ ev₂) (distance : Nat) :
    τ.Matches (ev₁.advance distance) (ev₂.advance distance) := by
  rw [Evaluator.advance_eq, Evaluator.advance_eq]
  exact h.modifyHead (fun _ => rfl) (fun _ => rfl) (fun _ => rfl)

theorem Matches.push (h : τ.Matches ev₁ ev₂) (value : Value) :
    τ.Matches { ev₁ with stack := ev₁.stack.push value }
      { ev₂ with stack := ev₂.stack.push (τ.value value) } := by
  obtain ⟨upper, hi₁, hi₂⟩ := h.items
  refine ⟨⟨h.context, h.memo, h.lowered, h.globals, h.streams, h.identities⟩, h.frames, ?_⟩
  refine ⟨value :: upper, ?_, ?_⟩
  · simp only [Stack.push, hi₁, List.cons_append]
  · simp only [Stack.push, hi₂, List.map_cons, List.cons_append]

/-- Both draw an identity. -/
theorem Matches.draw (h : τ.Matches ev₁ ev₂) :
    τ.Matches { ev₁ with nextScope := ev₁.nextScope + 1 }
      { ev₂ with nextScope := ev₂.nextScope + 1 } := by
  refine ⟨⟨h.context, h.memo, h.lowered, h.globals, h.streams, fun k => ?_⟩, h.frames, h.items⟩
  have := h.identities (1 + k)
  rwa [← Nat.add_assoc, ← Nat.add_assoc] at this

/-- Both start a frame. -/
theorem Matches.pushFrame (h : τ.Matches ev₁ ev₂) {frame : Frame}
    (hdef : frame.definition?.isSome) :
    τ.Matches (ev₁.pushFrame frame) (ev₂.pushFrame (τ.made frame)) := by
  obtain ⟨inner, hne, habove, hf₁, hf₂⟩ := h.frames
  obtain ⟨upper, hi₁, hi₂⟩ := h.items
  have height₁ := Stack.height_of_append hi₁
  have height₂ := Stack.height_of_append hi₂
  rw [List.length_map] at height₂
  refine ⟨⟨h.context, h.memo, h.lowered, h.globals, h.streams, h.identities⟩, ?_, h.items⟩
  refine ⟨{ frame with base := ev₁.stack.height } :: inner, by simp, fun other hother => ?_, ?_, ?_⟩
  · rcases List.mem_cons.1 hother with rfl | hother
    · exact ⟨hdef, height₁ ▸ Nat.le_add_left ..⟩
    · exact habove other hother
  · simp only [Evaluator.pushFrame, hf₁, List.cons_append]
  · have hbase : ev₁.stack.height - τ.source.items.length + τ.target.items.length =
        ev₂.stack.height := by omega
    simp only [Evaluator.pushFrame, hf₂, List.map_cons, List.cons_append, Transfer.frame, hbase]
    rfl

/-! ## Actions that do the same in both -/

/-- Two results are the same up to the place, and so are the evaluators that they leave. -/
inductive Carried (τ : Transfer) {α β : Type} (f : α → β) :
    Option (Except Exception α × Evaluator) → Option (Except Exception β × Evaluator) → Prop
  | none : Carried τ f none none
  | some (r : Except Exception α) {after₁ after₂ : Evaluator} (h : τ.Matches after₁ after₂) :
      Carried τ f (some (r, after₁)) (some (r.map f, after₂))

/-- Two actions that do the same on matching evaluators. -/
structure Carries (τ : Transfer) {α β : Type} (f : α → β) (m₁ : Action α) (m₂ : Action β) :
    Prop where
  carried : ∀ {ev₁ ev₂}, τ.Matches ev₁ ev₂ → Carried τ f (m₁ ev₁) (m₂ ev₂)

theorem Carried.cases {α β : Type} {f : α → β} {r₁ : Option (Except Exception α × Evaluator)}
    {r₂ : Option (Except Exception β × Evaluator)} (h : Carried τ f r₁ r₂) :
    (r₁ = Option.none ∧ r₂ = Option.none) ∨ ∃ r after₁ after₂, r₁ = Option.some (r, after₁) ∧
      r₂ = Option.some (r.map f, after₂) ∧ τ.Matches after₁ after₂ := by
  cases h with
  | none => exact Or.inl ⟨rfl, rfl⟩
  | some r h => exact Or.inr ⟨r, _, _, rfl, rfl, h⟩

section Closure

variable {α β γ δ : Type} {f : α → β} {g : γ → δ}

theorem carries_pure (a : α) : Carries τ f (pure a) (pure (f a)) :=
  ⟨fun h => .some (.ok a) h⟩

theorem carries_throw (x : Exception) : Carries τ f (throw x) (throw x) :=
  ⟨fun h => .some (.error x) h⟩

theorem carries_failWith (kind : ExceptionKind) : Carries τ f (failWith kind) (failWith kind) := by
  refine ⟨fun {ev₁ ev₂} h => ?_⟩
  rw [failWith_apply, failWith_apply, h.exception]
  exact .some (.error _) h

theorem carries_failAt (node : NodeId) (kind : ExceptionKind) :
    Carries τ f (failAt node kind) (failAt node kind) := by
  refine ⟨fun {ev₁ ev₂} h => ?_⟩
  rw [failAt_apply, failAt_apply, h.exception]
  exact .some (.error _) h

theorem Carries.bind {m₁ : Action α} {m₂ : Action β} {k₁ : α → Action γ} {k₂ : β → Action δ}
    (hm : Carries τ f m₁ m₂) (hk : ∀ a, Carries τ g (k₁ a) (k₂ (f a))) :
    Carries τ g (m₁ >>= k₁) (m₂ >>= k₂) := by
  refine ⟨fun {ev₁ ev₂} h => ?_⟩
  rw [bind_apply, bind_apply]
  rcases (hm.carried h).cases with ⟨h₁, h₂⟩ | ⟨r, after₁, after₂, h₁, h₂, h'⟩ <;> rw [h₁, h₂]
  · exact .none
  · cases r with
    | ok a => exact (hk a).carried h'
    | error x => exact .some (.error x) h'

theorem Carries.map {m₁ : Action α} {m₂ : Action β} {k : α → γ} {k' : β → δ}
    (hm : Carries τ f m₁ m₂) (hk : ∀ a, k' (f a) = g (k a)) :
    Carries τ g (k <$> m₁) (k' <$> m₂) := by
  rw [← bind_pure_comp, ← bind_pure_comp]
  refine hm.bind fun a => ?_
  rw [hk]
  exact carries_pure (k a)

theorem Carries.blaming {m₁ : Action α} {m₂ : Action β} (node : NodeId)
    (hm : Carries τ f m₁ m₂) : Carries τ f (blaming node m₁) (blaming node m₂) := by
  refine ⟨fun {ev₁ ev₂} h => ?_⟩
  rw [blaming_apply, blaming_apply]
  rcases (hm.carried h).cases with ⟨h₁, h₂⟩ | ⟨r, after₁, after₂, h₁, h₂, h'⟩ <;> rw [h₁, h₂]
  · exact .none
  · cases r with
    | ok a => exact .some (.ok a) h'
    | error x => exact .some (.error (x.atNode node)) h'

theorem carries_ofResult (node : NodeId) (result : Except ExceptionKind α) :
    Carries τ f (ofResult node result) (ofResult node (result.map f)) := by
  cases result with
  | ok a => exact carries_pure a
  | error kind => exact carries_failAt node kind

end Closure

/-! ## Taking operands -/

/-- Both find a value above the base of the innermost frame, or neither does. -/
theorem carries_popValue : Carries τ τ.value popValue popValue := by
  refine ⟨fun {ev₁ ev₂} h => ?_⟩
  obtain ⟨frame, rest, hf₁, hf₂, -, hb⟩ := h.innermost
  obtain ⟨upper, hi₁, hi₂⟩ := h.items
  have hbase₁ : ev₁.base = frame.base := Evaluator.base_of_frames hf₁
  have hbase₂ : ev₂.base = frame.base - τ.source.items.length + τ.target.items.length :=
    Evaluator.base_of_frames hf₂
  have height₁ := Stack.height_of_append hi₁
  have height₂ := Stack.height_of_append hi₂
  rw [List.length_map] at height₂
  by_cases hle : ev₁.stack.height ≤ ev₁.base
  · rw [popValue_of_height_le hle, popValue_of_height_le (by omega), h.exception]
    exact .some (.error _) h
  · cases upper with
    | nil =>
      rw [List.length_nil] at height₁
      omega
    | cons value upper =>
      simp only [List.length_cons] at height₁ height₂
      have hle₁ : ev₁.base ≤ (upper ++ τ.source.items).length := by
        rw [List.length_append]
        omega
      have hle₂ : ev₂.base ≤ (upper.map τ.value ++ τ.target.items).length := by
        rw [List.length_append, List.length_map]
        omega
      rw [popValue_of_items hi₁ hle₁, popValue_of_items hi₂ hle₂]
      refine .some (.ok value) ⟨⟨h.context, h.memo, h.lowered, h.globals, h.streams,
        h.identities⟩, h.frames, upper, rfl, rfl⟩

theorem carries_popOperand : Carries τ τ.value popOperand popOperand := by
  refine carries_popValue.bind fun value => ?_
  cases value with
  | exception x => exact carries_throw x
  | _ => exact carries_pure (f := τ.value) _

theorem carries_popOperands (count : Nat) :
    Carries τ (List.map τ.value) (popOperands count) (popOperands count) := by
  induction count with
  | zero => exact carries_pure []
  | succ count ih =>
    exact carries_popOperand.bind fun first => ih.bind fun others => carries_pure (first :: others)

/-! ## Working on operands -/

theorem carries_bindAll (aliases : List String) (value : Value) :
    Carries τ id (bindAll aliases value) (bindAll aliases (τ.value value)) := by
  refine ⟨fun {ev₁ ev₂} h => ?_⟩
  exact .some (.ok ()) (h.bindAll aliases value)

theorem carries_accessMember (id : NodeId) (name : String) (subject : Value) :
    Carries τ τ.value (accessMember id name subject) (accessMember id name (τ.value subject)) := by
  cases subject with
  | struct definition scope =>
    have hmember : memberValue? definition (scope.rename τ.rename) name =
        (memberValue? definition scope name).map τ.value := by
      unfold memberValue?
      rw [Scope.bindings_rename, Assoc.find?_map]
      cases scope.bindings.find? name with
      | some value => rfl
      | none => cases definition.functionNamed? name <;> rfl
    simp only [accessMember, Transfer.value, Value.rename]
    rw [hmember]
    cases memberValue? definition scope name with
    | some value => exact carries_pure value
    | none => exact carries_failAt ..
  | _ => exact carries_failAt ..

theorem carries_executeDefinition (aliases : List String) {close : Scope → Value}
    (hclose : ∀ scope, close (scope.rename τ.rename) = τ.value (close scope)) :
    Carries τ τ.value (executeDefinition aliases close) (executeDefinition aliases close) := by
  refine ⟨fun {ev₁ ev₂} h => ?_⟩
  rw [executeDefinition_apply, executeDefinition_apply, h.closure, hclose]
  exact .some (.ok _) (h.draw.bindAll aliases _)

/-- Expressions that are not calls do the same. -/
theorem carries_operate (e : Expr) (values : List Value) :
    Carries τ (Option.map τ.value) (e.operate values) (e.operate (values.map τ.value)) := by
  cases e with
  | list id opening items closing =>
    have hlist : some (.list (values.map τ.value)) = Option.map τ.value (some (.list values)) := by
      rw [Option.map_some, Transfer.value, Value.rename_list]
    simp only [Expr.operate]
    rw [hlist]
    exact carries_pure _
  | reference id name =>
    refine ⟨fun {ev₁ ev₂} h => ?_⟩
    simp only [Expr.operate, bind_apply, get_apply, Option.bind_some, continuing_ok]
    rw [h.lookup]
    cases ev₁.lookup name.text with
    | some value => exact .some (.ok (some value)) h
    | none => exact (carries_failAt ..).carried h
  | access id subject dot name =>
    rcases values with _ | ⟨value, _ | ⟨other, rest⟩⟩
    · exact carries_pure none
    · exact (carries_accessMember id name.text value).map fun _ => rfl
    · exact carries_pure none
  | binary id left mark op right =>
    rcases values with _ | ⟨l, _ | ⟨r, _ | ⟨other, rest⟩⟩⟩
    · exact carries_pure none
    · exact carries_pure none
    · have happly : Carries τ τ.value (ofResult id (op.apply l r))
          (ofResult id (op.apply (τ.value l) (τ.value r))) := by
        rw [BinaryOperator.apply_rename τ.injective]
        exact carries_ofResult ..
      exact happly.map fun _ => rfl
    · exact carries_pure none
  | unary id mark op operand =>
    rcases values with _ | ⟨value, _ | ⟨other, rest⟩⟩
    · exact carries_pure none
    · have happly : Carries τ τ.value (ofResult id (op.apply value))
          (ofResult id (op.apply (τ.value value))) := by
        rw [UnaryOperator.apply_rename]
        exact carries_ofResult ..
      exact happly.map fun _ => rfl
    · exact carries_pure none
  | function f => exact (carries_executeDefinition f.aliases fun _ => rfl).map fun _ => rfl
  | struct s => exact (carries_executeDefinition s.aliases fun _ => rfl).map fun _ => rfl
  | block id statements =>
    simp only [Expr.operate, List.getLast?_map]
    cases values.getLast? with
    | some last => exact carries_pure (some last)
    | none => exact carries_failAt ..
  | bind b =>
    rcases values with _ | ⟨value, _ | ⟨other, rest⟩⟩
    · exact carries_pure none
    · exact (carries_bindAll b.aliases value).bind fun _ => carries_pure (some value)
    · exact carries_pure none
  | delete id table mark query => exact carries_failAt ..
  | insert id table mark cells => exact carries_failAt ..
  | boolean id token value => exact carries_pure (some (Value.boolean value))
  | number id token amount unit => exact carries_pure (some (Value.measure amount unit))
  | text id token tag =>
    exact carries_pure (some (Value.text ⟨unquoted token.text, tag.map Language.code⟩))
  | call c => exact carries_pure none
  | conditional id condition question yes no => exact carries_pure none
  | unparsable id tokens => exact carries_pure none

/-! ## Calls -/

theorem carries_codeOf (budget : Nat) (e : Expr) :
    Carries τ id (codeOf budget e) (codeOf budget e) := by
  refine ⟨fun {ev₁ ev₂} h => ?_⟩
  unfold codeOf
  rw [bind_apply, bind_apply, get_apply, get_apply, Option.bind_some, Option.bind_some,
    continuing_ok, continuing_ok, h.lowered, h.context, h.memo]
  cases ev₁.lowered.find? e.id with
  | some code => exact .some (.ok code) h
  | none =>
    cases e.lower budget ev₁.context ev₁.memo with
    | none => exact .none
    | some found =>
      exact .some (.ok found.1) ⟨⟨rfl, rfl, rfl, h.globals, h.streams, h.identities⟩, h.frames,
        h.items⟩

theorem carries_blockCode (budget : Nat) (s : StructDef) :
    Carries τ id (blockCode budget s) (blockCode budget s) := by
  rcases blockCode_eq budget s with h | ⟨block, h⟩ <;> rw [h]
  · exact carries_pure []
  · exact carries_codeOf ..

theorem carries_freshScope : Carries τ τ.rename freshScope freshScope := by
  refine ⟨fun {ev₁ ev₂} h => ?_⟩
  have hid : τ.rename (.captured ev₁.nextScope) = .captured ev₂.nextScope := h.identities 0
  rw [freshScope_apply, freshScope_apply, ← hid]
  exact .some (.ok _) h.draw

theorem bindSelf_rename (bindings : Bindings) (aliases : List String) (self : Value) :
    bindSelf (τ.bindings bindings) aliases (τ.value self) =
      τ.bindings (bindSelf bindings aliases self) := by
  unfold bindSelf
  induction aliases generalizing bindings with
  | nil => rfl
  | cons name rest ih =>
    rw [List.foldl_cons, List.foldl_cons, ← ih, Transfer.bindings, Transfer.bindings,
      Assoc.insertNew_map]

theorem carries_argumentBindings (call : Call) (inputs : List Binder) (values : List Value) :
    Carries τ τ.bindings (argumentBindings call inputs values)
      (argumentBindings call inputs (values.map τ.value)) := by
  unfold argumentBindings
  rw [bindInputs_rename]
  cases bindInputs inputs values with
  | ok bindings => exact carries_pure bindings
  | error x => exact carries_throw _

theorem carries_prepareFunction (budget : Nat) (f : FunctionDef) (scope : Scope)
    (bindings : Bindings) :
    Carries τ τ.made (prepareFunction budget f scope bindings)
      (prepareFunction budget f (scope.rename τ.rename) (τ.bindings bindings)) := by
  unfold prepareFunction
  cases f.body with
  | none => exact carries_failWith _
  | some body =>
    refine (carries_codeOf budget body).bind fun code => ?_
    have hself : bindSelf (τ.bindings bindings) f.aliases (.function f (scope.rename τ.rename)) =
        τ.bindings (bindSelf bindings f.aliases (.function f scope)) :=
      bindSelf_rename bindings f.aliases (.function f scope)
    rw [hself]
    exact carries_pure (f := τ.made) _

/-- The scope that a structure is built in, around which its names are bound. -/
theorem around_rename (id : ScopeId) (s : StructDef) (scope : Scope) :
    Scope.mk (τ.rename id)
        (Assoc.ofList (s.aliases.map fun name => (name, .structDef s (scope.rename τ.rename))))
        (some (scope.rename τ.rename)) =
      (Scope.mk id (Assoc.ofList (s.aliases.map fun name => (name, .structDef s scope)))
        (some scope)).rename τ.rename := by
  rw [Scope.rename_mk, Assoc.ofList_map, List.map_map]
  rfl

theorem carries_prepareStruct (budget : Nat) (s : StructDef) (scope : Scope)
    (bindings : Bindings) :
    Carries τ τ.made (prepareStruct budget s scope bindings)
      (prepareStruct budget s (scope.rename τ.rename) (τ.bindings bindings)) := by
  unfold prepareStruct
  refine (carries_blockCode budget s).bind fun code => carries_freshScope.bind fun id => ?_
  rw [around_rename]
  exact carries_pure (f := τ.made) _

/-- The frame that a call makes is the same. -/
theorem carries_prepare (budget : Nat) (call : Call) (values : List Value) (callee : Value) :
    Carries τ τ.made (prepare budget call values callee)
      (prepare budget call (values.map τ.value) (τ.value callee)) := by
  cases callee with
  | function f scope =>
    exact (carries_argumentBindings ..).bind fun bindings =>
      (carries_prepareFunction ..).blaming call.id
  | structDef s scope =>
    exact (carries_argumentBindings ..).bind fun bindings =>
      (carries_prepareStruct ..).blaming call.id
  | _ => exact carries_failAt ..

theorem carries_prepareCall (budget : Nat) (call : Call) :
    Carries τ τ.made (prepareCall budget call) (prepareCall budget call) := by
  unfold prepareCall
  refine carries_popOperand.bind fun callee => ?_
  have hinputs : (τ.value callee).declaredInputs? = callee.declaredInputs? := by
    cases callee <;> rfl
  rw [hinputs]
  cases callee.declaredInputs? with
  | none => exact carries_failAt ..
  | some inputs =>
    refine (carries_popOperands _).bind fun values => ?_
    rw [← List.map_reverse]
    exact carries_prepare ..

/-! ## Instructions -/

theorem carries_push (value : Value) :
    Carries τ id (modify fun ev => { ev with stack := ev.stack.push value } : Action Unit)
      (modify fun ev => { ev with stack := ev.stack.push (τ.value value) }) :=
  ⟨fun h => .some (.ok ()) (h.push value)⟩

theorem carries_advance (distance : Nat) :
    Carries τ id (modify (·.advance distance) : Action Unit) (modify (·.advance distance)) :=
  ⟨fun h => .some (.ok ()) (h.advance distance)⟩

/-- Expressions that are not calls are executed alike. -/
theorem carries_finish (budget : Nat) {e : Expr} (he : e.isCall = false) :
    Carries τ id ((Instruction.finish e).act budget) ((Instruction.finish e).act budget) := by
  have hexecute : Carries τ (Option.map τ.value) (e.execute budget) (e.execute budget) := by
    rw [execute_eq budget he]
    refine (carries_popOperands _).bind fun values => ?_
    rw [← List.map_reverse]
    exact carries_operate ..
  refine hexecute.bind fun answer => ?_
  match answer with
  | none => exact carries_pure ()
  | some value =>
    cases hv : value.isException with
    | true =>
      obtain ⟨x, rfl⟩ := Value.isException_iff.1 hv
      exact carries_throw x
    | false =>
      have hpush := carries_push (τ := τ) value
      cases value <;> first | exact hpush | exact nomatch hv

theorem carries_jumpIfFalse (budget distance : Nat) (node : NodeId) :
    Carries τ id ((Instruction.jumpIfFalse distance node).act budget)
      ((Instruction.jumpIfFalse distance node).act budget) := by
  refine (carries_popValue.blaming node).bind fun value => ?_
  cases value with
  | boolean b =>
    cases b
    · exact carries_advance _
    · exact carries_pure ()
  | exception x => exact carries_throw x
  | _ => exact carries_failAt ..

/-- Making the frame of a call starts none. -/
theorem frames_of_prepareCall {budget : Nat} {call : Call} {ev after : Evaluator} {made : Frame}
    (h : prepareCall budget call ev = some (.ok made, after)) :
    after.frames.length = ev.frames.length ∧ after.options = ev.options ∧
      made.definition?.isSome := by
  rcases prepareCall_cases h with ⟨frame, _, _, _, lower, hr, -, -, -, -, hm, hnew⟩ | ⟨x, hr, -⟩
  · obtain rfl : made = frame := by simpa using hr
    exact ⟨hm.length_frames, hm.options, hnew.definition⟩
  · exact nomatch hr

/-- A call that may start its frame starts it in both. -/
theorem carried_call {budget : Nat} {call : Call} (h : τ.Matches ev₁ ev₂)
    (room₁ : ∀ made mid, prepareCall budget call ev₁ = some (.ok made, mid) →
      ev₁.frames.length < ev₁.options.maxDepth)
    (room₂ : ∀ made mid, prepareCall budget call ev₂ = some (.ok made, mid) →
      ev₂.frames.length < ev₂.options.maxDepth) :
    Carried τ id (executeCall budget call ev₁) (executeCall budget call ev₂) := by
  rw [executeCall_eq, bind_apply, bind_apply]
  rcases ((carries_prepareCall budget call).carried h).cases with
    ⟨h₁, h₂⟩ | ⟨r, after₁, after₂, h₁, h₂, h'⟩ <;> rw [h₁, h₂]
  · exact .none
  · cases r with
    | error x => exact .some (.error x) h'
    | ok made =>
      obtain ⟨hlen₁, hopt₁, hdef⟩ := frames_of_prepareCall h₁
      obtain ⟨hlen₂, hopt₂, -⟩ := frames_of_prepareCall h₂
      have hroom₁ := room₁ made after₁ h₁
      have hroom₂ := room₂ (τ.made made) after₂ h₂
      rw [← hlen₁, ← hopt₁] at hroom₁
      rw [← hlen₂, ← hopt₂] at hroom₂
      simp only [Option.bind_some, continuing_ok, Except.map]
      rw [blaming_apply, blaming_apply, startFrame_apply, startFrame_apply,
        if_neg (Nat.not_le.2 hroom₁), if_neg (Nat.not_le.2 hroom₂)]
      exact .some (.ok ()) (h'.pushFrame hdef)

/-- Instructions act alike, unless a call finds no room for its frame. -/
theorem carried_act {budget : Nat} {i : Instruction} (h : τ.Matches ev₁ ev₂)
    (room₁ : ∀ call made mid, i = .finish (.call call) →
      prepareCall budget call ev₁ = some (.ok made, mid) →
      ev₁.frames.length < ev₁.options.maxDepth)
    (room₂ : ∀ call made mid, i = .finish (.call call) →
      prepareCall budget call ev₂ = some (.ok made, mid) →
      ev₂.frames.length < ev₂.options.maxDepth) :
    Carried τ id (i.act budget ev₁) (i.act budget ev₂) := by
  cases i with
  | start e => exact (carries_pure ()).carried h
  | jump distance node => exact (carries_advance distance).carried h
  | jumpIfFalse distance node => exact (carries_jumpIfFalse budget distance node).carried h
  | halt node reason => exact (carries_failAt node _).carried h
  | finish e =>
    cases he : e.isCall with
    | false => exact (carries_finish budget he).carried h
    | true =>
      cases e with
      | call call =>
        rw [act_call]
        exact carried_call h (fun made mid => room₁ call made mid rfl)
          (fun made mid => room₂ call made mid rfl)
      | _ => exact nomatch he

/-! ## Results -/

/-- A finished frame has the same result. -/
theorem Matches.result? (h : τ.Matches ev₁ ev₂) {frame : Frame} (habove : τ.Above frame) :
    ev₂.result? (τ.frame frame) = (ev₁.result? frame).map τ.value := by
  obtain ⟨upper, hi₁, hi₂⟩ := h.items
  have hpop : (ev₂.stack.popAbove (τ.frame frame).base).map Prod.fst =
      ((ev₁.stack.popAbove frame.base).map Prod.fst).map τ.value := by
    have hle := habove.le_base
    have hbase : (τ.frame frame).base =
      frame.base - τ.source.items.length + τ.target.items.length := rfl
    have height₁ := Stack.height_of_append hi₁
    have height₂ := Stack.height_of_append hi₂
    rw [List.length_map] at height₂
    by_cases hlt : frame.base < ev₁.stack.height
    · cases upper with
      | nil =>
        rw [List.length_nil] at height₁
        omega
      | cons value upper =>
        rw [Stack.popAbove_of_lt hi₁ hlt, Stack.popAbove_of_lt hi₂ (by omega)]
        rfl
    · rw [Stack.popAbove_of_le (Nat.le_of_not_lt hlt), Stack.popAbove_of_le (by omega)]
      rfl
  have hkind : (τ.frame frame).kind = frame.kind := rfl
  unfold Evaluator.result?
  rw [hkind]
  cases frame.kind with
  | struct definition =>
    have hid : τ.rename (.captured ev₁.nextScope) = .captured ev₂.nextScope := h.identities 0
    simp only [Option.map_some, Frame.capture, Transfer.value, Value.rename, Scope.rename_mk, hid]
    rfl
  | _ => exact hpop

theorem Matches.cleared (h : τ.Matches ev₁ ev₂) {frame : Frame} (habove : τ.Above frame) :
    τ.Shares (ev₁.cleared frame) (ev₂.cleared (τ.frame frame)) ∧
      ∃ upper, (ev₁.cleared frame).stack.items = upper ++ τ.source.items ∧
        (ev₂.cleared (τ.frame frame)).stack.items = upper.map τ.value ++ τ.target.items := by
  obtain ⟨upper, hi₁, hi₂⟩ := h.items
  have hle := habove.le_base
  have hkind : (τ.frame frame).kind = frame.kind := rfl
  refine ⟨⟨h.context, h.memo, h.lowered, h.globals, h.streams, ?_⟩, ?_⟩
  · unfold Evaluator.cleared
    rw [hkind]
    cases frame.kind with
    | struct definition => exact h.draw.identities
    | _ => exact h.identities
  · let height := frame.base - τ.source.items.length
    refine ⟨upper.drop (upper.length - height), ?_, ?_⟩
    · have hdrop : ev₁.stack.height - frame.base = upper.length - height := by
        simp only [Stack.height, hi₁, List.length_append, height]
        omega
      simp only [Evaluator.cleared, Stack.truncate, hdrop, hi₁]
      exact List.drop_append_of_le_length (Nat.sub_le ..)
    · have hdrop : ev₂.stack.height - (τ.frame frame).base = upper.length - height := by
        simp only [Stack.height, hi₂, List.length_append, List.length_map, Transfer.frame, height]
        omega
      simp only [Evaluator.cleared, Stack.truncate, hdrop, hi₂]
      rw [List.drop_append_of_le_length (by simp), List.map_drop]

/-- Both hand a result to the next frame. -/
theorem Matches.handDown (h : τ.Matches ev₁ ev₂) {frame : Frame} {rest : List Frame}
    (hne : rest ≠ []) (habove : ∀ member ∈ frame :: rest, τ.Above member) (value : Value) :
    τ.Matches (ev₁.handDown frame value (rest ++ τ.source.frames))
      (ev₂.handDown (τ.frame frame) (τ.value value) (rest.map τ.frame ++ τ.target.frames)) := by
  obtain ⟨hshares, upper, hi₁, hi₂⟩ := h.cleared (habove frame (by simp))
  refine ⟨⟨hshares.context, hshares.memo, hshares.lowered, hshares.globals, hshares.streams,
    hshares.identities⟩, ?_, value :: upper, ?_, ?_⟩
  · exact ⟨rest, hne, fun member hmem => habove member (List.mem_cons_of_mem _ hmem), rfl, rfl⟩
  · exact congrArg (value :: ·) hi₁
  · exact congrArg (τ.value value :: ·) hi₂

end Transfer

end Stepwise

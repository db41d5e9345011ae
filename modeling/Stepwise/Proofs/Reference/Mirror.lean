import Stepwise.Proofs.Machine.Moves
import Stepwise.Proofs.Reference.Evaluate

/-!
# Actions of the machine and evaluations

Instructions of the machine act on operands that are on the stack already, and so do the steps of
the reference evaluation on values.  An action mirrors an evaluation (`Mirrors`) when it answers
what the evaluation answers and stops where the evaluation has a fault.  Sequences mirror one
another part by part (`Mirrors.bind`).

A place is where in the machine something is evaluated, and `Place.Holds` says what the machine
looks like there, given what the reference evaluation has stored.  `mirrors_finish` treats all
expressions but calls.
-/

namespace Stepwise.Reference

open Stepwise.Action

/-! ## Mirroring -/

section Mirrors

variable {α β γ δ : Type}

/-- The result of an action that stops where there is a fault.  What an action does on its own is
never the fault of a call that does not match. -/
def Fault.Stops (fault : Fault) (r : Option (Except Exception α × Evaluator)) : Prop :=
  match fault with
  | .raised x => ∃ after, r = some (.error x, after)
  | .tooDeep => ∃ x limit after, r = some (.error x, after) ∧ x.kind = .stackOverflow limit
  | .unlaid => r = none
  | .mismatched => False

/-- The result of an action that answers what an evaluation answers. -/
def Mirrors (r : Option (Except Exception α × Evaluator)) (result : Except Fault (β × Store))
    (R : α → Evaluator → β → Store → Prop) : Prop :=
  match result with
  | .ok (b, store) => ∃ a after, r = some (.ok a, after) ∧ R a after b store
  | .error fault => fault.Stops r

variable {ev : Evaluator} {store : Store} {R : α → Evaluator → β → Store → Prop}
  {S : γ → Evaluator → δ → Store → Prop}

theorem mirrors_pure {a : α} {b : β} (h : R a ev b store) :
    Mirrors ((pure a : Action α) ev) ((pure b : Evaluation β) store) R :=
  ⟨a, ev, rfl, h⟩

theorem Fault.Stops.bind {fault : Fault} {m : Action α} (f : α → Action γ)
    (h : fault.Stops (m ev)) : fault.Stops ((m >>= f) ev) := by
  cases fault with
  | raised x =>
    obtain ⟨after, hm⟩ := h
    exact ⟨after, by rw [bind_apply, hm, Option.bind_some, continuing_error]⟩
  | tooDeep =>
    obtain ⟨x, limit, after, hm, hx⟩ := h
    exact ⟨x, limit, after, by rw [bind_apply, hm, Option.bind_some, continuing_error], hx⟩
  | unlaid =>
    have hm : m ev = none := h
    show (m >>= f) ev = none
    rw [bind_apply, hm, Option.bind_none]
  | mismatched => exact h.elim

/-- Sequences mirror one another when their parts do. -/
theorem Mirrors.bind {m : Action α} {f : α → Action γ} {m' : Evaluation β}
    {f' : β → Evaluation δ} (h : Mirrors (m ev) (m' store) R)
    (hf : ∀ a after b mid, R a after b mid → Mirrors (f a after) (f' b mid) S) :
    Mirrors ((m >>= f) ev) ((m' >>= f') store) S := by
  cases hm : m' store with
  | error fault =>
    rw [hm] at h
    rw [bind_error hm]
    exact Fault.Stops.bind f h
  | ok r =>
    obtain ⟨b, mid⟩ := r
    rw [hm] at h
    obtain ⟨a, after, ha, hr⟩ := h
    rw [bind_ok hm, bind_apply, ha]
    exact hf a after b mid hr

/-- Blame does not change what an action answers.  It does change what an action raises, which is
therefore excluded. -/
theorem Mirrors.blaming {m : Action α} {result : Except Fault (β × Store)} (node : NodeId)
    (h : Mirrors (m ev) result R) (hx : ∀ x, result ≠ .error (.raised x)) :
    Mirrors (blaming node m ev) result R := by
  rw [blaming_apply]
  match result with
  | .ok (b, mid) =>
    obtain ⟨a, after, ha, hr⟩ := h
    exact ⟨a, after, by rw [ha]; rfl, hr⟩
  | .error (.raised x) => exact absurd rfl (hx x)
  | .error .tooDeep =>
    obtain ⟨x, limit, after, ha, hkind⟩ := h
    exact ⟨x.atNode node, limit, after, by rw [ha]; rfl, hkind⟩
  | .error .unlaid =>
    have ha : m ev = none := h
    show (m ev).map _ = none
    rw [ha, Option.map_none]
  | .error .mismatched => exact h.elim

end Mirrors

/-! ## Places -/

/-- Code that has been lowered, by the layouts that it is the code of. -/
structure Covers (ctx : Context) (layouts : Assoc NodeId Layout) (lowered : Assoc NodeId Code) :
    Prop where
  code : ∀ id, lowered.find? id = (layouts.find? id).map Layout.code
  formed : ∀ id found, layouts.find? id = some found → found.Formed ctx

theorem Covers.insert {ctx : Context} {layouts : Assoc NodeId Layout} {lowered : Assoc NodeId Code}
    (h : Covers ctx layouts lowered) (id : NodeId) {found : Layout} (hf : found.Formed ctx) :
    Covers ctx (layouts.insert id found) (lowered.insert id found.code) := by
  refine ⟨fun other => ?_, fun other => ?_⟩
  · rw [Assoc.find?_insert, Assoc.find?_insert, h.code]
    split <;> rfl
  · rw [Assoc.find?_insert]
    split
    · rintro _ ⟨⟩
      exact hf
    · exact h.formed other

/-- Where in the machine something is evaluated: in a frame, on top of others. -/
structure Place where
  env : Env
  options : Options
  frame : Frame
  outer : List Frame
  scope : frame.scope = env.scope
  definition : (frame :: outer).findSome? Frame.definition? = env.definition
  unlimited : options.maxSteps = none

/-- The frame of a place, with the cursor at an address. -/
def Place.frameAt (p : Place) (cursor : Nat) (store : Store) : Frame :=
  { p.frame with cursor := cursor, bindings := store.bindings }

/-- The machine stands at a place, with the cursor at an address and values on the stack, and has
stored what the reference evaluation has stored. -/
structure Place.Holds (p : Place) (cursor : Nat) (store : Store) (items : List Value)
    (ev : Evaluator) : Prop where
  context : ev.context = p.env.context
  globals : ev.globals = p.env.globals
  streams : ev.streams = p.env.streams
  options : ev.options = p.options
  memo : ev.memo = store.memo
  nextScope : ev.nextScope = store.nextScope
  covers : Covers p.env.context store.layouts ev.lowered
  running : ev.outcome = none
  frames : ev.frames = p.frameAt cursor store :: p.outer
  stack : ev.stack.items = items
  base : p.frame.base ≤ items.length

namespace Place.Holds

variable {p : Place} {cursor : Nat} {store : Store} {items : List Value} {ev : Evaluator}

theorem base_eq (h : p.Holds cursor store items ev) : ev.base = p.frame.base :=
  @Evaluator.base_of_frames _ (p.frameAt cursor store) _ h.frames

theorem lookup (h : p.Holds cursor store items ev) (name : String) :
    ev.lookup name = p.env.lookup store.bindings name := by
  unfold Evaluator.lookup Evaluator.currentFrame? Env.lookup
  rw [h.frames, h.globals, h.streams, ← p.scope]
  simp only [List.head?_cons, Option.bind_some, Frame.lookup, Place.frameAt, Option.or_assoc]

theorem exception (h : p.Holds cursor store items ev) (kind : ExceptionKind) :
    ev.exception kind = { kind := kind, frame := p.env.definition } := by
  have hdef : ev.currentDefinition? = p.env.definition := by
    unfold Evaluator.currentDefinition?
    rw [h.frames, ← p.definition]
    rfl
  rw [Evaluator.exception, hdef]

theorem closure (h : p.Holds cursor store items ev) :
    ev.closure = .mk (.captured store.nextScope) store.bindings (some p.env.scope) := by
  unfold Evaluator.closure Evaluator.currentFrame?
  rw [h.frames, h.nextScope, ← p.scope]
  rfl

theorem withItems (h : p.Holds cursor store items ev) {others : List Value}
    (hb : p.frame.base ≤ others.length) : p.Holds cursor store others (ev.withItems others) :=
  { h with stack := rfl, base := hb }

theorem push (h : p.Holds cursor store items ev) (value : Value) :
    p.Holds cursor store (value :: items) { ev with stack := ev.stack.push value } :=
  { h with stack := congrArg (value :: ·) h.stack, base := Nat.le_succ_of_le h.base }

theorem draw (h : p.Holds cursor store items ev) :
    p.Holds cursor { store with nextScope := store.nextScope + 1 } items
      { ev with nextScope := ev.nextScope + 1 } :=
  { h with nextScope := congrArg (· + 1) h.nextScope }

theorem bindAll (h : p.Holds cursor store items ev) (aliases : List String) (value : Value) :
    p.Holds cursor { store with bindings := bindAliases store.bindings aliases value } items
      (ev.bindAll aliases value) := by
  rw [Evaluator.bindAll_eq]
  refine { h with frames := ?_ }
  rw [h.frames]
  rfl

theorem fetch (h : p.Holds cursor store items ev) (i : Instruction) :
    p.Holds (cursor + 1) store items
      (ev.fetch (p.frameAt cursor store) p.outer i) :=
  { h with frames := rfl }

theorem advance (h : p.Holds cursor store items ev) (distance : Nat) :
    p.Holds (cursor + distance) store items (ev.advance distance) := by
  rw [Evaluator.advance_eq]
  refine { h with frames := ?_ }
  rw [h.frames]
  rfl

end Place.Holds

/-! ## Expressions -/

section Expressions

variable {p : Place} {cursor : Nat} {store : Store} {items : List Value} {ev : Evaluator}

/-- Failing at a node is the same in both. -/
theorem mirrors_raise {α β : Type} {R : α → Evaluator → β → Store → Prop}
    {r : Option (Except Exception α × Evaluator)} {after : Evaluator} {node : NodeId}
    {kind : ExceptionKind} (h : p.Holds cursor store items ev)
    (hr : r = some (.error ((ev.exception kind).atNode node), after)) :
    Mirrors r ((p.env.raise node kind : Evaluation β) store) R :=
  ⟨after, by rw [hr, h.exception]; rfl⟩

theorem mirrors_ofResult (h : p.Holds cursor store items ev) (node : NodeId)
    (result : Except ExceptionKind Value) :
    Mirrors ((some <$> ofResult node result : Action (Option Value)) ev)
      (p.env.ofResult node result store)
      (fun a after b mid => a = some b ∧ p.Holds cursor mid items after) := by
  cases result with
  | ok value => exact ⟨some value, ev, rfl, rfl, h⟩
  | error kind => exact mirrors_raise h rfl

/-- A definition closes over the same scope in both. -/
theorem mirrors_definition (h : p.Holds cursor store items ev) (aliases : List String)
    (close : Scope → Value) :
    Mirrors ((some <$> executeDefinition aliases close : Action (Option Value)) ev)
      ((do declare aliases (close (← p.env.close)) : Evaluation Value) store)
      (fun a after b mid => a = some b ∧ p.Holds cursor mid items after) := by
  refine ⟨some (close ev.closure), _, ?_, congrArg (some <| close ·) h.closure,
    h.draw.bindAll aliases _⟩
  rw [map_apply, executeDefinition_apply, h.closure]
  rfl

theorem mirrors_reference (h : p.Holds cursor store items ev) (id : NodeId) (name : Token)
    (values : List Value) :
    Mirrors ((Expr.reference id name).operate values ev)
      (p.env.combine (.reference id name) values store)
      (fun a after b mid => a = some b ∧ p.Holds cursor mid items after) := by
  simp only [Expr.operate, Env.combine]
  rw [bind_apply, get_apply, Option.bind_some, continuing_ok, h.lookup, bind_ok (get_ok store)]
  cases p.env.lookup store.bindings name.text with
  | some value => exact mirrors_pure ⟨rfl, h⟩
  | none => exact mirrors_raise h rfl

theorem mirrors_access (h : p.Holds cursor store items ev) (id : NodeId) (subject : Expr)
    (dot name : Token) (value : Value) :
    Mirrors ((Expr.access id subject dot name).operate [value] ev)
      (p.env.combine (.access id subject dot name) [value] store)
      (fun a after b mid => a = some b ∧ p.Holds cursor mid items after) := by
  cases value with
  | struct definition scope =>
    simp only [Expr.operate, accessMember, Env.combine]
    cases memberValue? definition scope name.text with
    | some value => exact mirrors_pure ⟨rfl, h⟩
    | none => exact mirrors_raise h rfl
  | _ => exact mirrors_raise h rfl

/-- An expression that has the parts that it needs does with their values what the reference
evaluation does. -/
theorem mirrors_operate (h : p.Holds cursor store items ev) {e : Expr} {values : List Value}
    (hp : e.isLeaf = true ∨ e.Parts p.env.context values.length) (he : e.isCall = false) :
    Mirrors (e.operate values ev) (p.env.combine e values store)
      (fun a after b mid => a = some b ∧ p.Holds cursor mid items after) := by
  have hlen (hleaf : e.isLeaf = false) (hother : e.Parts p.env.context values.length →
      values.length = e.demand) : values.length = e.demand :=
    hp.elim (fun hl => absurd hl (by simp [hleaf])) hother
  cases e with
  | boolean | number | text | list => exact mirrors_pure ⟨rfl, h⟩
  | delete | insert => exact mirrors_raise h rfl
  | function f => exact mirrors_definition h f.aliases (.function f)
  | struct s => exact mirrors_definition h s.aliases (.structDef s)
  | reference id name => exact mirrors_reference h id name values
  | block id statements =>
    simp only [Expr.operate, Env.combine]
    cases values.getLast? with
    | some last => exact mirrors_pure ⟨rfl, h⟩
    | none => exact mirrors_raise h rfl
  | call => simp [Expr.isCall] at he
  | conditional | unparsable => simp [Expr.isLeaf, Expr.Parts] at hp
  | access id subject dot name =>
    obtain ⟨value, rfl⟩ := List.length_eq_one_iff.1 (hlen rfl And.right)
    exact mirrors_access h id subject dot name value
  | binary id left mark op right =>
    rw [List.eq_getElem_of_length_eq_two values (hlen rfl And.right)]
    exact mirrors_ofResult h id _
  | unary id mark op operand =>
    obtain ⟨value, rfl⟩ := List.length_eq_one_iff.1 (hlen rfl And.right)
    exact mirrors_ofResult h id _
  | bind b =>
    obtain ⟨value, rfl⟩ := List.length_eq_one_iff.1 (hlen rfl And.right)
    exact ⟨some value, _, rfl, rfl, h.bindAll b.aliases value⟩

/-- A value is put on the stack unless it is an exception, which ends everything in both. -/
theorem mirrors_push (h : p.Holds cursor store items ev) (value : Value) :
    Mirrors ((match some value with
        | none => pure ()
        | some (.exception x) => throw x
        | some value => modify fun ev => { ev with stack := ev.stack.push value } : Action Unit) ev)
      (orRaise value store)
      (fun _ after b mid => p.Holds cursor mid (b :: items) after ∧ b.isException = false) := by
  cases value with
  | exception x => exact ⟨ev, rfl⟩
  | _ => exact ⟨(), _, rfl, h.push _, rfl⟩

theorem length_eq_demand {ctx : Context} {e : Expr} {values : List Value}
    (hp : e.isLeaf = true ∧ values = [] ∨ e.Parts ctx values.length) (he : e.isCall = false) :
    values.length = e.demand ∨ ∃ id table mark cells, e = .insert id table mark cells := by
  rcases hp with ⟨hleaf, rfl⟩ | hp
  · exact Or.inl (demand_of_isLeaf hleaf).symm
  · cases e with
    | call => exact nomatch he
    | conditional | unparsable => exact hp.elim
    | insert id table mark cells => exact Or.inr ⟨id, table, mark, cells, rfl⟩
    | _ => exact Or.inl hp.2

/-- Finishing an expression that is not a call takes the values of its parts and leaves its own. -/
theorem mirrors_finish (budget : Nat) {e : Expr} {values : List Value}
    (h : p.Holds cursor store (values.reverse ++ items) ev) (hb : p.frame.base ≤ items.length)
    (hv : ∀ value ∈ values, value.isException = false)
    (hp : e.isLeaf = true ∧ values = [] ∨ e.Parts p.env.context values.length)
    (he : e.isCall = false) :
    Mirrors ((Instruction.finish e).act budget ev) ((p.env.combine e values >>= orRaise) store)
      (fun _ after b mid => p.Holds cursor mid (b :: items) after ∧ b.isException = false) := by
  rw [Instruction.act, execute_eq budget he, bind_assoc]
  have hparts : e.isLeaf = true ∨ e.Parts p.env.context values.length := hp.imp_left And.left
  rcases length_eq_demand hp he with hn | ⟨id, table, mark, cells, rfl⟩
  · have hpop : popOperands e.demand ev = some (.ok values.reverse, ev.withItems items) := by
      have hrev : values.reverse.length = e.demand := by rw [List.length_reverse, hn]
      rw [← hrev]
      refine popOperands_apply h.stack ?_ fun value hmem => hv value (List.mem_reverse.1 hmem)
      rw [h.base_eq]
      exact hb
    rw [bind_apply, hpop, Option.bind_some, continuing_ok, List.reverse_reverse]
    refine (mirrors_operate (h.withItems hb) hparts he).bind fun a after b mid hr => ?_
    obtain ⟨rfl, hafter⟩ := hr
    exact mirrors_push hafter b
  · have hraise : (p.env.combine (.insert id table mark cells) values >>= orRaise) store =
        (p.env.raise id .notImplemented : Evaluation Value) store := rfl
    rw [hraise]
    exact mirrors_raise h rfl

end Expressions

/-! ## Calls -/

section Calls

variable {env : Env} {store : Store} {ev : Evaluator}

/-- What lowering and finding a layout change. -/
structure Learnt (ctx : Context) (ev after : Evaluator) (store mid : Store) : Prop where
  covers : Covers ctx mid.layouts after.lowered
  after : after = { ev with memo := mid.memo, lowered := after.lowered }
  mid : mid = { store with memo := mid.memo, layouts := mid.layouts }

theorem Learnt.holds {p : Place} {cursor : Nat} {items : List Value} {after : Evaluator}
    {mid : Store} (hl : Learnt p.env.context ev after store mid)
    (h : p.Holds cursor store items ev) : p.Holds cursor mid items after := by
  rw [hl.after, hl.mid]
  exact { h with memo := rfl, covers := hl.covers }

/-- Code is lowered where a layout is found. -/
theorem mirrors_codeOf (e : Expr) (hctx : ev.context = env.context) (hmemo : ev.memo = store.memo)
    (hc : Covers env.context store.layouts ev.lowered) :
    Mirrors (codeOf env.budget e ev) (env.layoutOf e store)
      (fun code after found mid => code = found.code ∧ found.Formed env.context ∧
        Learnt env.context ev after store mid) := by
  unfold codeOf Env.layoutOf
  rw [bind_apply, get_apply, Option.bind_some, continuing_ok, bind_ok (get_ok store), hc.code]
  cases hf : store.layouts.find? e.id with
  | some found =>
    exact mirrors_pure ⟨rfl, hc.formed e.id found hf, hc, by rw [← hmemo], rfl⟩
  | none =>
    rw [Option.map_none]
    dsimp only
    have hlower : e.lower env.budget ev.context ev.memo =
        (e.layout env.budget env.context store.memo).map fun r => (r.1.code, r.2) := by
      rw [hctx, hmemo, lower_eq]
      show (e.layout env.budget env.context store.memo).bind _ = _
      cases e.layout env.budget env.context store.memo <;> rfl
    rw [hlower]
    cases hl : e.layout env.budget env.context store.memo with
    | none =>
      show (none : Option (Except Exception Code × Evaluator)) = none
      rfl
    | some r =>
      obtain ⟨found, memo⟩ := r
      have hformed : found.Formed env.context := formed_of_layout _ _ _ _ _ hl
      exact ⟨found.code, _, rfl, rfl, hformed, hc.insert e.id hformed, rfl, rfl⟩

/-- A layout that is not found is the only fault of the search for it. -/
theorem fault_of_layoutOf {e : Expr} {fault : Fault} (h : env.layoutOf e store = .error fault) :
    fault = .unlaid := by
  unfold Env.layoutOf at h
  rw [bind_ok (get_ok store)] at h
  cases hf : store.layouts.find? e.id with
  | some found =>
    rw [hf] at h
    exact nomatch h
  | none =>
    cases hl : e.layout env.budget env.context store.memo with
    | some r =>
      simp only [hf, hl] at h
      exact nomatch h
    | none =>
      simp only [hf, hl] at h
      exact (Except.error.inj h).symm

/-- The code of an optional layout. -/
def codeOf? (layout : Option Layout) : Code :=
  layout.elim [] Layout.code

/-- A structure has no code exactly when its block has no layout. -/
theorem block_cases (env : Env) (s : StructDef) :
    (blockCode env.budget s = pure [] ∧ env.layoutOfBlock s = pure none) ∨
      ∃ block, blockCode env.budget s = codeOf env.budget block ∧
        env.layoutOfBlock s = some <$> env.layoutOf block := by
  unfold blockCode Env.layoutOfBlock
  rcases s.block with _ | block
  · exact Or.inl ⟨rfl, rfl⟩
  · cases block with
    | block id statements =>
      cases statements with
      | nil => exact Or.inl ⟨rfl, rfl⟩
      | cons e rest => exact Or.inr ⟨.block id (e :: rest), rfl, rfl⟩
    | _ => exact Or.inr ⟨_, rfl, rfl⟩

theorem mirrors_blockCode (s : StructDef) (hctx : ev.context = env.context)
    (hmemo : ev.memo = store.memo) (hc : Covers env.context store.layouts ev.lowered) :
    Mirrors (blockCode env.budget s ev) (env.layoutOfBlock s store)
      (fun code after found mid => code = codeOf? found ∧
        (∀ layout, found = some layout → layout.Formed env.context) ∧
        Learnt env.context ev after store mid) := by
  rcases block_cases env s with ⟨hcode, hlayout⟩ | ⟨block, hcode, hlayout⟩ <;> rw [hcode, hlayout]
  · exact mirrors_pure ⟨rfl, nofun, hc, by rw [← hmemo], rfl⟩
  · rw [← bind_pure (codeOf env.budget block), ← bind_pure_comp]
    refine (mirrors_codeOf block hctx hmemo hc).bind fun code after found mid hr => ?_
    obtain ⟨hfound, hformed, hlearnt⟩ := hr
    refine mirrors_pure ⟨hfound, fun layout hl => ?_, hlearnt⟩
    obtain rfl := Option.some.inj hl
    exact hformed

theorem fault_of_layoutOfBlock {s : StructDef} {fault : Fault}
    (h : env.layoutOfBlock s store = .error fault) : fault = .unlaid := by
  rcases block_cases env s with ⟨-, hlayout⟩ | ⟨block, -, hlayout⟩ <;> rw [hlayout] at h
  · exact nomatch h
  · rw [← bind_pure_comp] at h
    cases hl : env.layoutOf block store with
    | ok r =>
      rw [bind_ok hl] at h
      exact nomatch h
    | error other =>
      rw [bind_error hl] at h
      obtain rfl : other = fault := Except.error.inj h
      exact fault_of_layoutOf hl

theorem mirrors_freshScope {p : Place} {cursor : Nat} {items : List Value}
    (h : p.Holds cursor store items ev) :
    Mirrors (freshScope ev) (fresh store)
      (fun id after id' mid => id = id' ∧ p.Holds cursor mid items after) :=
  ⟨_, _, freshScope_apply ev, congrArg ScopeId.captured h.nextScope, h.draw⟩

/-- The values of a call that has the right number of them are bound in the same way. -/
theorem mirrors_argumentBindings (c : Call) (inputs : List Binder) {values : List Value}
    (hn : values.length = valueCount (plan inputs c.inputs)) :
    Mirrors (argumentBindings c inputs values ev) (bindArguments c inputs values store)
      (fun bindings after found mid => bindings = found ∧ after = ev ∧ mid = store) := by
  unfold argumentBindings bindArguments
  rw [if_pos hn]
  cases bindInputs inputs values with
  | ok bindings => exact mirrors_pure ⟨rfl, rfl, rfl⟩
  | error x => exact ⟨ev, rfl⟩

end Calls

end Stepwise.Reference

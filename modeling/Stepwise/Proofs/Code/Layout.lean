import Stepwise.Code.Lower

/-!
# Layouts

A layout is an expression with everything written out that lowering has to find out: the slots of
each call in the order of its plan, defaults included, and the halts in place of what cannot be
evaluated.  Lowering an expression means to find its layout, and to write the code of the layout
down (`lower_eq`).

A layout is formed if every expression in it has as many parts as it takes operands when it is
executed, and every call has those that the plan against the type of its callee asks for.  All
layouts of expressions are formed (`formed_of_layout`).
-/

namespace Stepwise

/-- What is evaluated for an expression, and in which order. -/
inductive Layout where
  /-- An expression that takes no operands. -/
  | leaf (e : Expr)
  /-- An expression that takes the values of its parts. -/
  | node (e : Expr) (parts : List Layout)
  | branch (id : NodeId) (condition yes no : Layout)
  /-- The end of the evaluation. -/
  | halt (node : NodeId) (reason : HaltReason)

mutual

/-- The code of a layout. -/
def Layout.code : Layout → Code
  | .leaf e => [.finish e]
  | .node e parts => enclose e (codeAll parts)
  | .branch id condition yes no => conditionalCode id condition.code yes.code no.code
  | .halt node reason => [.halt node reason]
termination_by structural l => l

/-- The code of layouts, one after the other. -/
def codeAll : List Layout → Code
  | [] => []
  | part :: rest => part.code ++ codeAll rest
termination_by structural ls => ls

end

theorem codeAll_append (first others : List Layout) :
    codeAll (first ++ others) = codeAll first ++ codeAll others := by
  induction first with
  | nil => rfl
  | cons part rest ih => simp only [List.cons_append, codeAll, ih, List.append_assoc]

/-- Each branch follows the jump that may skip it. -/
theorem conditionalCode_eq (id : NodeId) (condition yes no : Code) :
    conditionalCode id condition yes no =
      condition ++ (.jumpIfFalse yes.length id :: (yes ++ .jump no.length id :: no)) := by
  simp [conditionalCode]

/-! ## Finding layouts -/

/-- The layouts of expressions. -/
def layoutAll (layout : Expr → Query Layout) : List Expr → Query (List Layout)
  | [] => pure []
  | e :: rest => do
    let first ← layout e
    let others ← layoutAll layout rest
    pure (first :: others)

/-- The layouts that a slot of a call asks for. -/
def layoutSlot (layout : Expr → Query Layout) (call : NodeId) : Slot → Query (List Layout)
  | .given value | .default value => return [← layout value]
  | .missing input => pure [.halt call (.missingInput input.primaryName)]
  | .rest values => layoutAll layout values

/-- The layouts of the slots of a call, in the order of the slots. -/
def layoutSlots (layout : Expr → Query Layout) (call : NodeId) : List Slot → Query (List Layout)
  | [] => pure []
  | slot :: slots => do
    let first ← layoutSlot layout call slot
    let others ← layoutSlots layout call slots
    pure (first ++ others)

/-- The layout of a call: its slots, then its callee. -/
def layoutCall (ask : Ask) (layout : Expr → Query Layout) (call : Call) : Query Layout := do
  match Callee.ofTy? (← ask call.callee) with
  | none => pure (.halt call.id (.notCallable call.callee.describe))
  | some callee =>
    if call.callee.isUnparsable || call.inputs.any Expr.isUnparsable then
      pure (.halt call.id .unparsable)
    else do
      let arguments ← layoutSlots layout call.id (plan callee.inputs call.inputs)
      let last ← layout call.callee
      pure (.node (.call call) (arguments ++ [last]))

/-- The layout of a declaration's value. -/
def layoutValue (layout : Expr → Query Layout) (b : Binder) : Query Layout :=
  match b.value with
  | some value => layout value
  | none => pure (.halt b.id (.missingValue b.primaryName))

/-- The layouts of the values of declarations. -/
def layoutValues (layout : Expr → Query Layout) : List Binder → Query (List Layout)
  | [] => pure []
  | b :: rest => do
    let first ← layoutValue layout b
    let others ← layoutValues layout rest
    pure (first :: others)

/-- The layout of an expression, in terms of the layouts of its parts. -/
def Expr.layoutWith (ask : Ask) (layout : Expr → Query Layout) (e : Expr) : Query Layout := do
  match e with
  | .list _ _ items _ => return .node e (← layoutAll layout items)
  | .conditional id condition _ yes no => do
    let yes ← layout yes
    let no ← layout no
    let condition ← layout condition
    pure (.branch id condition yes no)
  | .call c => layoutCall ask layout c
  | .delete _ table _ _ => return .node e [← layout table]
  | .insert _ table _ cells => do
    let first ← layout table
    let others ← layoutValues layout cells
    pure (.node e (first :: others))
  | .access _ subject _ _ => return .node e [← layout subject]
  | .binary _ left _ _ right => return .node e (← layoutAll layout [left, right])
  | .unary _ _ _ operand => return .node e [← layout operand]
  | .block _ statements => return .node e (← layoutAll layout statements)
  | .bind b => return .node e [← layoutValue layout b]
  | .unparsable id _ => pure (.halt id .unparsable)
  | _ => pure (.leaf e)

/-- The layout of an expression. -/
def Expr.layout : Nat → Expr → Query Layout
  | 0, _ => .outOfBudget
  | budget + 1, e => e.layoutWith (Expr.typeOf budget) (Expr.layout budget)

/-! ## The code of layouts -/

section Code

variable {lower : Expr → Query Code} {layout : Expr → Query Layout}

theorem lowerAll_eq (h : ∀ e, lower e = Layout.code <$> layout e) (es : List Expr) :
    lowerAll lower es = codeAll <$> layoutAll layout es := by
  induction es with
  | nil => rfl
  | cons e rest ih =>
    simp only [lowerAll, layoutAll, h, ih, map_bind, bind_map_left, map_pure, codeAll]

theorem lowerSlot_eq (h : ∀ e, lower e = Layout.code <$> layout e) (call : NodeId) (slot : Slot) :
    lowerSlot lower call slot = codeAll <$> layoutSlot layout call slot := by
  cases slot with
  | given value | default value =>
    simp only [lowerSlot, layoutSlot, h, bind_pure_comp, Functor.map_map, codeAll, List.append_nil]
  | missing input => rfl
  | rest values => exact lowerAll_eq h values

theorem lowerSlots_eq (h : ∀ e, lower e = Layout.code <$> layout e) (call : NodeId)
    (slots : List Slot) :
    lowerSlots lower call slots = codeAll <$> layoutSlots layout call slots := by
  induction slots with
  | nil => rfl
  | cons slot slots ih =>
    simp only [lowerSlots, layoutSlots, lowerSlot_eq h, ih, map_bind, bind_map_left, map_pure,
      codeAll_append]

theorem lowerCall_eq (ask : Ask) (h : ∀ e, lower e = Layout.code <$> layout e) (call : Call) :
    lowerCall ask lower call = Layout.code <$> layoutCall ask layout call := by
  unfold lowerCall layoutCall
  rw [map_bind]
  congr 1
  funext ty
  cases Callee.ofTy? ty with
  | none => rfl
  | some callee =>
    dsimp only
    split
    · rfl
    · simp only [lowerSlots_eq h, h, map_bind, bind_map_left, map_pure, Layout.code, codeAll_append,
        codeAll, List.append_nil]

theorem lowerValue_eq (h : ∀ e, lower e = Layout.code <$> layout e) (b : Binder) :
    lowerValue lower b = Layout.code <$> layoutValue layout b := by
  unfold lowerValue layoutValue
  cases b.value with
  | none => rfl
  | some value => exact h value

theorem lowerValues_eq (h : ∀ e, lower e = Layout.code <$> layout e) (bs : List Binder) :
    lowerValues lower bs = codeAll <$> layoutValues layout bs := by
  induction bs with
  | nil => rfl
  | cons b rest ih =>
    simp only [lowerValues, layoutValues, lowerValue_eq h, ih, map_bind, bind_map_left, map_pure,
      codeAll]

theorem lowerWith_eq (ask : Ask) (h : ∀ e, lower e = Layout.code <$> layout e) (e : Expr) :
    e.lowerWith ask lower = Layout.code <$> e.layoutWith ask layout := by
  cases e with
  | call c => exact lowerCall_eq ask h c
  | bind b =>
    simp only [Expr.lowerWith, Expr.layoutWith, lowerValue_eq h, map_bind, bind_map_left, map_pure,
      Layout.code, codeAll, List.append_nil]
  | _ =>
    simp only [Expr.lowerWith, Expr.layoutWith, lowerAll_eq h, lowerValues_eq h, h, map_bind,
      bind_map_left, map_pure, Layout.code, codeAll, List.append_nil]

end Code

/-- Lowering writes down the code of the layout. -/
theorem lower_eq (budget : Nat) (e : Expr) : e.lower budget = Layout.code <$> e.layout budget := by
  induction budget generalizing e with
  | zero => rfl
  | succ budget ih => exact lowerWith_eq (Expr.typeOf budget) ih e

/-! ## Formed layouts -/

/-- How many operands an expression that is not a call takes. -/
def Expr.demand : Expr → Nat
  | .list _ _ items _ => items.length
  | .delete .. | .access .. | .unary .. | .bind _ => 1
  | .binary .. => 2
  | .block _ statements => statements.length
  | _ => 0

/-- Whether an expression is evaluated without parts. -/
def Expr.isLeaf : Expr → Bool
  | .boolean .. | .number .. | .text .. | .reference .. | .function _ | .struct _ => true
  | _ => false

/-- A type that a query finds for an expression. -/
def Expr.Finds (ctx : Context) (e : Expr) (ty : Ty) : Prop :=
  ∃ budget memo after, e.typeOf budget ctx memo = some (ty, after)

/-- How many parts an expression has.  A call has those that the plan against its callee's type asks
for, and its callee. -/
def Expr.Parts (ctx : Context) (e : Expr) (count : Nat) : Prop :=
  match e with
  | .call c =>
    ∃ ty callee, c.callee.Finds ctx ty ∧ Callee.ofTy? ty = some callee ∧
      count = valueCount (plan callee.inputs c.inputs) + 1
  | .insert .. => True
  | .conditional .. | .unparsable .. => False
  | e => e.isLeaf = false ∧ count = e.demand

theorem Parts.isLeaf {ctx : Context} {e : Expr} {count : Nat} (h : e.Parts ctx count) :
    e.isLeaf = false := by
  cases e <;> first | rfl | exact h.1

/-- Every expression has the parts that it needs. -/
inductive Layout.Formed (ctx : Context) : Layout → Prop
  | leaf {e : Expr} (h : e.isLeaf = true) : Formed ctx (.leaf e)
  | node {e : Expr} {parts : List Layout} (h : e.Parts ctx parts.length)
      (hp : ∀ part ∈ parts, Formed ctx part) : Formed ctx (.node e parts)
  | branch {id : NodeId} {condition yes no : Layout} (hc : Formed ctx condition)
      (hy : Formed ctx yes) (hn : Formed ctx no) : Formed ctx (.branch id condition yes no)
  | halt {node : NodeId} {reason : HaltReason} : Formed ctx (.halt node reason)

namespace Query

variable {α β : Type} {ctx : Context} {memo after : Memo}

/-- A sequence of queries has an answer when all of them have. -/
theorem bind_eq_some {m : Query α} {f : α → Query β} {b : β} :
    (m >>= f) ctx memo = some (b, after) ↔
      ∃ a mid, m ctx memo = some (a, mid) ∧ f a ctx mid = some (b, after) := by
  show ((m ctx memo).bind fun r => f r.1 ctx r.2) = _ ↔ _
  rw [Option.bind_eq_some_iff]
  exact ⟨fun ⟨(a, mid), hm, hf⟩ => ⟨a, mid, hm, hf⟩, fun ⟨a, mid, hm, hf⟩ => ⟨(a, mid), hm, hf⟩⟩

theorem pure_eq_some {a b : α} :
    (pure a : Query α) ctx memo = some (b, after) ↔ a = b ∧ memo = after := by
  show some (a, memo) = some (b, after) ↔ _
  rw [Option.some.injEq, Prod.mk.injEq]

theorem map_eq_some {m : Query α} {f : α → β} {b : β} :
    (f <$> m) ctx memo = some (b, after) ↔ ∃ a, m ctx memo = some (a, after) ∧ f a = b := by
  rw [← bind_pure_comp, bind_eq_some]
  constructor
  · rintro ⟨a, mid, hm, hf⟩
    obtain ⟨hb, rfl⟩ := pure_eq_some.1 hf
    exact ⟨a, hm, hb⟩
  · rintro ⟨a, hm, hb⟩
    exact ⟨a, after, hm, pure_eq_some.2 ⟨hb, rfl⟩⟩

end Query

section Formed

variable {layout : Expr → Query Layout} {ctx : Context} {memo after : Memo}

/-- A layout function all of whose answers are formed. -/
def Forms (ctx : Context) (layout : Expr → Query Layout) : Prop :=
  ∀ e memo after part, layout e ctx memo = some (part, after) → part.Formed ctx

theorem formed_layoutAll (hf : Forms ctx layout) {es : List Expr} {parts : List Layout}
    (h : layoutAll layout es ctx memo = some (parts, after)) :
    parts.length = es.length ∧ ∀ part ∈ parts, part.Formed ctx := by
  induction es generalizing memo after parts with
  | nil =>
    obtain ⟨rfl, -⟩ := Query.pure_eq_some.1 h
    exact ⟨rfl, by simp⟩
  | cons e rest ih =>
    obtain ⟨first, mid, hfirst, h⟩ := Query.bind_eq_some.1 h
    obtain ⟨others, last, hothers, h⟩ := Query.bind_eq_some.1 h
    obtain ⟨rfl, -⟩ := Query.pure_eq_some.1 h
    obtain ⟨hlen, hall⟩ := ih hothers
    exact ⟨by simp [hlen], List.forall_mem_cons.2 ⟨hf e memo mid first hfirst, hall⟩⟩

theorem formed_layoutSlot (hf : Forms ctx layout) {call : NodeId} {slot : Slot}
    {parts : List Layout} (h : layoutSlot layout call slot ctx memo = some (parts, after)) :
    parts.length = slot.count ∧ ∀ part ∈ parts, part.Formed ctx := by
  cases slot with
  | given value | default value =>
    obtain ⟨part, mid, hpart, h⟩ := Query.bind_eq_some.1 h
    obtain ⟨rfl, -⟩ := Query.pure_eq_some.1 h
    exact ⟨rfl, by simpa using hf value memo mid part hpart⟩
  | missing input =>
    obtain ⟨rfl, -⟩ := Query.pure_eq_some.1 h
    exact ⟨rfl, by simpa using Layout.Formed.halt⟩
  | rest values => exact formed_layoutAll hf h

theorem formed_layoutSlots (hf : Forms ctx layout) {call : NodeId} {slots : List Slot}
    {parts : List Layout} (h : layoutSlots layout call slots ctx memo = some (parts, after)) :
    parts.length = valueCount slots ∧ ∀ part ∈ parts, part.Formed ctx := by
  induction slots generalizing memo after parts with
  | nil =>
    obtain ⟨rfl, -⟩ := Query.pure_eq_some.1 h
    exact ⟨rfl, by simp⟩
  | cons slot slots ih =>
    obtain ⟨first, mid, hfirst, h⟩ := Query.bind_eq_some.1 h
    obtain ⟨others, last, hothers, h⟩ := Query.bind_eq_some.1 h
    obtain ⟨rfl, -⟩ := Query.pure_eq_some.1 h
    obtain ⟨hlen, hall⟩ := formed_layoutSlot hf hfirst
    obtain ⟨hlen', hall'⟩ := ih hothers
    refine ⟨by rw [List.length_append, hlen, hlen', valueCount], fun part hmem => ?_⟩
    exact (List.mem_append.1 hmem).elim (hall part) (hall' part)

theorem formed_layoutCall (hf : Forms ctx layout) {budget : Nat} {call : Call} {found : Layout}
    (h : layoutCall (Expr.typeOf budget) layout call ctx memo = some (found, after)) :
    found.Formed ctx := by
  unfold layoutCall at h
  obtain ⟨ty, mid, hty, h⟩ := Query.bind_eq_some.1 h
  cases hc : Callee.ofTy? ty with
  | none =>
    rw [hc] at h
    obtain ⟨rfl, -⟩ := Query.pure_eq_some.1 h
    exact .halt
  | some callee =>
    rw [hc] at h
    dsimp only at h
    split at h
    · obtain ⟨rfl, -⟩ := Query.pure_eq_some.1 h
      exact .halt
    · obtain ⟨parts, mid', hparts, h⟩ := Query.bind_eq_some.1 h
      obtain ⟨last, mid'', hlast, h⟩ := Query.bind_eq_some.1 h
      obtain ⟨rfl, -⟩ := Query.pure_eq_some.1 h
      obtain ⟨hlen, hall⟩ := formed_layoutSlots hf hparts
      refine .node ⟨ty, callee, ⟨budget, memo, mid, hty⟩, hc, ?_⟩ fun part hmem => ?_
      · rw [List.length_append, hlen, List.length_singleton]
      · rcases List.mem_append.1 hmem with hmem | hmem
        · exact hall part hmem
        · obtain rfl := List.mem_singleton.1 hmem
          exact hf _ _ _ _ hlast

theorem formed_layoutValue (hf : Forms ctx layout) {b : Binder} {part : Layout}
    (h : layoutValue layout b ctx memo = some (part, after)) : part.Formed ctx := by
  unfold layoutValue at h
  cases hv : b.value with
  | some value =>
    rw [hv] at h
    exact hf value memo after part h
  | none =>
    rw [hv] at h
    obtain ⟨rfl, -⟩ := Query.pure_eq_some.1 h
    exact .halt

theorem formed_layoutValues (hf : Forms ctx layout) {bs : List Binder} {parts : List Layout}
    (h : layoutValues layout bs ctx memo = some (parts, after)) :
    ∀ part ∈ parts, part.Formed ctx := by
  induction bs generalizing memo after parts with
  | nil =>
    obtain ⟨rfl, -⟩ := Query.pure_eq_some.1 h
    simp
  | cons b rest ih =>
    obtain ⟨first, mid, hfirst, h⟩ := Query.bind_eq_some.1 h
    obtain ⟨others, last, hothers, h⟩ := Query.bind_eq_some.1 h
    obtain ⟨rfl, -⟩ := Query.pure_eq_some.1 h
    exact List.forall_mem_cons.2 ⟨formed_layoutValue hf hfirst, ih hothers⟩

theorem formed_layoutWith (hf : Forms ctx layout) {budget : Nat} {e : Expr} {found : Layout}
    (h : e.layoutWith (Expr.typeOf budget) layout ctx memo = some (found, after)) :
    found.Formed ctx := by
  have one {inner : Expr} {part : Layout} {mid mid' : Memo}
      (h : layout inner ctx mid = some (part, mid')) : ∀ member ∈ [part], member.Formed ctx := by
    simpa using hf inner mid mid' part h
  cases e with
  | call c => exact formed_layoutCall hf h
  | conditional id condition question yes no =>
    obtain ⟨yesPart, mid, hyes, h⟩ := Query.bind_eq_some.1 h
    obtain ⟨noPart, mid', hno, h⟩ := Query.bind_eq_some.1 h
    obtain ⟨conditionPart, mid'', hcondition, h⟩ := Query.bind_eq_some.1 h
    obtain ⟨rfl, -⟩ := Query.pure_eq_some.1 h
    exact .branch (hf _ _ _ _ hcondition) (hf _ _ _ _ hyes) (hf _ _ _ _ hno)
  | list id opening items closing =>
    obtain ⟨parts, mid, hparts, h⟩ := Query.bind_eq_some.1 h
    obtain ⟨rfl, -⟩ := Query.pure_eq_some.1 h
    obtain ⟨hlen, hall⟩ := formed_layoutAll hf hparts
    exact .node ⟨rfl, hlen⟩ hall
  | block id statements =>
    obtain ⟨parts, mid, hparts, h⟩ := Query.bind_eq_some.1 h
    obtain ⟨rfl, -⟩ := Query.pure_eq_some.1 h
    obtain ⟨hlen, hall⟩ := formed_layoutAll hf hparts
    exact .node ⟨rfl, hlen⟩ hall
  | binary id left mark op right =>
    obtain ⟨parts, mid, hparts, h⟩ := Query.bind_eq_some.1 h
    obtain ⟨rfl, -⟩ := Query.pure_eq_some.1 h
    obtain ⟨hlen, hall⟩ := formed_layoutAll hf hparts
    exact .node ⟨rfl, hlen⟩ hall
  | insert id table mark cells =>
    obtain ⟨first, mid, hfirst, h⟩ := Query.bind_eq_some.1 h
    obtain ⟨others, mid', hothers, h⟩ := Query.bind_eq_some.1 h
    obtain ⟨rfl, -⟩ := Query.pure_eq_some.1 h
    have hall := formed_layoutValues hf hothers
    exact .node trivial (List.forall_mem_cons.2 ⟨hf _ _ _ _ hfirst, hall⟩)
  | bind b =>
    obtain ⟨part, mid, hpart, h⟩ := Query.bind_eq_some.1 h
    obtain ⟨rfl, -⟩ := Query.pure_eq_some.1 h
    exact .node ⟨rfl, rfl⟩ (by simpa using formed_layoutValue hf hpart)
  | delete id table mark query =>
    obtain ⟨part, mid, hpart, h⟩ := Query.bind_eq_some.1 h
    obtain ⟨rfl, -⟩ := Query.pure_eq_some.1 h
    exact .node ⟨rfl, rfl⟩ (one hpart)
  | access id subject dot name =>
    obtain ⟨part, mid, hpart, h⟩ := Query.bind_eq_some.1 h
    obtain ⟨rfl, -⟩ := Query.pure_eq_some.1 h
    exact .node ⟨rfl, rfl⟩ (one hpart)
  | unary id mark op operand =>
    obtain ⟨part, mid, hpart, h⟩ := Query.bind_eq_some.1 h
    obtain ⟨rfl, -⟩ := Query.pure_eq_some.1 h
    exact .node ⟨rfl, rfl⟩ (one hpart)
  | unparsable id tokens =>
    obtain ⟨rfl, -⟩ := Query.pure_eq_some.1 h
    exact .halt
  | _ =>
    obtain ⟨rfl, -⟩ := Query.pure_eq_some.1 h
    exact .leaf rfl

end Formed

/-- Whatever layout is found for an expression is formed. -/
theorem formed_of_layout {ctx : Context} (budget : Nat) : Forms ctx (Expr.layout budget) := by
  induction budget with
  | zero => exact fun _ _ _ _ h => nomatch h
  | succ budget ih => exact fun _ _ _ _ h => formed_layoutWith ih h

/-- Code comes from a formed layout. -/
theorem exists_layout_of_lower {budget : Nat} {e : Expr} {ctx : Context} {memo after : Memo}
    {code : Code} (h : e.lower budget ctx memo = some (code, after)) :
    ∃ found : Layout, e.layout budget ctx memo = some (found, after) ∧ found.code = code ∧
      found.Formed ctx := by
  rw [lower_eq, Query.map_eq_some] at h
  obtain ⟨found, hfound, hcode⟩ := h
  exact ⟨found, hfound, hcode, formed_of_layout budget _ _ _ _ hfound⟩

end Stepwise

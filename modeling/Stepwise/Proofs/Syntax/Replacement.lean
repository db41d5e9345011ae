import Mathlib.Data.List.Nodup
import Stepwise.Proofs.Syntax.Preorder
import Stepwise.Syntax.Replace

/-!
# Replacing changes one place

An edit offers a node for the place of another (`Edit.offer?`), if that is the target and the node
offered is of the right kind.  Replacing takes what is offered, and otherwise keeps what a node
holds of its own and goes on with its children, or leaves the node as it is (`Node.replaced`).

The outline of a tree lists its nodes with what each of them holds of its own.  If the edit offers
nothing for any node, the outline stays as it is (`outline_replace_of_spared`).  If no two nodes of
the tree have the same identity, it offers something for one node at most, and what changes is the
block of this node in the outline (`replacement_changes_one_place`).
-/

namespace Stepwise

/-! ## Outlines -/

/-- What a node holds of its own: its form, its identity, and whatever is not a node beneath it. -/
inductive Own where
  | boolean (id : NodeId) (value : Bool)
  | number (id : NodeId) (amount : Float) (unit : MeasureUnit)
  | text (id : NodeId)
  | list (id : NodeId)
  | conditional (id : NodeId)
  | call (id : NodeId)
  | delete (id : NodeId)
  | insert (id : NodeId)
  | reference (id : NodeId)
  | access (id : NodeId)
  | binary (id : NodeId) (op : BinaryOperator)
  | unary (id : NodeId) (op : UnaryOperator)
  | function (id : NodeId)
  | struct (id : NodeId)
  | block (id : NodeId)
  | statement (id : NodeId) (rest : Bool)
  | unparsable (id : NodeId)
  | binder (id : NodeId) (rest : Bool)
  | name (id : NodeId)
  | token (token : Token)
  | language (language : Language)
  | typeVariable (id : NodeId)
  | typeInput (id : NodeId)
  | functionType
  | listType
  | tableType
  | numberType (unit : NumberUnit)
  | textType (code : Option String)
  | booleanType
  | structType (definition : StructDef)
  | structDefType (definition : StructDef)
  | variableType (name : String)
  | nameType (name : String)
  | unionType
  | anyType
  | unknownType (reason : UnknownReason) (node : Option NodeId)

/-- A line of an outline: what a node holds of its own, and how many children it has. -/
structure Entry where
  own : Own
  children : Nat

namespace Node

/-- What an expression holds of its own. -/
def ownOfExpr : Expr → Own
  | .boolean id _ value => .boolean id value
  | .number id _ amount unit => .number id amount unit
  | .text id .. => .text id
  | .list id .. => .list id
  | .conditional id .. => .conditional id
  | .call c => .call c.id
  | .delete id .. => .delete id
  | .insert id .. => .insert id
  | .reference id _ => .reference id
  | .access id .. => .access id
  | .binary id _ _ op _ => .binary id op
  | .unary id _ op _ => .unary id op
  | .function f => .function f.id
  | .struct s => .struct s.id
  | .block id _ => .block id
  | .bind b => .statement b.id b.rest
  | .unparsable id _ => .unparsable id

/-- What a type holds of its own. -/
def ownOfTy : Ty → Own
  | .function .. => .functionType
  | .list _ => .listType
  | .table _ => .tableType
  | .number unit => .numberType unit
  | .text code => .textType code
  | .boolean => .booleanType
  | .struct definition _ => .structType definition
  | .structDef definition _ => .structDefType definition
  | .var text => .variableType text
  | .name text => .nameType text
  | .union _ => .unionType
  | .any => .anyType
  | .unknown reason node => .unknownType reason node

/-- What a node holds of its own. -/
def own : Node → Own
  | .expr e => ownOfExpr e
  | .binder b => .binder b.id b.rest
  | .name n => .name n.id
  | .token t => .token t
  | .language l => .language l
  | .typeVariable v => .typeVariable v.id
  | .typeInput i => .typeInput i.id
  | .ty t => ownOfTy t

/-- The line of a node. -/
def entry (n : Node) : Entry :=
  ⟨n.own, n.children.length⟩

/-- The lines of a tree, in preorder. -/
def outline (root : Node) : List Entry :=
  root.descendants.map entry

theorem outline_eq (n : Node) : n.outline = n.entry :: n.children.flatMap outline := by
  rw [outline, descendants_eq, List.map_cons, List.map_flatMap]
  rfl

/-- Applies an edit to a tree. -/
def replace (edit : Edit) : Node → Node
  | .expr e => .expr (e.replace edit)
  | .binder b => .binder (b.replace edit)
  | .name n => .name (n.replace edit)
  | .token t => .token (t.replace edit)
  | .language l => .language (l.replace edit)
  | .typeVariable v => .typeVariable (v.replace edit)
  | .typeInput i => .typeInput (i.replace edit)
  | .ty t => .ty (t.replace edit)

end Node

/-! ## What is offered -/

/-- The node that takes the place of another, if it is of the right kind.  A declaration can take
the place of a statement. -/
def Replacement.fit? : Replacement → Node → Option Node
  | .expr e, .expr _ => some (.expr e)
  | .binder b, .binder _ => some (.binder b)
  | .binder b, .expr (.bind _) => some (.expr (.bind b))
  | .name n, .name _ => some (.name n)
  | .token t, .token _ => some (.token t)
  | .language l, .language _ => some (.language l)
  | .typeVariable v, .typeVariable _ => some (.typeVariable v)
  | .typeInput i, .typeInput _ => some (.typeInput i)
  | _, _ => none

namespace Edit

/-- The node that an edit offers for the place of another. -/
def offer? (edit : Edit) (n : Node) : Option Node :=
  if n.id? = some edit.target then edit.replacement.fit? n else none

theorem offer?_of_fit {edit : Edit} {α : Type} {wrap : α → Node} {n : Node} {id : NodeId} {a : α}
    (hid : n.id? = some id) (h : edit.replacement.fit? n = some (wrap a)) :
    edit.offer? n = (if id = edit.target then some a else none).map wrap := by
  rw [offer?, hid, h]
  by_cases ht : id = edit.target <;> simp [ht]

theorem offer?_of_misfit {edit : Edit} {n : Node} (h : edit.replacement.fit? n = none) :
    edit.offer? n = none := by
  rw [offer?, h, ite_self]

variable (edit : Edit)

theorem offer?_name (n : Name) : edit.offer? (.name n) = (edit.name? n.id).map .name := by
  obtain ⟨target, replacement⟩ := edit
  cases replacement with
  | name _ => exact offer?_of_fit rfl rfl
  | _ => exact offer?_of_misfit rfl

theorem offer?_token (t : Token) : edit.offer? (.token t) = (edit.token? t.id).map .token := by
  obtain ⟨target, replacement⟩ := edit
  cases replacement with
  | token _ => exact offer?_of_fit rfl rfl
  | _ => exact offer?_of_misfit rfl

theorem offer?_language (l : Language) :
    edit.offer? (.language l) = (edit.language? l.id).map .language := by
  obtain ⟨target, replacement⟩ := edit
  cases replacement with
  | language _ => exact offer?_of_fit rfl rfl
  | _ => exact offer?_of_misfit rfl

theorem offer?_typeVariable (v : TypeVariable) :
    edit.offer? (.typeVariable v) = (edit.typeVariable? v.id).map .typeVariable := by
  obtain ⟨target, replacement⟩ := edit
  cases replacement with
  | typeVariable _ => exact offer?_of_fit rfl rfl
  | _ => exact offer?_of_misfit rfl

theorem offer?_typeInput (i : TypeInput) :
    edit.offer? (.typeInput i) = (edit.typeInput? i.id).map .typeInput := by
  obtain ⟨target, replacement⟩ := edit
  cases replacement with
  | typeInput _ => exact offer?_of_fit rfl rfl
  | _ => exact offer?_of_misfit rfl

theorem offer?_binder (b : Binder) : edit.offer? (.binder b) = (edit.binder? b.id).map .binder := by
  obtain ⟨target, replacement⟩ := edit
  cases replacement with
  | binder _ => exact offer?_of_fit rfl rfl
  | _ => exact offer?_of_misfit rfl

theorem offer?_bind (b : Binder) :
    edit.offer? (.expr (.bind b)) =
      ((edit.expr? b.id).map .expr).or ((edit.binder? b.id).map fun b => .expr (.bind b)) := by
  obtain ⟨target, replacement⟩ := edit
  cases replacement with
  | expr _ => exact (offer?_of_fit rfl rfl).trans (Option.or_none ..).symm
  | binder _ => exact (offer?_of_fit rfl rfl).trans (Option.none_or ..).symm
  | _ => exact offer?_of_misfit rfl

theorem offer?_expr {e : Expr} (he : ∀ b, e ≠ .bind b) :
    edit.offer? (.expr e) = (edit.expr? e.id).map .expr := by
  obtain ⟨target, replacement⟩ := edit
  cases replacement with
  | expr _ => exact offer?_of_fit rfl rfl
  | binder _ =>
    cases e with
    | bind b => exact absurd rfl (he b)
    | _ => exact offer?_of_misfit rfl
  | _ => exact offer?_of_misfit rfl

end Edit

/-! ## What is rebuilt -/

section Lists

variable (edit : Edit)

theorem replaceInExprs_eq (es : List Expr) : replaceInExprs edit es = es.map (·.replace edit) := by
  induction es with
  | nil => rfl
  | cons e rest ih => rw [replaceInExprs, ih, List.map_cons]

theorem replaceInBinders_eq (bs : List Binder) :
    replaceInBinders edit bs = bs.map (·.replace edit) := by
  induction bs with
  | nil => rfl
  | cons b rest ih => rw [replaceInBinders, ih, List.map_cons]

theorem replaceInTypeInputs_eq (is : List TypeInput) :
    replaceInTypeInputs edit is = is.map (·.replace edit) := by
  induction is with
  | nil => rfl
  | cons i rest ih => rw [replaceInTypeInputs, ih, List.map_cons]

theorem replaceInTys_eq (ts : List Ty) : replaceInTys edit ts = ts.map (·.replace edit) := by
  induction ts with
  | nil => rfl
  | cons t rest ih => rw [replaceInTys, ih, List.map_cons]

theorem replaceInExpr?_eq (e : Option Expr) : replaceInExpr? edit e = e.map (·.replace edit) := by
  cases e <;> rfl

theorem replaceInTy?_eq (t : Option Ty) : replaceInTy? edit t = t.map (·.replace edit) := by
  cases t <;> rfl

end Lists

/-- A node that has been rebuilt: it holds of its own what it held, and its children have been
replaced. -/
structure Rebuilds (edit : Edit) (n after : Node) : Prop where
  own : after.own = n.own
  children : after.children = n.children.map (Node.replace edit)

/-- The type of an instance or of a structure definition, with its arguments. -/
def Node.isStructType : Node → Bool
  | .ty (.struct ..) => true
  | .ty (.structDef ..) => true
  | _ => false

/-- What replacing makes of a node: it takes what is offered, leaves a structure type as it is, and
rebuilds any other node. -/
inductive Replaced (edit : Edit) (n : Node) : Prop
  | offered {m : Node} (ho : edit.offer? n = some m) (hr : n.replace edit = m)
  | kept (hs : n.isStructType = true) (hr : n.replace edit = n)
  | rebuilt (ho : edit.offer? n = none) (hr : Rebuilds edit n (n.replace edit))

namespace Node

section

variable {edit : Edit} {n : Node}

theorem entry_of_rebuilds {after : Node} (h : Rebuilds edit n after) : after.entry = n.entry := by
  rw [Node.entry, Node.entry, h.own, h.children, List.length_map]

theorem replaced_of_getD {α : Type} {wrap : α → Node} {offered : Option α} {built : α}
    (hoffer : edit.offer? n = offered.map wrap) (hr : n.replace edit = wrap (offered.getD built))
    (hbuilt : Rebuilds edit n (wrap built)) : Replaced edit n := by
  cases offered with
  | some a => exact .offered hoffer hr
  | none => exact .rebuilt hoffer (hr ▸ hbuilt)

theorem replaced_token (t : Token) : Replaced edit (.token t) :=
  replaced_of_getD (edit.offer?_token t) rfl ⟨rfl, rfl⟩

theorem replaced_language (l : Language) : Replaced edit (.language l) :=
  replaced_of_getD (edit.offer?_language l) rfl ⟨rfl, rfl⟩

theorem replaced_name (n : Name) : Replaced edit (.name n) := by
  refine replaced_of_getD (edit.offer?_name n) rfl ⟨rfl, ?_⟩
  simp [children, childrenOfName, replace, Option.toList_map, Function.comp_def]

theorem replaced_typeVariable (v : TypeVariable) : Replaced edit (.typeVariable v) :=
  replaced_of_getD (edit.offer?_typeVariable v) rfl ⟨rfl, rfl⟩

theorem replaced_typeInput (i : TypeInput) : Replaced edit (.typeInput i) := by
  obtain ⟨id, ty⟩ := i
  exact replaced_of_getD (edit.offer?_typeInput ⟨id, ty⟩) rfl ⟨rfl, rfl⟩

/-- A declaration whose parts have been replaced. -/
def rebuildBinder (edit : Edit) (b : Binder) : Binder :=
  ⟨b.id, b.names.map (·.replace edit), b.ty.map (·.replace edit), b.value.map (·.replace edit),
    b.rest⟩

theorem replace_binder_eq (b : Binder) :
    b.replace edit = (edit.binder? b.id).getD (rebuildBinder edit b) := by
  obtain ⟨id, names, ty, value, rest⟩ := b
  rw [Binder.replace, replaceInTy?_eq, replaceInExpr?_eq]
  rfl

theorem childrenOfBinder_rebuildBinder (b : Binder) :
    childrenOfBinder (rebuildBinder edit b) = (childrenOfBinder b).map (replace edit) := by
  simp [childrenOfBinder, rebuildBinder, replace, Option.toList_map, Function.comp_def]

theorem replaced_binder (b : Binder) : Replaced edit (.binder b) :=
  replaced_of_getD (edit.offer?_binder b) (congrArg _ (replace_binder_eq b))
    ⟨rfl, childrenOfBinder_rebuildBinder b⟩

/-- A statement takes an expression that is offered, and otherwise a declaration. -/
theorem replaced_bind (b : Binder) : Replaced edit (.expr (.bind b)) := by
  have hoffer := edit.offer?_bind b
  have hreplace : (Node.expr (.bind b)).replace edit =
      .expr ((edit.expr? b.id).getD (.bind (b.replace edit))) := rfl
  rw [replace_binder_eq] at hreplace
  cases he : edit.expr? b.id with
  | some e =>
    rw [he] at hoffer hreplace
    exact .offered hoffer hreplace
  | none =>
    rw [he] at hoffer hreplace
    have hbind : (Node.expr (.bind b)).replace edit =
        (fun b => .expr (.bind b)) ((edit.binder? b.id).getD (rebuildBinder edit b)) := hreplace
    exact replaced_of_getD hoffer hbind ⟨rfl, childrenOfBinder_rebuildBinder b⟩

theorem replaced_expr (e : Expr) : Replaced edit (.expr e) := by
  cases e with
  | bind b => exact replaced_bind b
  | call c =>
    obtain ⟨id, types, callee, opening, inputs, closing⟩ := c
    refine replaced_of_getD (edit.offer?_expr (by simp)) rfl ⟨rfl, ?_⟩
    simp [children, childrenOfExpr, replace, Call.replace, replaceInExprs_eq,
      replaceInTypeInputs_eq, Function.comp_def]
  | function f =>
    obtain ⟨id, names, vars, inputs, output, body⟩ := f
    refine replaced_of_getD (edit.offer?_expr (by simp)) rfl ⟨rfl, ?_⟩
    simp [children, childrenOfExpr, childrenOfHead, replace, FunctionDef.replace,
      replaceInBinders_eq, replaceInTy?_eq, replaceInExpr?_eq, Option.toList_map, Function.comp_def]
  | struct s =>
    obtain ⟨id, names, vars, inputs, block⟩ := s
    refine replaced_of_getD (edit.offer?_expr (by simp)) rfl ⟨rfl, ?_⟩
    simp [children, childrenOfExpr, childrenOfHead, replace, StructDef.replace,
      replaceInBinders_eq, replaceInExpr?_eq, Option.toList_map, Function.comp_def]
  | _ =>
    refine replaced_of_getD (edit.offer?_expr (by simp)) rfl ⟨rfl, ?_⟩
    simp [children, childrenOfExpr, replace, replaceInExprs_eq, replaceInBinders_eq,
      Option.toList_map, Function.comp_def]

theorem replaced_ty (t : Ty) : Replaced edit (.ty t) := by
  have hoffer : edit.offer? (.ty t) = none := rfl
  cases t with
  | function vars inputs output =>
    refine .rebuilt hoffer ⟨rfl, ?_⟩
    simp [children, childrenOfTy, replace, Ty.replace, replaceInBinders_eq, Function.comp_def]
  | list item => exact .rebuilt hoffer ⟨rfl, rfl⟩
  | table columns =>
    refine .rebuilt hoffer ⟨rfl, ?_⟩
    simp [children, childrenOfTy, replace, Ty.replace, replaceInBinders_eq, Function.comp_def]
  | union members =>
    refine .rebuilt hoffer ⟨rfl, ?_⟩
    simp [children, childrenOfTy, replace, Ty.replace, replaceInTys_eq, Function.comp_def]
  | struct => exact .kept rfl rfl
  | structDef => exact .kept rfl rfl
  | _ => exact .rebuilt hoffer ⟨rfl, rfl⟩

/-- What replacing makes of a node, whichever it is. -/
theorem replaced (edit : Edit) (n : Node) : Replaced edit n := by
  cases n with
  | expr e => exact replaced_expr e
  | binder b => exact replaced_binder b
  | name n => exact replaced_name n
  | token t => exact replaced_token t
  | language l => exact replaced_language l
  | typeVariable v => exact replaced_typeVariable v
  | typeInput i => exact replaced_typeInput i
  | ty t => exact replaced_ty t

/-! ## What becomes of the outline -/

/-- The edit offers nothing for any node of the tree. -/
def Spared (edit : Edit) (n : Node) : Prop :=
  ∀ m ∈ n.descendants, edit.offer? m = none

theorem Spared.child {c : Node} (h : Spared edit n) (hc : c ∈ n.children) : Spared edit c :=
  fun m hm => h m (mem_descendants_of_mem_children hc hm)

/-- A node that is rebuilt keeps its outline if its children keep theirs. -/
theorem outline_replace_of_children (hr : Rebuilds edit n (n.replace edit))
    (h : ∀ c ∈ n.children, (c.replace edit).outline = c.outline) :
    (n.replace edit).outline = n.outline := by
  rw [outline_eq, outline_eq n, entry_of_rebuilds hr, hr.children, List.flatMap_map,
    List.flatMap_congr h]

/-- Where nothing is offered, the outline stays as it is. -/
theorem outline_replace_of_spared (h : Spared edit n) : (n.replace edit).outline = n.outline := by
  induction n using Node.induction with
  | h n ih =>
    cases replaced edit n with
    | offered ho hr =>
      rw [h n (self_mem_descendants n)] at ho
      cases ho
    | kept hs hr => rw [hr]
    | rebuilt ho hr => exact outline_replace_of_children hr fun c hc => ih c hc (h.child hc)

/-- The edit has put what it offers for one node in its place: the lines of this node and of all
nodes beneath it have given way to the lines of what is offered. -/
def Exchanged (edit : Edit) (n : Node) : Prop :=
  ∃ target ∈ n.descendants, ∃ offered before after, edit.offer? target = some offered ∧
    n.outline = before ++ target.outline ++ after ∧
      (n.replace edit).outline = before ++ offered.outline ++ after

theorem exchanged_of_offered {m : Node} (ho : edit.offer? n = some m) (hr : n.replace edit = m) :
    Exchanged edit n :=
  ⟨n, self_mem_descendants n, m, [], [], ho, by simp, by simp [hr]⟩

/-- An exchange in one child is one in the node, if its other children are spared. -/
theorem exchanged_of_child {c : Node} {before after : List Node}
    (hr : Rebuilds edit n (n.replace edit)) (hchildren : n.children = before ++ c :: after)
    (hbefore : ∀ d ∈ before, Spared edit d) (hafter : ∀ d ∈ after, Spared edit d)
    (hc : Exchanged edit c) : Exchanged edit n := by
  obtain ⟨target, hmem, offered, first, last, ho, hold, hnew⟩ := hc
  have hchild : c ∈ n.children := by simp [hchildren]
  refine ⟨target, mem_descendants_of_mem_children hchild hmem, offered,
    n.entry :: before.flatMap outline ++ first, last ++ after.flatMap outline, ho, ?_, ?_⟩
  · rw [outline_eq, hchildren, List.flatMap_append, List.flatMap_cons, hold]
    simp
  · rw [outline_eq, entry_of_rebuilds hr, hr.children, hchildren, List.flatMap_map,
      List.flatMap_append, List.flatMap_cons, hnew,
      List.flatMap_congr fun d hd => outline_replace_of_spared (hbefore d hd),
      List.flatMap_congr fun d hd => outline_replace_of_spared (hafter d hd)]
    simp

/-! ## Distinct identities -/

/-- The identities in a tree, in preorder. -/
def identities (n : Node) : List NodeId :=
  n.descendants.filterMap id?

/-- No two nodes of the tree have the same identity. -/
def Distinct (n : Node) : Prop :=
  n.identities.Nodup

theorem identities_eq (n : Node) :
    n.identities = n.id?.toList ++ n.children.flatMap identities := by
  rw [identities, descendants_eq, List.filterMap_cons, List.filterMap_flatMap]
  cases n.id? <;> rfl

theorem distinct_children (h : n.Distinct) :
    (∀ c ∈ n.children, c.Distinct) ∧
      n.children.Pairwise fun c d => List.Disjoint c.identities d.identities := by
  rw [Distinct, identities_eq] at h
  exact List.nodup_flatMap.1 h.of_append_right

theorem id?_of_offer? {m : Node} (h : edit.offer? n = some m) : n.id? = some edit.target := by
  by_contra hid
  rw [Edit.offer?, if_neg hid] at h
  cases h

/-- A tree that is not spared has the target in it. -/
theorem target_mem_identities (h : ¬ Spared edit n) : edit.target ∈ n.identities := by
  simp only [Spared, not_forall] at h
  obtain ⟨m, hm, ho⟩ := h
  obtain ⟨offered, ho⟩ := Option.ne_none_iff_exists'.1 ho
  exact List.mem_filterMap.2 ⟨m, hm, id?_of_offer? ho⟩

/-- The other children of a node are spared where one is not. -/
theorem spared_siblings {c : Node} {before after : List Node} (hdistinct : n.Distinct)
    (hchildren : n.children = before ++ c :: after) (hc : ¬ Spared edit c) :
    (∀ d ∈ before, Spared edit d) ∧ ∀ d ∈ after, Spared edit d := by
  have hpairs := (distinct_children hdistinct).2
  rw [hchildren, List.pairwise_append, List.pairwise_cons] at hpairs
  obtain ⟨-, ⟨hright, -⟩, hleft⟩ := hpairs
  have htarget := target_mem_identities hc
  refine ⟨fun d hd => ?_, fun d hd => ?_⟩
  · by_contra hspared
    exact hleft d hd c (List.mem_cons_self ..) (target_mem_identities hspared) htarget
  · by_contra hspared
    exact hright d hd htarget (target_mem_identities hspared)

/-- Replacing keeps the outline or exchanges the block of one node. -/
theorem kept_or_exchanged (hdistinct : n.Distinct) :
    (n.replace edit).outline = n.outline ∨ Exchanged edit n := by
  induction n using Node.induction with
  | h n ih =>
    by_cases hspared : Spared edit n
    · exact .inl (outline_replace_of_spared hspared)
    cases replaced edit n with
    | offered ho hr => exact .inr (exchanged_of_offered ho hr)
    | kept hs hr => exact .inl (by rw [hr])
    | rebuilt ho hr =>
      by_cases hall : ∀ c ∈ n.children, Spared edit c
      · exact .inl (outline_replace_of_children hr fun c hc =>
          outline_replace_of_spared (hall c hc))
      -- One child has the target in it, and so none of the others has.
      simp only [not_forall] at hall
      obtain ⟨c, hc, hnot⟩ := hall
      obtain ⟨before, after, hchildren⟩ := List.append_of_mem hc
      obtain ⟨hbefore, hafter⟩ := spared_siblings hdistinct hchildren hnot
      cases ih c hc ((distinct_children hdistinct).1 c hc) with
      | inl hkept =>
        refine .inl (outline_replace_of_children hr ?_)
        rw [hchildren, List.forall_mem_append, List.forall_mem_cons]
        exact ⟨fun d hd => outline_replace_of_spared (hbefore d hd), hkept,
          fun d hd => outline_replace_of_spared (hafter d hd)⟩
      | inr hexchanged =>
        exact .inr (exchanged_of_child hr hchildren hbefore hafter hexchanged)

/-! ## Where the target is -/

theorem mem_of_find?_eq_some {id : NodeId} {target : Node} (h : n.find? id = some target) :
    target ∈ n.descendants ∧ target.id? = some id :=
  ⟨List.mem_of_find?_eq_some h, by simpa using List.find?_some h⟩

/-- Where identities are distinct, a node is found by its own. -/
theorem find?_eq_some {id : NodeId} {target : Node} (hdistinct : n.Distinct)
    (hmem : target ∈ n.descendants) (hid : target.id? = some id) : n.find? id = some target := by
  obtain ⟨before, after, hwalk⟩ := List.append_of_mem hmem
  have hnodup : (before.filterMap id? ++ id :: after.filterMap id?).Nodup := by
    have h := hdistinct
    rwa [Distinct, identities, hwalk, List.filterMap_append, List.filterMap_cons_some hid] at h
  have hbefore : ∀ m ∈ before, m.id? ≠ some id := fun m hm hsame =>
    (List.nodup_append.1 hnodup).2.2 id (List.mem_filterMap.2 ⟨m, hm, hsame⟩) id
      (List.mem_cons_self ..) rfl
  rw [find?, hwalk, List.find?_append, List.find?_eq_none.2 (by simpa using hbefore),
    Option.none_or, List.find?_cons_of_pos (by simpa using hid)]

/-- An edit whose target is not in the tree, or of a kind that the replacement does not fit, offers
nothing. -/
theorem spared_of_find? (hdistinct : n.Distinct)
    (h : ∀ target, n.find? edit.target = some target → edit.replacement.fit? target = none) :
    Spared edit n := by
  intro m hm
  rw [Edit.offer?]
  split
  · exact h m (find?_eq_some hdistinct hm ‹_›)
  · rfl

end

/-- If the nodes of a tree have distinct identities, an edit leaves its outline as it is, or what
changes is one block: the lines of the target and of all nodes beneath it give way to the lines of
the replacement.  The outline stays as it is whenever the target is not in the tree or the
replacement does not fit in its place. -/
theorem replacement_changes_one_place (root : Node) (edit : Edit) (hdistinct : root.Distinct) :
    ((root.replace edit).outline = root.outline ∨
      ∃ target offered before after, root.find? edit.target = some target ∧
        edit.replacement.fit? target = some offered ∧
          root.outline = before ++ target.outline ++ after ∧
            (root.replace edit).outline = before ++ offered.outline ++ after) ∧
      ((∀ target, root.find? edit.target = some target → edit.replacement.fit? target = none) →
        (root.replace edit).outline = root.outline) := by
  refine ⟨?_, fun h => outline_replace_of_spared (spared_of_find? hdistinct h)⟩
  cases @kept_or_exchanged edit root hdistinct with
  | inl hkept => exact .inl hkept
  | inr hexchanged =>
    obtain ⟨target, hmem, offered, before, after, ho, hold, hnew⟩ := hexchanged
    have hid := id?_of_offer? ho
    rw [Edit.offer?, if_pos hid] at ho
    exact .inr ⟨target, offered, before, after, find?_eq_some hdistinct hmem hid, ho, hold, hnew⟩

namespace Declared

/-- The program `x: ⊤, x`. -/
def root : Node :=
  .expr (.block ⟨0⟩ [
    .bind ⟨⟨1⟩, [⟨⟨2⟩, ⟨⟨3⟩, "x", .name⟩, none⟩], none,
      some (.boolean ⟨4⟩ ⟨⟨5⟩, "⊤", .boolean⟩ true), false⟩,
    .reference ⟨6⟩ ⟨⟨7⟩, "x", .name⟩])

/-- The order to put an empty list in the place of the value of `x`. -/
def edit : Edit :=
  ⟨⟨4⟩, .expr (.list ⟨8⟩ ⟨⟨9⟩, "[", .listOpen⟩ [] ⟨⟨10⟩, "]", .listClose⟩)⟩

/-- The outline changes, since it gets longer, and it changes in the place of the value alone. -/
theorem replacement_changes_value :
    root.Distinct ∧ (root.replace edit).outline ≠ root.outline ∧
      ∃ target offered before after, root.find? edit.target = some target ∧
        edit.replacement.fit? target = some offered ∧
          root.outline = before ++ target.outline ++ after ∧
            (root.replace edit).outline = before ++ offered.outline ++ after := by
  have hdistinct : root.Distinct := by
    rw [Distinct]
    decide +kernel
  have hchanged : (root.replace edit).outline ≠ root.outline := by
    intro h
    have hlength : (root.replace edit).outline.length = 9 ∧ root.outline.length = 8 := by
      decide +kernel
    rw [h] at hlength
    omega
  refine ⟨hdistinct, hchanged, ?_⟩
  exact (replacement_changes_one_place root edit hdistinct).1.resolve_left hchanged

end Declared

end Node

end Stepwise

import Mathlib.Data.List.Basic
import Stepwise.Lexicon
import Stepwise.Proofs.Sample
import Stepwise.Proofs.Syntax.Preorder

/-!
# Where the lexicon looks for declarations

Walking a tree comes to every node, and knows of each in what part of the node above it stands
(`Occurrence`).  That tells which nodes declare names: bind statements, definitions, their inputs
and their type parameters (`Occurrence.declares?`).  The lexicon looks for declarations in a walk of
its own, which passes by two kinds of nodes and by everything beneath them: the cells of inserted
rows and written types.  What it collects is what the other nodes declare, in the order of the walk
(`declarations_eq`).  So a name means what its first declaration says, unless that is passed by.
-/

namespace Stepwise

/-! ## Occurrences -/

/-- As what a node stands below another one. -/
inductive Role where
  /-- An argument of a call. -/
  | argument
  /-- A cell of an inserted row. -/
  | cell
  /-- An input of a definition. -/
  | input
  /-- A type parameter of a definition. -/
  | parameter
  /-- A written type, or one given at a call. -/
  | written
  /-- Anything else. -/
  | part

/-- Whether the lexicon passes by nodes in this role. -/
def Role.isAside : Role → Bool
  | cell | written => true
  | _ => false

/-- A node in its place. -/
structure Occurrence where
  node : Node
  role : Role
  /-- Whether the node is a cell or a written type or stands beneath one. -/
  aside : Bool

namespace Node

/-- The role of a child, if it is not an argument of a call. -/
def roleOf (parent : Node) : Node → Role
  | .ty _ | .typeInput _ => .written
  | .binder _ =>
    match parent with
    | .expr (.insert ..) => .cell
    | .expr (.function _) | .expr (.struct _) => .input
    | _ => .part
  | .typeVariable _ =>
    match parent with
    | .expr (.function _) | .expr (.struct _) => .parameter
    | _ => .part
  | _ => .part

/-- Whether a node is a written type or one given at a call. -/
def isWritten : Node → Bool
  | .ty _ | .typeInput _ => true
  | _ => false

/-- A node in a role below another one. -/
def under (aside : Bool) (role : Role) (n : Node) : Occurrence :=
  ⟨n, role, aside || role.isAside⟩

/-- The nodes directly below a node, in their places. -/
def below (aside : Bool) : Node → List Occurrence
  | .expr (.call c) =>
    c.typeInputs.map (fun i => under aside .written (.typeInput i)) ++
      under aside .part (.expr c.callee) :: under aside .part (.token c.opening) ::
        c.inputs.map (fun e => under aside .argument (.expr e)) ++
      [under aside .part (.token c.closing)]
  | n => n.children.map fun child => under aside (n.roleOf child) child

/-- These are the children of the node. -/
theorem map_node_below (aside : Bool) (n : Node) :
    (n.below aside).map Occurrence.node = n.children := by
  have other {n : Node} :
      (n.children.map fun child => under aside (n.roleOf child) child).map Occurrence.node =
        n.children := by
    rw [List.map_map]
    exact List.map_id' _
  cases n with
  | expr e =>
    cases e with
    | call c => simp [below, under, children, childrenOfExpr, Function.comp_def]
    | _ => exact other
  | _ => exact other

theorem size_lt_of_mem_below {aside : Bool} {n : Node} {o : Occurrence} (h : o ∈ n.below aside) :
    o.node.size < n.size := by
  refine size_lt_of_mem_children ?_
  rw [← map_node_below aside n]
  exact List.mem_map_of_mem h

theorem roleOf_of_isWritten (parent : Node) {n : Node} (h : n.isWritten = true) :
    parent.roleOf n = .written := by
  cases n with
  | ty t => rfl
  | typeInput i => rfl
  | _ => exact nomatch h

theorem eq_under_of_mem_below {aside : Bool} {n : Node} {o : Occurrence} (h : o ∈ n.below aside) :
    ∃ role, o = under aside role o.node ∧ (o.node.isWritten = true → role = .written) := by
  unfold below at h
  split at h
  · simp only [List.mem_append, List.mem_cons, List.mem_map, List.not_mem_nil, or_false] at h
    obtain (⟨i, -, rfl⟩ | rfl | rfl | ⟨e, -, rfl⟩) | rfl := h
    · exact ⟨.written, rfl, fun _ => rfl⟩
    · exact ⟨.part, rfl, nofun⟩
    · exact ⟨.part, rfl, nofun⟩
    · exact ⟨.argument, rfl, nofun⟩
    · exact ⟨.part, rfl, nofun⟩
  · obtain ⟨child, -, rfl⟩ := List.mem_map.1 h
    exact ⟨_, rfl, roleOf_of_isWritten _⟩

end Node

namespace Occurrence

/-- An occurrence and those beneath it, at most `depth` deep. -/
def within : Nat → Occurrence → List Occurrence
  | 0, _ => []
  | depth + 1, o => o :: (o.node.below o.aside).flatMap (within depth)

/-- An occurrence and those beneath it, parents before children and children in source order. -/
def walk (o : Occurrence) : List Occurrence :=
  within o.node.size o

/-- A tree is not deeper than it is large. -/
theorem within_eq {depth depth' : Nat} {o : Occurrence} (h : o.node.size ≤ depth)
    (h' : o.node.size ≤ depth') : within depth o = within depth' o := by
  induction depth generalizing depth' o with
  | zero =>
    rw [Node.size_eq] at h
    omega
  | succ depth ih =>
    cases depth' with
    | zero =>
      rw [Node.size_eq] at h'
      omega
    | succ depth' =>
      rw [within, within]
      congr 1
      refine List.flatMap_congr fun child hchild => ?_
      have hlt := Node.size_lt_of_mem_below hchild
      exact ih (by omega) (by omega)

theorem walk_eq (o : Occurrence) : o.walk = o :: (o.node.below o.aside).flatMap walk := by
  obtain ⟨depth, hdepth⟩ : ∃ depth, o.node.size = depth + 1 := by
    rw [Node.size_eq, Nat.add_comm]
    exact ⟨_, rfl⟩
  rw [walk, hdepth, within]
  congr 1
  refine List.flatMap_congr fun child hchild => ?_
  have hlt := Node.size_lt_of_mem_below hchild
  exact within_eq (by omega) (Nat.le_refl _)

/-- The walk comes to the same nodes, in the same order, whatever their roles. -/
theorem map_node_walk (o : Occurrence) : o.walk.map node = o.node.descendants := by
  obtain ⟨n, role, aside⟩ := o
  induction n using Node.induction generalizing role aside with
  | h n ih =>
    rw [walk_eq, List.map_cons, Node.descendants_eq, List.map_flatMap]
    congr 1
    rw [← Node.map_node_below aside n, List.flatMap_map]
    refine List.flatMap_congr fun child hchild => ?_
    refine ih child.node ?_ child.role child.aside
    rw [← Node.map_node_below aside n]
    exact List.mem_map_of_mem hchild

end Occurrence

/-! ## Declarations -/

/-- The names that a declaration gives to what it declares. -/
def Definition.aliases : Definition → List String
  | .bind b => b.aliases
  | .function f => f.aliases
  | .struct s => s.aliases
  | .typeVariable v => [v.text]
  | .stream name _ | .host name _ => [name]

namespace Occurrence

/-- What a node declares.  A named argument declares nothing, and neither does a cell. -/
def declares? (o : Occurrence) : Option Definition :=
  match o.node, o.role with
  | .expr (.bind _), .argument => none
  | .expr (.bind b), _ | .binder b, .input => some (.bind b)
  | .expr (.function f), _ => some (.function f)
  | .expr (.struct s), _ => some (.struct s)
  | .typeVariable v, .parameter => some (.typeVariable v)
  | _, _ => none

/-- What a node declares a name to be. -/
def meaning? (o : Occurrence) (name : String) : Option Definition :=
  o.declares?.filter fun d => d.aliases.contains name

/-- The entries that the lexicon makes for a node itself. -/
def entries (o : Occurrence) : List (String × Definition) :=
  if o.aside then [] else o.declares?.toList.flatMap fun d => pairAliases d.aliases d

/-- What the lexicon collects at a node and beneath it. -/
def collected (o : Occurrence) : List (String × Definition) :=
  if o.aside then [] else
    match o.node, o.role with
    | .expr (.bind b), .argument => b.declarationsOfValue
    | .expr e, _ => e.declarations
    | .binder b, .input => b.declarations
    | .binder b, _ => b.declarationsOfValue
    | .typeVariable v, .parameter => [(v.text, .typeVariable v)]
    | _, _ => []

/-- Beneath a node that is passed by all nodes are passed by. -/
theorem aside_of_mem_below {n : Node} {o : Occurrence} (h : o ∈ n.below true) :
    o.aside = true := by
  obtain ⟨role, heq, -⟩ := Node.eq_under_of_mem_below h
  rw [heq]
  rfl

/-- Written types are passed by. -/
theorem aside_of_isWritten {aside : Bool} {n : Node} {o : Occurrence} (h : o ∈ n.below aside)
    (hwritten : o.node.isWritten = true) : o.aside = true := by
  obtain ⟨role, heq, hrole⟩ := Node.eq_under_of_mem_below h
  rw [heq, hrole hwritten]
  exact Bool.or_true aside

theorem collected_eq_nil {o : Occurrence} (h : o.aside = true) : o.collected = [] := by
  rw [collected, if_pos h]

@[simp] theorem collected_under_expr (e : Expr) :
    (Node.under false .part (.expr e)).collected = e.declarations := by
  cases e <;> rfl

/-- Marks, names and languages declare nothing. -/
@[simp] theorem collected_under_part {n : Node} (hexpr : ∀ e, n ≠ .expr e)
    (hbinder : ∀ b, n ≠ .binder b) : (Node.under false .part n).collected = [] := by
  cases n with
  | expr e => exact absurd rfl (hexpr e)
  | binder b => exact absurd rfl (hbinder b)
  | _ => rfl

@[simp] theorem collected_under_written (n : Node) :
    (Node.under false .written n).collected = [] := collected_eq_nil rfl

@[simp] theorem collected_under_cell (n : Node) :
    (Node.under false .cell n).collected = [] := collected_eq_nil rfl

@[simp] theorem collected_under_input (b : Binder) :
    (Node.under false .input (.binder b)).collected = b.declarations := rfl

@[simp] theorem collected_under_parameter (v : TypeVariable) :
    (Node.under false .parameter (.typeVariable v)).collected = [(v.text, .typeVariable v)] := rfl

end Occurrence

/-! ## What is collected

The lexicon searches lists of nodes with functions of their own, which collect what is collected at
one node after the other. -/

theorem flatMap_fun_nil {α β : Type*} (l : List α) : (l.flatMap fun _ => ([] : List β)) = [] :=
  List.flatMap_eq_nil_iff.2 fun _ _ => rfl

theorem declarationsOfTypeVariables_eq (vars : List TypeVariable) :
    declarationsOfTypeVariables vars = vars.flatMap fun v => [(v.text, .typeVariable v)] :=
  List.map_eq_flatMap

theorem declarationsOfExprs_eq (es : List Expr) :
    declarationsOfExprs es = es.flatMap Expr.declarations := by
  induction es with
  | nil => rfl
  | cons e rest ih => rw [declarationsOfExprs, ih, List.flatMap_cons]

theorem declarationsOfBinders_eq (bs : List Binder) :
    declarationsOfBinders bs = bs.flatMap Binder.declarations := by
  induction bs with
  | nil => rfl
  | cons b rest ih => rw [declarationsOfBinders, ih, List.flatMap_cons]

theorem declarationsOfArguments_eq (es : List Expr) :
    declarationsOfArguments es =
      es.flatMap fun e => (Node.under false .argument (.expr e)).collected := by
  induction es with
  | nil => rfl
  | cons e rest ih =>
    rw [List.flatMap_cons, ← ih]
    cases e <;> rfl

theorem declarationsOfExpr?_eq (e : Option Expr) :
    declarationsOfExpr? e = e.toList.flatMap Expr.declarations := by
  cases e with
  | none => rfl
  | some e => exact (List.append_nil _).symm

namespace Occurrence

/-- Only of bind statements more is collected in one role than in another. -/
theorem collected_expr {e : Expr} (role : Role) (h : ∀ b, e ≠ .bind b) :
    collected ⟨.expr e, role, false⟩ = e.declarations := by
  cases e with
  | bind b => exact absurd rfl (h b)
  | _ => rfl

theorem collected_bind (b : Binder) (role : Role) :
    collected ⟨.expr (.bind b), role, false⟩ =
      entries ⟨.expr (.bind b), role, false⟩ ++ b.declarationsOfValue := by
  obtain ⟨id, names, ty, value, rest⟩ := b
  cases role <;>
    simp [collected, entries, declares?, Definition.aliases, Expr.declarations,
      Binder.declarations, Binder.declarationsOfValue]

theorem collected_binder (b : Binder) (role : Role) :
    collected ⟨.binder b, role, false⟩ =
      entries ⟨.binder b, role, false⟩ ++ b.declarationsOfValue := by
  obtain ⟨id, names, ty, value, rest⟩ := b
  cases role <;>
    simp [collected, entries, declares?, Definition.aliases, Binder.declarations,
      Binder.declarationsOfValue]

/-- At all other nodes only what they declare themselves is collected. -/
theorem collected_other {n : Node} (role : Role) (hexpr : ∀ e, n ≠ .expr e)
    (hbinder : ∀ b, n ≠ .binder b) :
    collected ⟨n, role, false⟩ = entries ⟨n, role, false⟩ := by
  cases n with
  | expr e => exact absurd rfl (hexpr e)
  | binder b => exact absurd rfl (hbinder b)
  | typeVariable v => cases role <;> rfl
  | _ => rfl

/-- Below a declaration the lexicon searches its value. -/
theorem collected_childrenOfBinder (b : Binder) (parent : Node) :
    ((Node.childrenOfBinder b).map fun c => Node.under false (parent.roleOf c) c).flatMap
      collected = b.declarationsOfValue := by
  obtain ⟨id, names, ty, value, rest⟩ := b
  simp [Node.childrenOfBinder, Node.roleOf, Binder.declarationsOfValue, declarationsOfExpr?_eq,
    List.flatMap_map, Option.toList_map, flatMap_fun_nil]

/-- What is collected at an expression comes from the expression itself and from the nodes directly
below it. -/
theorem collected_expr_eq (e : Expr) (role : Role) :
    collected ⟨.expr e, role, false⟩ =
      entries ⟨.expr e, role, false⟩ ++ ((Node.expr e).below false).flatMap collected := by
  cases e with
  | bind b =>
    rw [collected_bind]
    exact congrArg _ (collected_childrenOfBinder b (.expr (.bind b))).symm
  | call c =>
    obtain ⟨id, types, callee, opening, inputs, closing⟩ := c
    rw [collected_expr role (by simp)]
    simp [entries, declares?, Node.below, Expr.declarations, Call.declarations,
      declarationsOfArguments_eq, List.flatMap_map]
  | function f =>
    obtain ⟨id, names, vars, inputs, output, body⟩ := f
    rw [collected_expr role (by simp)]
    simp [entries, declares?, Definition.aliases, Node.below, Node.children, Node.childrenOfExpr,
      Node.childrenOfHead, Node.roleOf, Expr.declarations, FunctionDef.declarations,
      declarationsOfTypeVariables_eq, declarationsOfBinders_eq, declarationsOfExpr?_eq,
      List.flatMap_map, Option.toList_map, flatMap_fun_nil]
  | struct s =>
    obtain ⟨id, names, vars, inputs, block⟩ := s
    rw [collected_expr role (by simp)]
    simp [entries, declares?, Definition.aliases, Node.below, Node.children, Node.childrenOfExpr,
      Node.childrenOfHead, Node.roleOf, Expr.declarations, StructDef.declarations,
      declarationsOfTypeVariables_eq, declarationsOfBinders_eq, declarationsOfExpr?_eq,
      List.flatMap_map, Option.toList_map, flatMap_fun_nil]
  | _ =>
    rw [collected_expr role (by simp)]
    simp [entries, declares?, Node.below, Node.children, Node.childrenOfExpr, Node.roleOf,
      Expr.declarations, declarationsOfExprs_eq, List.flatMap_map, Option.toList_map,
      flatMap_fun_nil]

/-- What is collected at a node comes from the node itself and from those directly below it. -/
theorem collected_eq {o : Occurrence} (h : o.node.isWritten = true → o.aside = true) :
    o.collected = o.entries ++ (o.node.below o.aside).flatMap collected := by
  obtain ⟨n, role, aside⟩ := o
  cases aside with
  | true =>
    have hbelow : (n.below true).flatMap collected = [] :=
      List.flatMap_eq_nil_iff.2 fun o ho => collected_eq_nil (aside_of_mem_below ho)
    simp [collected, entries, hbelow]
  | false =>
    cases n with
    | expr e => exact collected_expr_eq e role
    | binder b =>
      rw [collected_binder]
      exact congrArg _ (collected_childrenOfBinder b (.binder b)).symm
    | ty t => exact nomatch h rfl
    | typeInput i => exact nomatch h rfl
    | _ =>
      rw [collected_other role (by simp) (by simp)]
      simp [Node.below, Node.children, Node.childrenOfName, Node.roleOf, List.flatMap_map,
        Option.toList_map, flatMap_fun_nil]

/-- The lexicon collects what the nodes of the walk declare, in its order. -/
theorem flatMap_entries_walk {o : Occurrence} (h : o.node.isWritten = true → o.aside = true) :
    o.walk.flatMap entries = o.collected := by
  obtain ⟨n, role, aside⟩ := o
  induction n using Node.induction generalizing role aside with
  | h n ih =>
    rw [walk_eq, List.flatMap_cons, List.flatMap_assoc, collected_eq h]
    congr 1
    refine List.flatMap_congr fun child hchild => ?_
    refine ih child.node ?_ child.role child.aside (aside_of_isWritten hchild)
    rw [← Node.map_node_below aside n]
    exact List.mem_map_of_mem hchild

end Occurrence

/-! ## What names mean -/

/-- All nodes of a program in their places, in the order in which they are walked. -/
def Expr.occurrences (root : Expr) : List Occurrence :=
  Occurrence.walk ⟨.expr root, .part, false⟩

theorem declarations_eq (root : Expr) :
    root.declarations = root.occurrences.flatMap Occurrence.entries := by
  have h := @Occurrence.flatMap_entries_walk ⟨.expr root, .part, false⟩ nofun
  rw [Expr.occurrences, h]
  exact (Occurrence.collected_under_expr root).symm

theorem lookup_flatMap {α β γ : Type*} [BEq α] (l : List β) (f : β → List (α × γ)) (key : α) :
    (l.flatMap f).lookup key = l.findSome? fun x => (f x).lookup key := by
  induction l with
  | nil => rfl
  | cons x rest ih =>
    rw [List.flatMap_cons, List.lookup_append, ih, List.findSome?_cons]
    cases (f x).lookup key <;> rfl

theorem lookup_pairAliases (aliases : List String) (d : Definition) (name : String) :
    (pairAliases aliases d).lookup name = if aliases.contains name then some d else none := by
  induction aliases with
  | nil => rfl
  | cons a rest ih =>
    rw [pairAliases, List.map_cons, List.lookup_cons, ← pairAliases, ih, List.contains_cons]
    cases name == a <;> rfl

theorem Occurrence.lookup_entries (o : Occurrence) (name : String) :
    o.entries.lookup name = if o.aside then none else o.meaning? name := by
  rw [entries, meaning?]
  cases o.aside with
  | true => rfl
  | false =>
    cases o.declares? with
    | none => rfl
    | some d => simp [lookup_pairAliases, Option.filter]

/-- Whether a node declares a name. -/
def Occurrence.declares (name : String) (o : Occurrence) : Bool :=
  (o.meaning? name).isSome

/-- The nodes of a program that the lexicon does not pass by, in the order of the walk. -/
def Expr.searched (root : Expr) : List Occurrence :=
  root.occurrences.filter fun o => !o.aside

theorem findSome?_lookup_entries (os : List Occurrence) (name : String) :
    os.findSome? (fun o => o.entries.lookup name) =
      ((os.filter fun o => !o.aside).find? (·.declares name)).bind (·.meaning? name) := by
  induction os with
  | nil => rfl
  | cons o rest ih =>
    rw [List.findSome?_cons, Occurrence.lookup_entries, ih]
    cases haside : o.aside with
    | true => simp [haside]
    | false => cases h : o.meaning? name <;> simp [haside, h, Occurrence.declares]

/-- What is found first is found among some elements as well, unless it is not one of them. -/
theorem find?_filter_eq_iff {α : Type*} {p q : α → Bool} {l : List α} :
    (l.filter p).find? q = l.find? q ↔ ∀ x, l.find? q = some x → p x = true := by
  constructor
  · intro h x hx
    exact (List.mem_filter.1 (List.mem_of_find?_eq_some (h.trans hx))).2
  · intro h
    cases hx : l.find? q with
    | none =>
      rw [List.find?_eq_none] at hx ⊢
      exact fun x hmem => hx x (List.mem_filter.1 hmem).1
    | some x =>
      obtain ⟨hq, before, after, rfl, hbefore⟩ := List.find?_eq_some_iff_append.1 hx
      have hnone : (before.filter p).find? q = none := by
        rw [List.find?_eq_none]
        intro y hy
        simpa using hbefore y (List.mem_filter.1 hy).1
      rw [List.filter_append, List.find?_append, hnone, List.filter_cons_of_pos (h x hx),
        List.find?_cons_of_pos hq]
      rfl

/-- The walk comes to all nodes of a program in preorder.  A name means what the first of them that
declares it and is neither a cell, nor a written type, nor beneath one says.  That is the first one
that declares it at all, unless that one is passed by. -/
theorem Lexicon.find?_ofExpr_eq (root : Expr) (name : String) :
    root.occurrences.map Occurrence.node = (Node.expr root).descendants ∧
    (Lexicon.ofExpr root).find? name =
      (root.searched.find? (·.declares name)).bind (·.meaning? name) ∧
    (root.searched.find? (·.declares name) = root.occurrences.find? (·.declares name) ↔
      ∀ o, root.occurrences.find? (·.declares name) = some o → o.aside = false) := by
  refine ⟨Occurrence.map_node_walk _, ?_, ?_⟩
  · rw [Lexicon.ofExpr, Lexicon.find?_defineAll, Lexicon.find?_empty, Option.none_or,
      declarations_eq, lookup_flatMap, findSome?_lookup_entries, Expr.searched]
  · rw [Expr.searched, find?_filter_eq_iff]
    simp

namespace FunctionInCell

/-- The function `f(x•?) ? x`. -/
def function : FunctionDef :=
  functionOf 4 "f" [binderOf 5 "x" (some .boolean) none] none (some (referenceOf 6 "x"))

/-- A table `t` with one more row, whose only cell `c` has the function as its value. -/
def root : Expr :=
  .insert ⟨1⟩ (referenceOf 2 "t") (tokenOf "+" .insert) [bindingOf 3 "c" (.function function)]

/-- The function is declared and so is its input, and no name is known. -/
theorem names_not_found :
    (root.occurrences.find? (·.declares "f")).isSome = true ∧
    (root.occurrences.find? (·.declares "x")).isSome = true ∧
    (Lexicon.ofExpr root).find? "f" = none ∧ (Lexicon.ofExpr root).find? "x" = none := by
  refine ⟨?_, ?_, ?_, ?_⟩
  · decide
  · decide
  · rfl
  · rfl

end FunctionInCell

end Stepwise

import Stepwise.Syntax.Node

/-!
# The walk is a preorder

`Node.descendants` visits the nodes of a worklist, for as long as the size of the tree allows.  That
size is enough: the size of a node is one more than the sizes of its children (`size_eq`), so the
walk visits a node, then everything beneath its first child, and so on (`descendants_eq`).

Since children are smaller, what holds of a node whenever it holds of its children holds of all
nodes (`Node.induction`).
-/

namespace Stepwise

namespace Node

/-- The number of nodes of several trees. -/
def total : List Node → Nat
  | [] => 0
  | n :: rest => n.size + total rest

@[simp] theorem total_nil : total [] = 0 := rfl

@[simp] theorem total_cons (n : Node) (ns : List Node) : total (n :: ns) = n.size + total ns := rfl

@[simp] theorem total_append (ns ms : List Node) : total (ns ++ ms) = total ns + total ms := by
  induction ns with
  | nil => simp
  | cons n rest ih => rw [List.cons_append, total_cons, total_cons, ih, Nat.add_assoc]

/-! ## Sizes -/

theorem sizeOfNames_eq (names : List Name) : sizeOfNames names = total (names.map .name) := by
  induction names with
  | nil => rfl
  | cons n rest ih => rw [sizeOfNames, ih, List.map_cons, total_cons]; rfl

theorem sizeOfTypeVariables_eq (vars : List TypeVariable) :
    sizeOfTypeVariables vars = total (vars.map .typeVariable) := by
  induction vars with
  | nil => rfl
  | cons v rest ih => rw [sizeOfTypeVariables, ih, List.map_cons, total_cons]; rfl

theorem sizeOfExprs_eq (es : List Expr) : sizeOfExprs es = total (es.map .expr) := by
  induction es with
  | nil => rfl
  | cons e rest ih => rw [sizeOfExprs, ih, List.map_cons, total_cons]; rfl

theorem sizeOfBinders_eq (bs : List Binder) : sizeOfBinders bs = total (bs.map .binder) := by
  induction bs with
  | nil => rfl
  | cons b rest ih => rw [sizeOfBinders, ih, List.map_cons, total_cons]; rfl

theorem sizeOfTypeInputs_eq (is : List TypeInput) :
    sizeOfTypeInputs is = total (is.map .typeInput) := by
  induction is with
  | nil => rfl
  | cons i rest ih => rw [sizeOfTypeInputs, ih, List.map_cons, total_cons]; rfl

theorem sizeOfTys_eq (ts : List Ty) : sizeOfTys ts = total (ts.map .ty) := by
  induction ts with
  | nil => rfl
  | cons t rest ih => rw [sizeOfTys, ih, List.map_cons, total_cons]; rfl

theorem sizeOfExpr?_eq (e : Option Expr) : sizeOfExpr? e = total (e.map Node.expr).toList := by
  cases e <;> rfl

theorem sizeOfTy?_eq (t : Option Ty) : sizeOfTy? t = total (t.map Node.ty).toList := by
  cases t <;> rfl

theorem total_tokens (ts : List Token) : total (ts.map .token) = ts.length := by
  induction ts with
  | nil => rfl
  | cons t rest ih => rw [List.map_cons, total_cons, ih, List.length_cons, Nat.add_comm]; rfl

theorem total_languages (l : Option Language) :
    total (l.map Node.language).toList = l.toList.length := by
  cases l <;> rfl

theorem size_name (n : Name) : n.size = 1 + total (childrenOfName n) := by
  rw [Name.size, childrenOfName, total_cons, total_languages, Node.size]
  omega

theorem size_binder (b : Binder) : b.size = 1 + total (childrenOfBinder b) := by
  obtain ⟨id, names, ty, value, rest⟩ := b
  simp only [Binder.size, childrenOfBinder, total_append, sizeOfNames_eq, sizeOfTy?_eq,
    sizeOfExpr?_eq, Nat.add_assoc]

theorem size_expr (e : Expr) : e.size = 1 + total (childrenOfExpr e) := by
  cases e with
  | bind b => exact size_binder b
  | call c =>
    obtain ⟨id, types, callee, opening, inputs, closing⟩ := c
    simp only [Expr.size, Call.size, childrenOfExpr, total_append, total_cons, total_nil,
      sizeOfTypeInputs_eq, sizeOfExprs_eq, Node.size]
    omega
  | function f =>
    obtain ⟨id, names, vars, inputs, output, body⟩ := f
    simp only [Expr.size, FunctionDef.size, childrenOfExpr, childrenOfHead, total_append,
      sizeOfNames_eq, sizeOfTypeVariables_eq, sizeOfBinders_eq, sizeOfTy?_eq, sizeOfExpr?_eq,
      Nat.add_assoc]
  | struct s =>
    obtain ⟨id, names, vars, inputs, block⟩ := s
    simp only [Expr.size, StructDef.size, childrenOfExpr, childrenOfHead, total_append,
      sizeOfNames_eq, sizeOfTypeVariables_eq, sizeOfBinders_eq, sizeOfExpr?_eq, Nat.add_assoc]
  | _ =>
    simp only [Expr.size, childrenOfExpr, total_append, total_cons, total_nil, total_tokens,
      total_languages, sizeOfExprs_eq, sizeOfBinders_eq, Node.size]
    try omega

theorem size_ty (t : Ty) : t.size = 1 + total (childrenOfTy t) := by
  cases t <;>
    simp only [Ty.size, childrenOfTy, total_append, total_cons, total_nil, sizeOfTypeVariables_eq,
      sizeOfBinders_eq, sizeOfTys_eq, Node.size] <;>
    omega

/-- A tree consists of its root and the trees beneath the root. -/
theorem size_eq (n : Node) : n.size = 1 + total n.children := by
  cases n with
  | expr e => exact size_expr e
  | binder b => exact size_binder b
  | name n => exact size_name n
  | token t => rfl
  | language l => rfl
  | typeVariable v => rfl
  | typeInput i =>
    obtain ⟨id, ty⟩ := i
    rfl
  | ty t => exact size_ty t

theorem size_le_total {n : Node} {ns : List Node} (h : n ∈ ns) : n.size ≤ total ns := by
  obtain ⟨before, after, rfl⟩ := List.append_of_mem h
  rw [total_append, total_cons]
  omega

theorem size_lt_of_mem_children {n c : Node} (h : c ∈ n.children) : c.size < n.size := by
  have hle := size_le_total h
  rw [size_eq n]
  omega

/-- What a node has if its children have it, all nodes have. -/
theorem induction {P : Node → Prop} (h : ∀ n, (∀ c ∈ n.children, P c) → P n) (n : Node) : P n :=
  h n fun c hc =>
    have : c.size < n.size := size_lt_of_mem_children hc
    induction h c
termination_by n.size

/-! ## The walk -/

/-- The walk is done with the nodes in front of the worklist before it comes to those behind. -/
theorem walk_append {fuel : Nat} {ns : List Node} (ms : List Node) (h : total ns ≤ fuel) :
    walk fuel (ns ++ ms) = walk (total ns) ns ++ walk (fuel - total ns) ms := by
  induction fuel generalizing ns with
  | zero =>
    cases ns with
    | nil => rfl
    | cons n rest =>
      rw [total_cons, size_eq] at h
      omega
  | succ fuel ih =>
    cases ns with
    | nil => cases fuel <;> rfl
    | cons n rest =>
      have htotal : total (n :: rest) = total (n.children ++ rest) + 1 := by
        rw [total_cons, size_eq, total_append]
        omega
      rw [htotal] at h ⊢
      rw [List.cons_append, walk, walk, ← List.append_assoc, ih (by omega), List.cons_append]
      congr 3
      omega

/-- The walk visits one tree after the other. -/
theorem walk_total (ns : List Node) : walk (total ns) ns = ns.flatMap descendants := by
  induction ns with
  | nil => rfl
  | cons n rest ih =>
    have hsingle : total [n] = n.size := by simp
    have hwalk := @walk_append (total (n :: rest)) [n] rest (by simp)
    rw [List.singleton_append, hsingle, total_cons, Nat.add_sub_cancel_left] at hwalk
    rw [total_cons, hwalk, ih, List.flatMap_cons, descendants]

/-- A tree is walked from its root to the trees beneath the root, one after the other. -/
theorem descendants_eq (n : Node) : n.descendants = n :: n.children.flatMap descendants := by
  rw [descendants, size_eq, Nat.add_comm, walk, List.append_nil, walk_total]

theorem self_mem_descendants (n : Node) : n ∈ n.descendants := by
  rw [descendants_eq]
  exact List.mem_cons_self ..

theorem mem_descendants_of_mem_children {n c m : Node} (hc : c ∈ n.children)
    (hm : m ∈ c.descendants) : m ∈ n.descendants := by
  rw [descendants_eq]
  exact List.mem_cons_of_mem _ (List.mem_flatMap.2 ⟨c, hc, hm⟩)

/-- What is beneath a node is beneath everything that the node is beneath. -/
theorem descendants_trans {n m k : Node} (hm : m ∈ n.descendants) (hk : k ∈ m.descendants) :
    k ∈ n.descendants := by
  induction n using Node.induction with
  | h n ih =>
    rw [descendants_eq] at hm
    cases List.mem_cons.1 hm with
    | inl hself => exact hself ▸ hk
    | inr hbelow =>
      obtain ⟨c, hc, hm⟩ := List.mem_flatMap.1 hbelow
      exact mem_descendants_of_mem_children hc (ih c hc hm)

end Node

end Stepwise

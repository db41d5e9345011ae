import Mathlib.Data.List.Basic
import Stepwise.Proofs.Syntax.Preorder

/-!
# Walking with a stack

A tree can be walked with a stack of nodes that are waiting: the node on top is visited and its
children are pushed in reverse, so that the first of them is on top.  The stack mixes the later
siblings of all nodes on the way to the root.  Still the order is kept all along: what has been
visited, followed by the preorders of what is waiting, from the top of the stack down, is the same
after each step (`Traversal.due_of_next?`), and each step leaves one node less to visit
(`Traversal.total_of_next?`).  So the walk ends, and it ends in the preorder.

Equal nodes may stand in several places of a tree.  An address tells them apart: it lists the
numbers of the children on the way from the root.  The preorder goes through all addresses of a
tree, each of them once, in lexicographic order (`pairwise_addresses`, `mem_addresses`,
`map_at?_addresses`).
-/

namespace Stepwise

namespace Node

/-! ## Preorder -/

/-- A node, then the preorders of its children, one after the other. -/
def preorder (n : Node) : List Node :=
  n :: n.children.attach.flatMap fun child => preorder child.1
termination_by n.size
decreasing_by exact size_lt_of_mem_children child.2

theorem preorder_eq (n : Node) : n.preorder = n :: n.children.flatMap preorder := by
  rw [preorder, List.flatMap_subtype (g := preorder) fun _ _ => rfl, List.unattach_attach]

/-- The worklist visits the nodes in preorder. -/
theorem descendants_eq_preorder (n : Node) : n.descendants = n.preorder := by
  induction n using Node.induction with
  | h n ih => rw [descendants_eq, preorder_eq, List.flatMap_congr ih]

/-! ## The stack -/

@[simp] theorem total_reverse (ns : List Node) : total ns.reverse = total ns := by
  induction ns with
  | nil => rfl
  | cons n rest ih =>
    rw [List.reverse_cons, total_append, ih, total_cons, total_cons, total_nil]
    omega

/-- A walk that is under way: the nodes that have been visited, and the stack of the nodes that are
waiting, with its top at the end. -/
structure Traversal where
  visited : List Node
  pending : List Node

namespace Traversal

/-- Takes the node on top and visits it.  Its children are pushed in reverse, so that the first of
them comes next.  Nothing is left to do when the stack is empty. -/
def next? (t : Traversal) : Option Traversal :=
  t.pending.getLast?.map fun node =>
    ⟨t.visited ++ [node], t.pending.dropLast ++ node.children.reverse⟩

/-- The walk goes on until the stack is empty, and then it has visited `out`. -/
inductive Ends : Traversal → List Node → Prop where
  | done {t : Traversal} (h : t.next? = none) : Ends t t.visited
  | step {t u : Traversal} {out : List Node} (h : t.next? = some u) (rest : Ends u out) : Ends t out

/-- What has been visited, and what is still to come if the nodes that are waiting are walked one
after the other. -/
def due (t : Traversal) : List Node :=
  t.visited ++ t.pending.reverse.flatMap preorder

variable {t u : Traversal} {out : List Node}

theorem pending_of_next?_eq_none (h : t.next? = none) : t.pending = [] := by
  simpa [next?] using h

/-- A step takes a node from the end of the stack. -/
theorem exists_of_next?_eq_some (h : t.next? = some u) : ∃ node waiting,
    t.pending = waiting ++ [node] ∧
      u = ⟨t.visited ++ [node], waiting ++ node.children.reverse⟩ := by
  obtain ⟨node, hlast, rfl⟩ := Option.map_eq_some_iff.1 h
  obtain ⟨waiting, hpending⟩ := List.getLast?_eq_some_iff.1 hlast
  exact ⟨node, waiting, hpending, by rw [hpending, List.dropLast_concat]⟩

/-- A step does not change what the walk comes to. -/
theorem due_of_next? (h : t.next? = some u) : u.due = t.due := by
  obtain ⟨node, waiting, hpending, rfl⟩ := exists_of_next?_eq_some h
  -- Pushed in reverse and read from the top, the children are in order again.
  rw [due, due, hpending, List.reverse_append, List.reverse_append, List.reverse_reverse,
    List.reverse_singleton, List.singleton_append, List.flatMap_append, List.flatMap_cons,
    preorder_eq node]
  simp

/-- A step leaves one node less to visit. -/
theorem total_of_next? (h : t.next? = some u) : total t.pending = total u.pending + 1 := by
  obtain ⟨node, waiting, hpending, rfl⟩ := exists_of_next?_eq_some h
  rw [hpending, total_append, total_cons, total_nil, size_eq, total_append, total_reverse]
  omega

theorem ends_due (t : Traversal) : Ends t t.due := by
  cases h : t.next? with
  | none =>
    have hdue : t.due = t.visited := by simp [due, pending_of_next?_eq_none h]
    exact hdue ▸ .done h
  | some u =>
    have := total_of_next? h
    exact .step h (due_of_next? h ▸ ends_due u)
termination_by total t.pending
decreasing_by omega

theorem Ends.eq_due (h : Ends t out) : out = t.due := by
  induction h with
  | done h => simp [due, pending_of_next?_eq_none h]
  | step h _ ih => rw [ih, due_of_next? h]

/-- Whatever is on the stack, the walk ends, and in one way. -/
theorem ends_iff : Ends t out ↔ out = t.due :=
  ⟨Ends.eq_due, fun h => h ▸ ends_due t⟩

end Traversal

/-! ## Addresses -/

/-- The node at an address, which goes from the root to a child, to a child of this child, and so
on. -/
def at? (n : Node) : List Nat → Option Node
  | [] => some n
  | i :: address => n.children[i]?.bind fun child => child.at? address

/-- The addresses in a tree. -/
def addresses (n : Node) : List (List Nat) :=
  [] :: n.children.zipIdx.attach.flatMap fun child => (addresses child.1.1).map (child.1.2 :: ·)
termination_by n.size
decreasing_by exact size_lt_of_mem_children (List.fst_mem_of_mem_zipIdx child.2)

theorem addresses_eq (n : Node) : n.addresses =
    [] :: n.children.zipIdx.flatMap fun child => child.1.addresses.map (child.2 :: ·) := by
  rw [addresses, List.flatMap_subtype (g := fun child => child.1.addresses.map (child.2 :: ·))
    fun _ _ => rfl, List.unattach_attach]

theorem cons_mem_addresses {n : Node} {i : Nat} {address : List Nat} : i :: address ∈ n.addresses ↔
    ∃ child, n.children[i]? = some child ∧ address ∈ child.addresses := by
  rw [addresses_eq]
  simp [List.mem_zipIdx_iff_getElem?]

/-- The addresses listed are those at which there is a node. -/
theorem mem_addresses {n : Node} {address : List Nat} :
    address ∈ n.addresses ↔ (n.at? address).isSome = true := by
  induction address generalizing n with
  | nil => simp [addresses_eq n, at?]
  | cons i address ih =>
    rw [cons_mem_addresses, at?]
    cases n.children[i]? with
    | none => simp
    | some child => simp [ih]

/-- The addresses are listed in lexicographic order, which leaves no room for any of them twice. -/
theorem pairwise_addresses (n : Node) : n.addresses.Pairwise (List.Lex (· < ·)) := by
  induction n using Node.induction with
  | h n ih =>
    rw [addresses_eq, List.pairwise_cons, List.pairwise_flatMap]
    refine ⟨fun address haddress => ?_, fun child hchild => ?_, ?_⟩
    · obtain ⟨child, -, haddress⟩ := List.mem_flatMap.1 haddress
      obtain ⟨rest, -, rfl⟩ := List.mem_map.1 haddress
      exact .nil
    · exact (ih child.1 (List.fst_mem_of_mem_zipIdx hchild)).map _ fun _ _ h => .cons h
    · have hnumbers : (n.children.zipIdx.map Prod.snd).Pairwise (· < ·) := by
        rw [List.zipIdx_map_snd]
        exact List.pairwise_lt_range'
      refine (List.pairwise_map.1 hnumbers).imp fun hlt address haddress address' haddress' => ?_
      obtain ⟨rest, -, rfl⟩ := List.mem_map.1 haddress
      obtain ⟨rest', -, rfl⟩ := List.mem_map.1 haddress'
      exact .rel hlt

/-- An address below a node leads to where its remainder leads from the child. -/
theorem map_at?_cons {n child : Node} {i : Nat} (h : n.children[i]? = some child)
    (addresses : List (List Nat)) :
    (addresses.map (i :: ·)).map n.at? = addresses.map child.at? := by
  rw [List.map_map]
  refine List.map_congr_left fun address _ => ?_
  rw [Function.comp_apply, at?, h, Option.bind_some]

/-- The walk goes from address to address. -/
theorem map_at?_addresses (n : Node) : n.addresses.map n.at? = n.descendants.map some := by
  induction n using Node.induction with
  | h n ih =>
    have hchild : ∀ child ∈ n.children.zipIdx,
        (child.1.addresses.map (child.2 :: ·)).map n.at? = child.1.descendants.map some :=
      fun child hchild => (map_at?_cons (List.mem_zipIdx_iff_getElem?.1 hchild) _).trans
        (ih child.1 (List.fst_mem_of_mem_zipIdx hchild))
    have hforget : (n.children.flatMap fun child => child.descendants.map some) =
        n.children.zipIdx.flatMap fun child => child.1.descendants.map some := by
      conv_lhs => rw [← List.zipIdx_map_fst 0 n.children, List.flatMap_map]
    rw [addresses_eq, List.map_cons, List.map_flatMap, List.flatMap_congr hchild, ← hforget,
      descendants_eq, List.map_cons, List.map_flatMap]
    rfl

theorem mem_descendants_iff {n m : Node} :
    m ∈ n.descendants ↔ ∃ address, n.at? address = some m := by
  have hmem : m ∈ n.descendants ↔ some m ∈ n.addresses.map n.at? := by
    rw [map_at?_addresses]
    simp
  rw [hmem, List.mem_map]
  refine exists_congr fun address => and_iff_right_of_imp fun h => ?_
  rw [mem_addresses, h]
  rfl

/-! ## Searching -/

theorem find?_eq_some_iff {root n : Node} {id : NodeId} : root.find? id = some n ↔
    n.id? = some id ∧ ∃ before after, root.preorder = before ++ n :: after ∧
      ∀ m ∈ before, m.id? ≠ some id := by
  rw [find?, List.find?_eq_some_iff_append, descendants_eq_preorder]
  simp

theorem find?_eq_none_iff_at? {root : Node} {id : NodeId} : root.find? id = none ↔
    ∀ address n, root.at? address = some n → n.id? ≠ some id := by
  rw [find?, List.find?_eq_none]
  simp only [mem_descendants_iff, beq_iff_eq]
  exact ⟨fun h address n hat => h n ⟨address, hat⟩, fun h n ⟨address, hat⟩ => h address n hat⟩

/-- A walk with a stack ends, whatever node it starts from, with the nodes that `descendants` lists,
and these are the node and everything beneath it in preorder.  The walk comes to each place of the
tree once, in the order of the addresses.  A search by identity finds the first node in preorder
that has it, and nothing exactly if there is no such node in any place of the tree. -/
theorem traversal_ends_in_preorder (root : Node) :
    (∀ out, Traversal.Ends ⟨[], [root]⟩ out ↔ out = root.descendants) ∧
      root.descendants = root.preorder ∧
      (∃ addresses : List (List Nat), addresses.Pairwise (List.Lex (· < ·)) ∧
        (∀ address, address ∈ addresses ↔ (root.at? address).isSome = true) ∧
          addresses.map root.at? = root.descendants.map some) ∧
      ∀ id, (∀ n, root.find? id = some n ↔
          n.id? = some id ∧ ∃ before after, root.preorder = before ++ n :: after ∧
            ∀ m ∈ before, m.id? ≠ some id) ∧
        (root.find? id = none ↔ ∀ address n, root.at? address = some n → n.id? ≠ some id) := by
  refine ⟨fun out => ?_, descendants_eq_preorder root, ?_, fun id => ⟨fun n => ?_, ?_⟩⟩
  · rw [Traversal.ends_iff, descendants_eq_preorder, Traversal.due]
    simp
  · exact ⟨root.addresses, pairwise_addresses root, fun _ => mem_addresses,
      map_at?_addresses root⟩
  · exact find?_eq_some_iff
  · exact find?_eq_none_iff_at?

end Node

end Stepwise

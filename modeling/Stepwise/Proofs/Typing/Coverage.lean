import Mathlib.Data.List.Forall2
import Stepwise.Proofs.Sample
import Stepwise.Proofs.Syntax.Preorder
import Stepwise.Proofs.Typing.Repeatable

/-!
# Analysis covers the tree

Analysis goes through a tree by recursion on its kinds of nodes.  It finds what a flat walk of the
preorder finds (`conflictsAlong`), which asks every node for its own conflicts in turn and goes into
the scope of a table for just the nodes of a query.

Analysis therefore asks every expression and declaration once (`Expr.analysis_covers`).  A node in
the queries of deletions is asked where the columns of each of their tables are names, those of the
outermost first, and any other in the given context.  What it answers then, it still answers when
the whole tree has been analysed.
-/

namespace Stepwise

open Query

/-! ## Queries around nodes -/

namespace Node

/-- The node is not a deletion. -/
def IsPlain (n : Node) : Prop :=
  ∀ id table mark query, n ≠ .expr (.delete id table mark query)

theorem deletion_or_plain (n : Node) :
    (∃ id table mark query, n = .expr (.delete id table mark query)) ∨ n.IsPlain := by
  by_cases h : n.IsPlain
  · exact .inr h
  · exact .inl (by simpa [IsPlain] using h)

/-- The children of a node, each with the deletion whose query it is. -/
def scopedChildren : Node → List (List Expr × Node)
  | .expr (.delete id table mark query) =>
    [([], .expr table), ([], .token mark), ([.delete id table mark query], .expr query)]
  | n => n.children.map fun c => ([], c)

theorem scopedChildren_of_plain {n : Node} (h : n.IsPlain) :
    n.scopedChildren = n.children.map fun c => ([], c) := by
  unfold scopedChildren
  split
  · exact (h _ _ _ _ rfl).elim
  · rfl

theorem map_snd_scopedChildren (n : Node) : n.scopedChildren.map Prod.snd = n.children := by
  rcases n.deletion_or_plain with ⟨id, table, mark, query, rfl⟩ | h
  · rfl
  · simp [scopedChildren_of_plain h, Function.comp_def]

theorem mem_children_of_scoped {n : Node} {c : List Expr × Node} (h : c ∈ n.scopedChildren) :
    c.2 ∈ n.children :=
  map_snd_scopedChildren n ▸ List.mem_map_of_mem h

/-- A node and everything beneath it, in preorder, each with the deletions in whose queries it lies,
outermost first. -/
def scopes (n : Node) : List (List Expr × Node) :=
  ([], n) :: n.scopedChildren.attach.flatMap fun c =>
    c.1.2.scopes.map fun s => (c.1.1 ++ s.1, s.2)
termination_by n.size
decreasing_by exact size_lt_of_mem_children (mem_children_of_scoped c.2)

theorem scopes_eq (n : Node) :
    n.scopes = ([], n) :: n.scopedChildren.flatMap fun c =>
      c.2.scopes.map fun s => (c.1 ++ s.1, s.2) := by
  rw [scopes]
  conv_rhs => rw [← List.attach_map_subtype_val n.scopedChildren, List.flatMap_map]

theorem scopes_of_plain {n : Node} (h : n.IsPlain) :
    n.scopes = ([], n) :: n.children.flatMap scopes := by
  simp [scopes_eq n, scopedChildren_of_plain h, List.flatMap_map]

theorem scopes_delete (id : NodeId) (table : Expr) (mark : Token) (query : Expr) :
    (Node.expr (.delete id table mark query)).scopes =
      ([], .expr (.delete id table mark query)) :: ((Node.expr table).scopes ++ ([], .token mark) ::
        (Node.expr query).scopes.map fun s => (.delete id table mark query :: s.1, s.2)) := by
  rw [scopes_eq]
  simp [scopedChildren, scopes_of_plain (n := .token mark) (by simp [IsPlain]), children]

/-- The nodes are those of the preorder. -/
theorem map_snd_scopes (n : Node) : n.scopes.map Prod.snd = n.descendants := by
  induction n using Node.induction with
  | h n ih =>
    rw [scopes_eq, descendants_eq, ← map_snd_scopedChildren, List.map_cons, List.map_flatMap,
      List.flatMap_map]
    congr 1
    refine List.flatMap_congr fun c hc => ?_
    rw [← ih c.2 (mem_children_of_scoped hc)]
    simp

theorem descendants_delete (id : NodeId) (table : Expr) (mark : Token) (query : Expr) :
    (Node.expr (.delete id table mark query)).descendants =
      .expr (.delete id table mark query) ::
        (((Node.expr table).descendants ++ [.token mark]) ++ (Node.expr query).descendants) := by
  rw [descendants_eq]
  simp [children, childrenOfExpr, descendants_eq (.token mark)]

theorem length_descendants (n : Node) : n.descendants.length = n.size := by
  induction n using Node.induction with
  | h n ih =>
    suffices ∀ ns ⊆ n.children, (ns.flatMap descendants).length = total ns by
      rw [descendants_eq, size_eq, List.length_cons, this _ (List.Subset.refl _), Nat.add_comm]
    intro ns hns
    induction ns with
    | nil => rfl
    | cons c rest ihrest =>
      rw [List.cons_subset] at hns
      rw [List.flatMap_cons, List.length_append, ih c hns.1, ihrest hns.2, total_cons]

end Node

/-! ## One analysis after another -/

section AndThen

variable {first second third : Query (List Conflict)} {ctx : Context} {memo after : Memo}
  {found : List Conflict}

theorem Query.andThen_assoc :
    (first.andThen second).andThen third = first.andThen (second.andThen third) := by
  simp only [Query.andThen, bind_assoc, pure_bind, List.append_assoc]

@[simp] theorem Query.andThen_nil : first.andThen (pure []) = first := by
  simp [Query.andThen]

@[simp] theorem Query.nil_andThen : (pure [] : Query _).andThen second = second := by
  simp [Query.andThen]

theorem Query.andThen_eq_some :
    first.andThen second ctx memo = some (found, after) ↔ ∃ a mid b,
      first ctx memo = some (a, mid) ∧ second ctx mid = some (b, after) ∧ a ++ b = found := by
  simp only [Query.andThen, bind_eq_some, pure_eq_some]
  constructor
  · rintro ⟨a, mid, ha, b, last, hb, rfl, rfl⟩
    exact ⟨a, mid, b, ha, hb, rfl⟩
  · rintro ⟨a, mid, b, ha, hb, rfl⟩
    exact ⟨a, mid, ha, b, after, hb, rfl, rfl⟩

end AndThen

/-! ## The analysis of nodes -/

section Nodes

variable (budget : Nat)

/-- The conflicts of a node itself.  Only expressions and declarations have any. -/
def Node.conflicts : Node → Query (List Conflict)
  | .expr e => e.conflicts budget
  | .binder b => pure b.conflicts
  | _ => pure []

/-- The conflicts of a node and of everything beneath it. -/
def Node.analyze : Node → Query (List Conflict)
  | .expr e => e.analyze budget
  | .binder b => (pure b.conflicts : Query _).andThen (b.analyzeParts budget)
  | .typeInput i => i.analyzeParts budget
  | .ty t => t.analyzeParts budget
  | _ => pure []

/-- The conflicts of several nodes and of everything beneath them. -/
def analyzeNodes : List Node → Query (List Conflict)
  | [] => pure []
  | n :: rest => (n.analyze budget).andThen (analyzeNodes rest)

variable {budget}

theorem analyzeNodes_append (ns ms : List Node) :
    analyzeNodes budget (ns ++ ms) = (analyzeNodes budget ns).andThen (analyzeNodes budget ms) := by
  induction ns with
  | nil => simp [analyzeNodes]
  | cons n rest ih => rw [List.cons_append, analyzeNodes, analyzeNodes, ih, andThen_assoc]

/-- Nodes that are neither expressions nor declarations nor types have nothing to be analysed. -/
theorem analyzeNodes_of_silent {α : Type} (make : α → Node) (as : List α)
    (h : ∀ a, (make a).analyze budget = pure []) : analyzeNodes budget (as.map make) = pure [] := by
  induction as with
  | nil => rfl
  | cons a rest ih => rw [List.map_cons, analyzeNodes, ih, h, nil_andThen]

theorem analyzeExprs_eq (es : List Expr) :
    analyzeExprs budget es = analyzeNodes budget (es.map .expr) := by
  induction es with
  | nil => rfl
  | cons e rest ih => rw [analyzeExprs, ih]; rfl

theorem analyzeBinders_eq (bs : List Binder) :
    analyzeBinders budget bs = analyzeNodes budget (bs.map .binder) := by
  induction bs with
  | nil => rfl
  | cons b rest ih =>
    rw [analyzeBinders, ih, List.map_cons, analyzeNodes, Node.analyze, andThen_assoc]

theorem analyzeTypeInputs_eq (is : List TypeInput) :
    analyzeTypeInputs budget is = analyzeNodes budget (is.map .typeInput) := by
  induction is with
  | nil => rfl
  | cons i rest ih => rw [analyzeTypeInputs, ih]; rfl

theorem analyzeTys_eq (ts : List Ty) :
    analyzeTys budget ts = analyzeNodes budget (ts.map .ty) := by
  induction ts with
  | nil => rfl
  | cons t rest ih => rw [analyzeTys, ih]; rfl

theorem analyzeExpr?_eq (e : Option Expr) :
    analyzeExpr? budget e = analyzeNodes budget (e.map Node.expr).toList := by
  cases e with
  | none => rfl
  | some e => exact (andThen_nil).symm

theorem analyzeTy?_eq (t : Option Ty) :
    analyzeTy? budget t = analyzeNodes budget (t.map Node.ty).toList := by
  cases t with
  | none => rfl
  | some t => exact (andThen_nil).symm

theorem analyzeNodes_head (names : List Name) (vars : List TypeVariable) (inputs : List Binder) :
    analyzeNodes budget (Node.childrenOfHead names vars inputs) = analyzeBinders budget inputs := by
  rw [Node.childrenOfHead, analyzeNodes_append, analyzeNodes_append,
    analyzeNodes_of_silent .name names fun _ => rfl,
    analyzeNodes_of_silent .typeVariable vars fun _ => rfl, analyzeBinders_eq]
  simp

theorem Binder.analyzeParts_eq (b : Binder) :
    b.analyzeParts budget = analyzeNodes budget (Node.childrenOfBinder b) := by
  obtain ⟨id, names, ty, value, rest⟩ := b
  rw [Node.childrenOfBinder, analyzeNodes_append, analyzeNodes_append,
    analyzeNodes_of_silent .name names fun _ => rfl, Binder.analyzeParts, analyzeTy?_eq,
    analyzeExpr?_eq, nil_andThen]

theorem Ty.analyzeParts_eq (t : Ty) :
    t.analyzeParts budget = analyzeNodes budget (Node.childrenOfTy t) := by
  cases t with
  | function vars inputs output =>
    rw [Node.childrenOfTy, analyzeNodes_append, analyzeNodes_append,
      analyzeNodes_of_silent .typeVariable vars fun _ => rfl, Ty.analyzeParts, analyzeBinders_eq,
      nil_andThen]
    simp [analyzeNodes, Node.analyze]
  | list item => exact (andThen_nil).symm
  | table columns => exact analyzeBinders_eq columns
  | struct _ ts | structDef _ ts | union ts => exact analyzeTys_eq ts
  | _ => rfl

/-- Unless an expression is a deletion, it is analysed by itself and then its children are. -/
theorem Expr.analyze_of_plain {e : Expr} (h : (Node.expr e).IsPlain) :
    e.analyze budget =
      (e.conflicts budget).andThen (analyzeNodes budget (Node.childrenOfExpr e)) := by
  unfold Expr.analyze
  congr 1
  cases e with
  | delete id table mark query => exact (h id table mark query rfl).elim
  | list _ opening items closing =>
    simp [Node.childrenOfExpr, analyzeNodes, analyzeNodes_append, Node.analyze, analyzeExprs_eq]
  | conditional => simp [Node.childrenOfExpr, analyzeNodes, Node.analyze]
  | call c =>
    obtain ⟨id, types, callee, opening, inputs, closing⟩ := c
    simp [Node.childrenOfExpr, analyzeNodes, analyzeNodes_append, Node.analyze, Call.analyzeParts,
      analyzeTypeInputs_eq, analyzeExprs_eq]
  | insert => simp [Node.childrenOfExpr, analyzeNodes, Node.analyze, analyzeBinders_eq]
  | access => simp [Node.childrenOfExpr, analyzeNodes, Node.analyze]
  | binary => simp [Node.childrenOfExpr, analyzeNodes, Node.analyze]
  | unary => simp [Node.childrenOfExpr, analyzeNodes, Node.analyze]
  | function f =>
    obtain ⟨id, names, vars, inputs, output, body⟩ := f
    simp only [Node.childrenOfExpr, analyzeNodes_append, analyzeNodes_head, andThen_assoc,
      FunctionDef.analyzeParts, analyzeTy?_eq, analyzeExpr?_eq]
  | struct s =>
    obtain ⟨id, names, vars, inputs, block⟩ := s
    simp only [Node.childrenOfExpr, analyzeNodes_append, analyzeNodes_head, StructDef.analyzeParts,
      analyzeExpr?_eq]
  | block _ statements => exact analyzeExprs_eq statements
  | bind b => exact b.analyzeParts_eq
  | text _ _ tag => cases tag <;> rfl
  | unparsable _ tokens => exact (analyzeNodes_of_silent .token tokens fun _ => rfl).symm
  | boolean | number | reference => rfl

/-- Unless a node is a deletion, it is analysed by itself and then its children are. -/
theorem Node.analyze_of_plain {n : Node} (h : n.IsPlain) :
    n.analyze budget = (n.conflicts budget).andThen (analyzeNodes budget n.children) := by
  cases n with
  | expr e => exact Expr.analyze_of_plain h
  | binder b => rw [Node.analyze, Binder.analyzeParts_eq]; rfl
  | typeInput i =>
    obtain ⟨id, ty⟩ := i
    simp [Node.analyze, TypeInput.analyzeParts, Node.conflicts, Node.children, analyzeNodes]
  | ty t => rw [Node.analyze, Ty.analyzeParts_eq]; simp [Node.conflicts, Node.children]
  | name n =>
    obtain ⟨id, token, language⟩ := n
    cases language <;> rfl
  | token | language | typeVariable => rfl

/-- A deletion is analysed by itself, then its table is, and then its query in the scope of the
table. -/
theorem Node.analyze_delete (id : NodeId) (table : Expr) (mark : Token) (query : Expr) :
    (Node.expr (.delete id table mark query)).analyze budget =
      ((Expr.delete id table mark query).conflicts budget).andThen
        (((Node.expr table).analyze budget).andThen
          (inQueryOf budget table ((Node.expr query).analyze budget))) :=
  rfl

/-! ## The flat walk -/

variable (budget) in
/-- Asks the nodes of a preorder for their own conflicts, one after the other.  Behind a deletion
come the nodes of its table, the mark, and the nodes of its query, which are asked in the scope of
the table. -/
def conflictsAlong : List Node → Query (List Conflict)
  | [] => pure []
  | .expr (.delete id table mark query) :: rest =>
    ((Expr.delete id table mark query).conflicts budget).andThen <|
      (conflictsAlong (rest.take (table.size + 1))).andThen <|
        (inQueryOf budget table
            (conflictsAlong ((rest.drop (table.size + 1)).take query.size))).andThen
          (conflictsAlong ((rest.drop (table.size + 1)).drop query.size))
  | n :: rest => (n.conflicts budget).andThen (conflictsAlong rest)
termination_by nodes => nodes.length
decreasing_by all_goals (simp only [List.length_cons, List.length_take, List.length_drop]; omega)

theorem conflictsAlong_cons {n : Node} (h : n.IsPlain) (rest : List Node) :
    conflictsAlong budget (n :: rest) =
      (n.conflicts budget).andThen (conflictsAlong budget rest) := by
  rw [conflictsAlong]
  exact fun id table mark query => h id table mark query

/-- The flat walk is done with a tree before it goes on. -/
theorem conflictsAlong_descendants (n : Node) (rest : List Node) :
    conflictsAlong budget (n.descendants ++ rest) =
      (n.analyze budget).andThen (conflictsAlong budget rest) := by
  induction n using Node.induction generalizing rest with
  | h n ih =>
    rcases n.deletion_or_plain with ⟨id, table, mark, query, rfl⟩ | h
    · have htable := ih (.expr table) (by simp [Node.children, Node.childrenOfExpr])
        [Node.token mark]
      have hquery := ih (.expr query) (by simp [Node.children, Node.childrenOfExpr]) []
      have hmark : conflictsAlong budget [Node.token mark] = pure [] := by
        simp [conflictsAlong, Node.conflicts]
      have hlength :
          ((Node.expr table).descendants ++ [Node.token mark]).length = table.size + 1 := by
        simp [Node.length_descendants, Node.size]
      have hquerySize : (Node.expr query).descendants.length = query.size :=
        Node.length_descendants _
      rw [hmark, andThen_nil] at htable
      rw [List.append_nil, conflictsAlong, andThen_nil] at hquery
      rw [Node.descendants_delete, List.cons_append, List.append_assoc, conflictsAlong,
        List.take_left' hlength, List.drop_left' hlength, List.take_left' hquerySize,
        List.drop_left' hquerySize, htable, hquery, Node.analyze_delete, andThen_assoc,
        andThen_assoc]
    · suffices ∀ ns ⊆ n.children, conflictsAlong budget (ns.flatMap Node.descendants ++ rest) =
          (analyzeNodes budget ns).andThen (conflictsAlong budget rest) by
        rw [Node.descendants_eq, List.cons_append, conflictsAlong_cons h,
          this _ (List.Subset.refl _), Node.analyze_of_plain h, andThen_assoc]
      intro ns hns
      induction ns with
      | nil => simp [analyzeNodes]
      | cons c others ihothers =>
        rw [List.cons_subset] at hns
        rw [List.flatMap_cons, List.append_assoc, ih c hns.1, ihothers hns.2, analyzeNodes,
          andThen_assoc]

/-! ## What the nodes answer -/

variable (budget) in
/-- The way from a context and its memo to what they are in the queries of deletions, outermost
first.  The type of each table is asked where the whole analysis has ended, and the memo of a query
is what analysing it leaves there. -/
inductive InQueries : Context → Memo → List Expr → Context → Memo → Prop
  | outside {ctx memo} : InQueries ctx memo [] ctx memo
  | inside {ctx memo id table mark query ty found last deletions inner within} :
    tableOperand budget table ctx memo = some (ty, memo) →
    query.analyze budget (ctx.push (columnNames ty.columns)) .empty = some (found, last) →
    InQueries (ctx.push (columnNames ty.columns)) last deletions inner within →
    InQueries ctx memo (.delete id table mark query :: deletions) inner within

variable (budget) in
/-- The conflicts of a node in the queries of deletions, where the whole analysis has ended. -/
def AnswersAt (ctx : Context) (memo : Memo) (place : List Expr × Node) (found : List Conflict) :
    Prop :=
  ∃ inner within, InQueries budget ctx memo place.1 inner within ∧
    place.2.conflicts budget inner within = some (found, within)

theorem settles_nodeConflicts (n : Node) : (n.conflicts budget).Settles (n.conflicts budget) := by
  cases n with
  | expr e => exact settles_conflicts (Nat.le_refl budget) e
  | _ => exact settles_pure _

theorem settles_nodeAnalyze (n : Node) : (n.analyze budget).Settles (n.analyze budget) := by
  cases n with
  | expr e => exact settles_analyze (Nat.le_refl budget) e
  | binder b => exact (settles_pure _).andThen (settles_analyzeBinder (Nat.le_refl budget) b)
  | typeInput i => exact settles_analyzeTypeInput (Nat.le_refl budget) i
  | ty t => exact settles_analyzeTy (Nat.le_refl budget) t
  | name | token | language | typeVariable => exact settles_pure _

theorem settles_analyzeNodes (ns : List Node) :
    (analyzeNodes budget ns).Settles (analyzeNodes budget ns) := by
  induction ns with
  | nil => exact settles_pure _
  | cons n rest ih => exact (settles_nodeAnalyze n).andThen ih

section Answers

variable {ctx : Context} {memo after later : Memo} {found : List Conflict}

/-- A node outside of all queries answers for itself. -/
theorem answersAt_here {n : Node} (hrest : memo.AtRest)
    (h : n.conflicts budget ctx memo = some (found, after)) (hlater : after.Extends later) :
    AnswersAt budget ctx later ([], n) found :=
  ⟨ctx, later, .outside, (settles_nodeConflicts n).again hrest h hlater⟩

/-- If each of several trees has answers, all of them together have. -/
theorem analyzeNodes_answers {ns : List Node} (hns : ∀ n ∈ ns, ∀ {memo after later found},
      memo.AtRest → n.analyze budget ctx memo = some (found, after) → after.Extends later →
        ∃ answers, List.Forall₂ (AnswersAt budget ctx later) n.scopes answers ∧
          answers.flatten = found)
    (hrest : memo.AtRest) (h : analyzeNodes budget ns ctx memo = some (found, after))
    (hlater : after.Extends later) :
    ∃ answers, List.Forall₂ (AnswersAt budget ctx later) (ns.flatMap Node.scopes) answers ∧
      answers.flatten = found := by
  induction ns generalizing memo found with
  | nil =>
    obtain ⟨rfl, -⟩ := pure_eq_some.1 h
    exact ⟨[], .nil, rfl⟩
  | cons n rest ih =>
    rw [List.forall_mem_cons] at hns
    obtain ⟨first, mid, others, hfirst, hothers, rfl⟩ := andThen_eq_some.1 h
    have hmid : mid.AtRest := (settles_nodeAnalyze n).atRest hrest hfirst
    obtain ⟨answers, hanswers, rfl⟩ := hns.1 hrest hfirst
      (.of_grows ((settles_analyzeNodes rest).grows hothers) hlater)
    obtain ⟨more, hmore, rfl⟩ := ih hns.2 hmid hothers
    exact ⟨answers ++ more, List.rel_append hanswers hmore, List.flatten_append⟩

/-- What analysis finds in a tree is what its nodes answer, each at its place. -/
theorem Node.analyze_answers (n : Node) (hrest : memo.AtRest)
    (h : n.analyze budget ctx memo = some (found, after)) (hlater : after.Extends later) :
    ∃ answers, List.Forall₂ (AnswersAt budget ctx later) n.scopes answers ∧
      answers.flatten = found := by
  induction n using Node.induction generalizing ctx memo found after later with
  | h n ih =>
    rcases n.deletion_or_plain with ⟨id, table, mark, query, rfl⟩ | hplain
    · rw [Node.analyze_delete] at h
      obtain ⟨own, mid, others, hown, hothers, rfl⟩ := andThen_eq_some.1 h
      obtain ⟨ofTable, mid', ofQuery, htable, hinside, rfl⟩ := andThen_eq_some.1 hothers
      obtain ⟨ty, mid'', hty, hscope⟩ := bind_eq_some.1 hinside
      obtain ⟨rfl, last, hquery⟩ := inScope_eq_some.1 hscope
      have hquerySettles : (inQueryOf budget table ((Node.expr query).analyze budget)).Settles _ :=
        settles_inQueryOf (Nat.le_refl budget) (settles_nodeAnalyze (.expr query)) table
      have hmid : mid.AtRest := (settles_conflicts (Nat.le_refl budget) _).atRest hrest hown
      have hmid' : mid'.AtRest := (settles_nodeAnalyze (.expr table)).atRest hmid htable
      have hlast : last.AtRest :=
        (settles_nodeAnalyze (.expr query)).atRest Memo.atRest_empty hquery
      -- The deletion itself, its table, the mark, and its query in the scope of the table.
      have hself : AnswersAt budget ctx later ([], .expr (.delete id table mark query)) own :=
        answersAt_here hrest hown
          (.of_grows (((settles_nodeAnalyze _).andThen hquerySettles).grows hothers) hlater)
      obtain ⟨answers, hanswers, rfl⟩ :=
        ih (.expr table) (by simp [Node.children, Node.childrenOfExpr]) hmid htable
          (.of_grows (hquerySettles.grows hinside) hlater)
      have hmark : AnswersAt budget ctx later ([], .token mark) [] := ⟨ctx, later, .outside, rfl⟩
      obtain ⟨inner, hinner, rfl⟩ :=
        ih (.expr query) (by simp [Node.children, Node.childrenOfExpr]) Memo.atRest_empty hquery
          (.refl hlast)
      have hty' := (settles_tableOperand (Nat.le_refl budget) table).again hmid' hty hlater
      refine ⟨own :: (answers ++ [] :: inner), ?_, by simp⟩
      rw [Node.scopes_delete]
      refine .cons hself (List.rel_append hanswers (.cons hmark ?_))
      refine List.forall₂_map_left_iff.2 (hinner.imp ?_)
      rintro place found ⟨ctx', within, hplace, hfound⟩
      exact ⟨ctx', within, .inside hty' hquery hplace, hfound⟩
    · rw [Node.analyze_of_plain hplain] at h
      obtain ⟨own, mid, others, hown, hothers, rfl⟩ := andThen_eq_some.1 h
      have hmid : mid.AtRest := (settles_nodeConflicts n).atRest hrest hown
      have hself := answersAt_here hrest hown
        (.of_grows ((settles_analyzeNodes n.children).grows hothers) hlater)
      obtain ⟨answers, hanswers, rfl⟩ := analyzeNodes_answers
        (fun c hc _ _ _ _ hrest h hlater => ih c hc hrest h hlater) hmid hothers hlater
      rw [Node.scopes_of_plain hplain]
      exact ⟨own :: answers, .cons hself hanswers, rfl⟩

end Answers

end Nodes

/-- Analysis finds what a flat walk of the preorder finds.  Asked between queries, it finds the
conflicts of every node once, in preorder, each in the given context or, in the queries of
deletions, where the columns of their tables are names. -/
theorem Expr.analysis_covers (budget : Nat) (root : Expr) :
    root.analyze budget = conflictsAlong budget (Node.expr root).descendants ∧
    (Node.expr root).scopes.map Prod.snd = (Node.expr root).descendants ∧
    ∀ {ctx memo found after}, memo.AtRest → root.analyze budget ctx memo = some (found, after) →
      ∃ answers, List.Forall₂ (AnswersAt budget ctx after) (Node.expr root).scopes answers ∧
        answers.flatten = found := by
  refine ⟨?_, Node.map_snd_scopes _, fun hrest h => ?_⟩
  · have hwalk : conflictsAlong budget ((Node.expr root).descendants ++ []) = _ :=
      conflictsAlong_descendants (.expr root) []
    rw [List.append_nil, conflictsAlong, andThen_nil] at hwalk
    exact hwalk.symm
  · have hafter := (settles_analyze (Nat.le_refl budget) root).atRest hrest h
    exact Node.analyze_answers (.expr root) hrest h (.refl hafter)

/-- A table `t` with a column `x`, and the rows of `t` for which `x ∧ y` is false. -/
def queriedTable : Program :=
  let column := binderOf 2 "x" (some .boolean) none
  ⟨.block ⟨1⟩
    [.bind (binderOf 3 "t" (some (.table [column])) none),
      .delete ⟨4⟩ (referenceOf 5 "t") (tokenOf "⌫" .delete)
        (binaryOf 6 (referenceOf 7 "x") .and (referenceOf 8 "y"))]⟩

/-- The column is a name in the query, and the other name is not found. -/
theorem analysis_covers_queriedTable :
    let ctx : Context := { lexicon := queriedTable.lexicon }
    ∃ found after answers,
      queriedTable.root.analyze 20 ctx .empty = some (found, after) ∧
      List.Forall₂ (AnswersAt 20 ctx after) (Node.expr queriedTable.root).scopes answers ∧
      answers.flatten = found ∧ found.map Conflict.primary = [[⟨8⟩]] := by
  intro ctx
  have hanalyzed : (queriedTable.root.analyze 20 ctx .empty).any
      (fun found => decide (found.1.map Conflict.primary = [[⟨8⟩]])) = true := by decide +kernel
  obtain ⟨⟨found, after⟩, hfound, hone⟩ := (Option.any_eq_true _ _).1 hanalyzed
  obtain ⟨answers, hanswers, hflat⟩ :=
    (Expr.analysis_covers 20 queriedTable.root).2.2 Memo.atRest_empty hfound
  exact ⟨found, after, answers, hfound, hanswers, hflat, of_decide_eq_true hone⟩

end Stepwise

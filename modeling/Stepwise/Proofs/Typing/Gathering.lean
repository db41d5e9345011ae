import Stepwise.Analysis
import Stepwise.Proofs.Typing.Nested

/-!
# How analysis goes through a tree

Analysis is put together from the conflicts of single expressions, by answering one after the other
and by going into the query of a table operation.  What holds of the parts and passes to what is put
together from them (`AnalysisClosed`) holds of the analysis of every tree.  This is the one
induction here (`AnalysisClosed.expr`).

Analysis does not come to all expressions in the names of the program: `Expr.analysed` leaves out
the query of a deletion, which is analysed where the columns of a table are names, and the
definitions that structure types carry.
-/

namespace Stepwise

/-! ## Where analysis comes -/

mutual

/-- The expressions that analysis comes to in the names of the program, from this expression on. -/
def Expr.analysed (e : Expr) : List Expr :=
  e :: match e with
    | .list _ _ items _ => analysedInExprs items
    | .conditional _ condition _ yes no => condition.analysed ++ (yes.analysed ++ no.analysed)
    | .call c => c.analysed
    | .delete _ table _ _ => table.analysed
    | .insert _ table _ cells => table.analysed ++ analysedInBinders cells
    | .access _ subject _ _ => subject.analysed
    | .binary _ left _ _ right => left.analysed ++ right.analysed
    | .unary _ _ _ operand => operand.analysed
    | .function f => f.analysed
    | .struct s => s.analysed
    | .block _ statements => analysedInExprs statements
    | .bind b => b.analysed
    | _ => []
termination_by structural e

/-- The expressions that analysis comes to in expressions. -/
def analysedInExprs : List Expr → List Expr
  | [] => []
  | e :: rest => e.analysed ++ analysedInExprs rest
termination_by structural es => es

/-- The expressions that analysis comes to in an optional expression. -/
def analysedInExpr? : Option Expr → List Expr
  | none => []
  | some e => e.analysed
termination_by structural e => e

/-- The expressions that analysis comes to in a call. -/
def Call.analysed : Call → List Expr
  | ⟨_, types, callee, _, inputs, _⟩ =>
    analysedInTypeInputs types ++ (callee.analysed ++ analysedInExprs inputs)
termination_by structural c => c

/-- The expressions that analysis comes to in a declaration. -/
def Binder.analysed : Binder → List Expr
  | ⟨_, _, ty, value, _⟩ => analysedInTy? ty ++ analysedInExpr? value
termination_by structural b => b

/-- The expressions that analysis comes to in declarations. -/
def analysedInBinders : List Binder → List Expr
  | [] => []
  | b :: rest => b.analysed ++ analysedInBinders rest
termination_by structural bs => bs

/-- The expressions that analysis comes to in a type input. -/
def TypeInput.analysed : TypeInput → List Expr
  | ⟨_, ty⟩ => ty.analysed
termination_by structural i => i

/-- The expressions that analysis comes to in type inputs. -/
def analysedInTypeInputs : List TypeInput → List Expr
  | [] => []
  | i :: rest => i.analysed ++ analysedInTypeInputs rest
termination_by structural is => is

/-- The expressions that analysis comes to in a function definition. -/
def FunctionDef.analysed : FunctionDef → List Expr
  | ⟨_, _, _, inputs, output, body⟩ =>
    analysedInBinders inputs ++ (analysedInTy? output ++ analysedInExpr? body)
termination_by structural f => f

/-- The expressions that analysis comes to in a structure definition. -/
def StructDef.analysed : StructDef → List Expr
  | ⟨_, _, _, inputs, block⟩ => analysedInBinders inputs ++ analysedInExpr? block
termination_by structural s => s

/-- The expressions that analysis comes to in a type. -/
def Ty.analysed : Ty → List Expr
  | .function _ inputs output => analysedInBinders inputs ++ output.analysed
  | .list item => item.analysed
  | .table columns => analysedInBinders columns
  | .struct _ args => analysedInTys args
  | .structDef _ args => analysedInTys args
  | .union members => analysedInTys members
  | _ => []
termination_by structural t => t

/-- The expressions that analysis comes to in types. -/
def analysedInTys : List Ty → List Expr
  | [] => []
  | t :: rest => t.analysed ++ analysedInTys rest
termination_by structural ts => ts

/-- The expressions that analysis comes to in an optional type. -/
def analysedInTy? : Option Ty → List Expr
  | none => []
  | some t => t.analysed
termination_by structural t => t

end

/-! ## What holds of analysis -/

/-- `P` holds of answers at hand and of the conflicts of the expressions, and passes to queries that
are put together as analysis puts them together.  It is about a query at all budgets, and about the
expressions that the query asks in the names of the program. -/
structure AnalysisClosed (es : List Expr)
    (P : (Nat → Query (List Conflict)) → List Expr → Prop) : Prop where
  found : ∀ found, P (fun _ => pure found) []
  own : ∀ e : Expr, e.nested ⊆ es → P (fun n => e.conflicts n) [e]
  andThen : ∀ {first second xs ys}, P first xs → P second ys →
    P (fun n => (first n).andThen (second n)) (xs ++ ys)
  inQueryOf : ∀ {table : Expr} {query xs}, table.nested ⊆ es → P query xs →
    P (fun n => Stepwise.inQueryOf n table (query n)) []

namespace AnalysisClosed

variable {es : List Expr} {P : (Nat → Query (List Conflict)) → List Expr → Prop}

mutual

/-- What analysis is closed under holds of the analysis of every tree. -/
theorem expr (h : AnalysisClosed es P) :
    ∀ {e : Expr}, e.nested ⊆ es → P (fun n => e.analyze n) e.analysed := by
  intro e he
  have hown := h.own e he
  unfold Expr.analyze Expr.analysed
  refine h.andThen hown ?_
  cases e with
  | list id opening items closing =>
    simp only [Expr.nested, List.cons_subset] at he
    exact h.exprs he.2
  | conditional id condition question yes no =>
    simp only [Expr.nested, List.cons_subset, List.append_subset] at he
    exact h.andThen (h.expr he.2.1.1) (h.andThen (h.expr he.2.1.2) (h.expr he.2.2))
  | call c =>
    simp only [Expr.nested, List.cons_subset] at he
    exact h.call he.2
  | delete id table mark query =>
    simp only [Expr.nested, List.cons_subset, List.append_subset] at he
    simpa only [List.append_nil] using
      h.andThen (h.expr he.2.1) (h.inQueryOf he.2.1 (h.expr he.2.2))
  | insert id table mark cells =>
    simp only [Expr.nested, List.cons_subset, List.append_subset] at he
    exact h.andThen (h.expr he.2.1) (h.binders he.2.2)
  | access id subject dot name =>
    simp only [Expr.nested, List.cons_subset] at he
    exact h.expr he.2
  | binary id left mark op right =>
    simp only [Expr.nested, List.cons_subset, List.append_subset] at he
    exact h.andThen (h.expr he.2.1) (h.expr he.2.2)
  | unary id mark op operand =>
    simp only [Expr.nested, List.cons_subset] at he
    exact h.expr he.2
  | function f =>
    simp only [Expr.nested, List.cons_subset] at he
    exact h.function he.2
  | struct s =>
    simp only [Expr.nested, List.cons_subset] at he
    exact h.struct he.2
  | block id statements =>
    simp only [Expr.nested, List.cons_subset] at he
    exact h.exprs he.2
  | bind b =>
    simp only [Expr.nested, List.cons_subset] at he
    exact h.binder he.2
  | boolean | number | text | reference | unparsable => exact h.found []

theorem exprs (h : AnalysisClosed es P) : ∀ {items : List Expr}, nestedInExprs items ⊆ es →
    P (fun n => analyzeExprs n items) (analysedInExprs items)
  | [], _ => h.found []
  | e :: rest, hitems => by
    simp only [nestedInExprs, List.append_subset] at hitems
    exact h.andThen (h.expr hitems.1) (h.exprs hitems.2)

theorem expr? (h : AnalysisClosed es P) : ∀ {e : Option Expr}, nestedInExpr? e ⊆ es →
    P (fun n => analyzeExpr? n e) (analysedInExpr? e)
  | none, _ => h.found []
  | some _, he => h.expr he

theorem call (h : AnalysisClosed es P) : ∀ {c : Call}, c.nested ⊆ es →
    P (fun n => c.analyzeParts n) c.analysed
  | ⟨_, types, callee, _, inputs, _⟩, hc => by
    simp only [Call.nested, List.append_subset] at hc
    exact h.andThen (h.typeInputs hc.1.1) (h.andThen (h.expr hc.1.2) (h.exprs hc.2))

theorem binder (h : AnalysisClosed es P) : ∀ {b : Binder}, b.nested ⊆ es →
    P (fun n => b.analyzeParts n) b.analysed
  | ⟨_, _, ty, value, _⟩, hb => by
    simp only [Binder.nested, List.append_subset] at hb
    exact h.andThen (h.ty? hb.1) (h.expr? hb.2)

theorem binders (h : AnalysisClosed es P) : ∀ {bs : List Binder}, nestedInBinders bs ⊆ es →
    P (fun n => analyzeBinders n bs) (analysedInBinders bs)
  | [], _ => h.found []
  | b :: rest, hbs => by
    simp only [nestedInBinders, List.append_subset] at hbs
    show P _ ([] ++ (b.analysed ++ analysedInBinders rest))
    exact h.andThen (h.found b.conflicts) (h.andThen (h.binder hbs.1) (h.binders hbs.2))

theorem typeInput (h : AnalysisClosed es P) : ∀ {i : TypeInput}, i.nested ⊆ es →
    P (fun n => i.analyzeParts n) i.analysed
  | ⟨_, ty⟩, hi => h.ty (show ty.nested ⊆ es from hi)

theorem typeInputs (h : AnalysisClosed es P) :
    ∀ {is : List TypeInput}, nestedInTypeInputs is ⊆ es →
    P (fun n => analyzeTypeInputs n is) (analysedInTypeInputs is)
  | [], _ => h.found []
  | i :: rest, his => by
    simp only [nestedInTypeInputs, List.append_subset] at his
    exact h.andThen (h.typeInput his.1) (h.typeInputs his.2)

theorem function (h : AnalysisClosed es P) : ∀ {f : FunctionDef}, f.nested ⊆ es →
    P (fun n => f.analyzeParts n) f.analysed
  | ⟨_, _, _, inputs, output, body⟩, hf => by
    simp only [FunctionDef.nested, List.append_subset] at hf
    exact h.andThen (h.binders hf.1.1) (h.andThen (h.ty? hf.1.2) (h.expr? hf.2))

theorem struct (h : AnalysisClosed es P) : ∀ {s : StructDef}, s.nested ⊆ es →
    P (fun n => s.analyzeParts n) s.analysed
  | ⟨_, _, _, inputs, block⟩, hs => by
    simp only [StructDef.nested, List.append_subset] at hs
    exact h.andThen (h.binders hs.1) (h.expr? hs.2)

theorem ty (h : AnalysisClosed es P) : ∀ {t : Ty}, t.nested ⊆ es →
    P (fun n => t.analyzeParts n) t.analysed
  | .function _ inputs output, ht => by
    simp only [Ty.nested, List.append_subset] at ht
    exact h.andThen (h.binders ht.1) (h.ty ht.2)
  | .list item, ht => @ty h item ht
  | .table columns, ht => h.binders (show nestedInBinders columns ⊆ es from ht)
  | .struct _ args, ht => by
    simp only [Ty.nested, List.append_subset] at ht
    exact h.tys ht.2
  | .structDef _ args, ht => by
    simp only [Ty.nested, List.append_subset] at ht
    exact h.tys ht.2
  | .union members, ht => h.tys (show nestedInTys members ⊆ es from ht)
  | .number _, _ | .text _, _ | .boolean, _ | .var _, _ | .name _, _ | .any, _
  | .unknown .., _ => h.found []

theorem tys (h : AnalysisClosed es P) : ∀ {ts : List Ty}, nestedInTys ts ⊆ es →
    P (fun n => analyzeTys n ts) (analysedInTys ts)
  | [], _ => h.found []
  | t :: rest, hts => by
    simp only [nestedInTys, List.append_subset] at hts
    exact h.andThen (h.ty hts.1) (h.tys hts.2)

theorem ty? (h : AnalysisClosed es P) : ∀ {t : Option Ty}, nestedInTy? t ⊆ es →
    P (fun n => analyzeTy? n t) (analysedInTy? t)
  | none, _ => h.found []
  | some _, ht => h.ty ht

end

end AnalysisClosed

end Stepwise

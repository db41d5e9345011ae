import Stepwise.Syntax.Node

/-!
# Replacing one node

An `Edit` names a node by its identity and offers another in its place.  Applying it rebuilds the
tree: the node named becomes the node offered if the two are of the same kind, and everything else
keeps its identity.  A node of another kind leaves the place as it was.

Types are entered through function types, lists, tables and unions; all other types are kept as they
are.
-/

namespace Stepwise

/-- A node to put in the place of another. -/
inductive Replacement where
  | expr (e : Expr)
  | binder (b : Binder)
  | name (n : Name)
  | token (t : Token)
  | language (l : Language)
  | typeVariable (v : TypeVariable)
  | typeInput (i : TypeInput)

/-- The order to put `replacement` in the place of the node `target`. -/
structure Edit where
  target : NodeId
  replacement : Replacement

namespace Edit

/-! ## What an edit offers

Each function answers the node to put in the place of the node `id`, if `id` is the target and the
replacement is of the kind asked for. -/

/-- An expression for the place of `id`. -/
def expr? (edit : Edit) (id : NodeId) : Option Expr :=
  match edit.replacement with
  | .expr e => if id = edit.target then some e else none
  | _ => none

/-- A declaration for the place of `id`. -/
def binder? (edit : Edit) (id : NodeId) : Option Binder :=
  match edit.replacement with
  | .binder b => if id = edit.target then some b else none
  | _ => none

/-- A name for the place of `id`. -/
def name? (edit : Edit) (id : NodeId) : Option Name :=
  match edit.replacement with
  | .name n => if id = edit.target then some n else none
  | _ => none

/-- A token for the place of `id`. -/
def token? (edit : Edit) (id : NodeId) : Option Token :=
  match edit.replacement with
  | .token t => if id = edit.target then some t else none
  | _ => none

/-- A language tag for the place of `id`. -/
def language? (edit : Edit) (id : NodeId) : Option Language :=
  match edit.replacement with
  | .language l => if id = edit.target then some l else none
  | _ => none

/-- A type parameter for the place of `id`. -/
def typeVariable? (edit : Edit) (id : NodeId) : Option TypeVariable :=
  match edit.replacement with
  | .typeVariable v => if id = edit.target then some v else none
  | _ => none

/-- A type input for the place of `id`. -/
def typeInput? (edit : Edit) (id : NodeId) : Option TypeInput :=
  match edit.replacement with
  | .typeInput i => if id = edit.target then some i else none
  | _ => none

end Edit

/-! ## Leaves -/

/-- Applies an edit to a token. -/
def Token.replace (edit : Edit) (t : Token) : Token :=
  (edit.token? t.id).getD t

/-- Applies an edit to a language tag. -/
def Language.replace (edit : Edit) (l : Language) : Language :=
  (edit.language? l.id).getD l

/-- Applies an edit to a name. -/
def Name.replace (edit : Edit) (n : Name) : Name :=
  (edit.name? n.id).getD ⟨n.id, n.token.replace edit, n.language.map (·.replace edit)⟩

/-- Applies an edit to a type parameter. -/
def TypeVariable.replace (edit : Edit) (v : TypeVariable) : TypeVariable :=
  (edit.typeVariable? v.id).getD ⟨v.id, v.name.replace edit⟩

/-! ## Trees -/

mutual

/-- Applies an edit to an expression. -/
def Expr.replace (edit : Edit) : Expr → Expr
  | .boolean i t v => (edit.expr? i).getD (.boolean i (t.replace edit) v)
  | .number i t a u => (edit.expr? i).getD (.number i (t.replace edit) a u)
  | .text i t l => (edit.expr? i).getD (.text i (t.replace edit) (l.map (·.replace edit)))
  | .list i o es c =>
    (edit.expr? i).getD (.list i (o.replace edit) (replaceInExprs edit es) (c.replace edit))
  | .conditional i c q y n =>
    (edit.expr? i).getD
      (.conditional i (c.replace edit) (q.replace edit) (y.replace edit) (n.replace edit))
  | .call c => (edit.expr? c.id).getD (.call (c.replace edit))
  | .delete i t m q =>
    (edit.expr? i).getD (.delete i (t.replace edit) (m.replace edit) (q.replace edit))
  | .insert i t m cs =>
    (edit.expr? i).getD (.insert i (t.replace edit) (m.replace edit) (replaceInBinders edit cs))
  | .reference i t => (edit.expr? i).getD (.reference i (t.replace edit))
  | .access i s d n =>
    (edit.expr? i).getD (.access i (s.replace edit) (d.replace edit) (n.replace edit))
  | .binary i l m o r =>
    (edit.expr? i).getD (.binary i (l.replace edit) (m.replace edit) o (r.replace edit))
  | .unary i m o e => (edit.expr? i).getD (.unary i (m.replace edit) o (e.replace edit))
  | .function f => (edit.expr? f.id).getD (.function (f.replace edit))
  | .struct s => (edit.expr? s.id).getD (.struct (s.replace edit))
  | .block i es => (edit.expr? i).getD (.block i (replaceInExprs edit es))
  | .bind b => (edit.expr? b.id).getD (.bind (b.replace edit))
  | .unparsable i ts => (edit.expr? i).getD (.unparsable i (ts.map (·.replace edit)))
termination_by structural e => e

/-- Applies an edit to expressions. -/
def replaceInExprs (edit : Edit) : List Expr → List Expr
  | [] => []
  | e :: rest => e.replace edit :: replaceInExprs edit rest
termination_by structural es => es

/-- Applies an edit to an optional expression. -/
def replaceInExpr? (edit : Edit) : Option Expr → Option Expr
  | none => none
  | some e => some (e.replace edit)
termination_by structural e => e

/-- Applies an edit to the parts of a call. -/
def Call.replace (edit : Edit) : Call → Call
  | ⟨i, ts, f, o, es, c⟩ =>
    ⟨i, replaceInTypeInputs edit ts, f.replace edit, o.replace edit, replaceInExprs edit es,
      c.replace edit⟩
termination_by structural c => c

/-- Applies an edit to a declaration. -/
def Binder.replace (edit : Edit) : Binder → Binder
  | ⟨i, ns, t, v, r⟩ =>
    (edit.binder? i).getD
      ⟨i, ns.map (·.replace edit), replaceInTy? edit t, replaceInExpr? edit v, r⟩
termination_by structural b => b

/-- Applies an edit to declarations. -/
def replaceInBinders (edit : Edit) : List Binder → List Binder
  | [] => []
  | b :: rest => b.replace edit :: replaceInBinders edit rest
termination_by structural bs => bs

/-- Applies an edit to a type input. -/
def TypeInput.replace (edit : Edit) : TypeInput → TypeInput
  | ⟨i, t⟩ => (edit.typeInput? i).getD ⟨i, t.replace edit⟩
termination_by structural i => i

/-- Applies an edit to type inputs. -/
def replaceInTypeInputs (edit : Edit) : List TypeInput → List TypeInput
  | [] => []
  | i :: rest => i.replace edit :: replaceInTypeInputs edit rest
termination_by structural is => is

/-- Applies an edit to the parts of a function definition. -/
def FunctionDef.replace (edit : Edit) : FunctionDef → FunctionDef
  | ⟨i, ns, vs, ins, o, b⟩ =>
    ⟨i, ns.map (·.replace edit), vs.map (·.replace edit), replaceInBinders edit ins,
      replaceInTy? edit o, replaceInExpr? edit b⟩
termination_by structural f => f

/-- Applies an edit to the parts of a structure definition. -/
def StructDef.replace (edit : Edit) : StructDef → StructDef
  | ⟨i, ns, vs, ins, b⟩ =>
    ⟨i, ns.map (·.replace edit), vs.map (·.replace edit), replaceInBinders edit ins,
      replaceInExpr? edit b⟩
termination_by structural s => s

/-- Applies an edit inside a type. -/
def Ty.replace (edit : Edit) : Ty → Ty
  | .function vs ins o =>
    .function (vs.map (·.replace edit)) (replaceInBinders edit ins) (o.replace edit)
  | .list t => .list (t.replace edit)
  | .table cs => .table (replaceInBinders edit cs)
  | .union ms => .union (replaceInTys edit ms)
  | other => other
termination_by structural t => t

/-- Applies an edit inside types. -/
def replaceInTys (edit : Edit) : List Ty → List Ty
  | [] => []
  | t :: rest => t.replace edit :: replaceInTys edit rest
termination_by structural ts => ts

/-- Applies an edit inside an optional type. -/
def replaceInTy? (edit : Edit) : Option Ty → Option Ty
  | none => none
  | some t => some (t.replace edit)
termination_by structural t => t

end

end Stepwise

import Stepwise.Syntax.Tree

/-!
# Walking a tree

`Node` is any node of a program tree, and `children` lists the nodes directly below one in source
order.  `descendants` lists a node and everything beneath it: a worklist holds the nodes still to be
visited, and visiting a node puts its children in front of them.  `size` counts the nodes of a tree
and bounds the length of the walk.

The walk lists the children of a table type, a union and so on; a number type and a written name
have none, and of a structure type only the arguments are walked, not the definition.
-/

namespace Stepwise

/-- A node of a program tree. -/
inductive Node where
  | expr (e : Expr)
  | binder (b : Binder)
  | name (n : Name)
  | token (t : Token)
  | language (l : Language)
  | typeVariable (v : TypeVariable)
  | typeInput (i : TypeInput)
  | ty (t : Ty)

namespace Node

/-! ## Children -/

/-- The children of a name: its token, then its language tag. -/
def childrenOfName (n : Name) : List Node :=
  .token n.token :: (n.language.map Node.language).toList

/-- The children of a declaration: its names, its written type, its value. -/
def childrenOfBinder (b : Binder) : List Node :=
  b.names.map .name ++ (b.ty.map Node.ty).toList ++ (b.value.map Node.expr).toList

/-- The children that function and structure definitions begin with. -/
def childrenOfHead (names : List Name) (vars : List TypeVariable) (inputs : List Binder) :
    List Node :=
  names.map .name ++ vars.map .typeVariable ++ inputs.map .binder

/-- The children of an expression. -/
def childrenOfExpr : Expr → List Node
  | .boolean _ tok _ => [.token tok]
  | .number _ tok .. => [.token tok]
  | .text _ tok tag => .token tok :: (tag.map Node.language).toList
  | .list _ opening items closing => .token opening :: items.map .expr ++ [.token closing]
  | .conditional _ condition question yes no =>
    [.expr condition, .token question, .expr yes, .expr no]
  | .call c =>
    c.typeInputs.map .typeInput ++ .expr c.callee :: .token c.opening :: c.inputs.map .expr
      ++ [.token c.closing]
  | .delete _ table mark query => [.expr table, .token mark, .expr query]
  | .insert _ table mark cells => .expr table :: .token mark :: cells.map .binder
  | .reference _ tok => [.token tok]
  | .access _ subject dot member => [.expr subject, .token dot, .token member]
  | .binary _ left mark _ right => [.expr left, .token mark, .expr right]
  | .unary _ mark _ operand => [.token mark, .expr operand]
  | .function f =>
    childrenOfHead f.names f.typeVars f.inputs ++ (f.output.map Node.ty).toList
      ++ (f.body.map Node.expr).toList
  | .struct s => childrenOfHead s.names s.typeVars s.inputs ++ (s.block.map Node.expr).toList
  | .block _ statements => statements.map .expr
  | .bind b => childrenOfBinder b
  | .unparsable _ tokens => tokens.map .token

/-- The children of a type. -/
def childrenOfTy : Ty → List Node
  | .function vars inputs output => vars.map .typeVariable ++ inputs.map .binder ++ [.ty output]
  | .list item => [.ty item]
  | .table columns => columns.map .binder
  | .struct _ args => args.map .ty
  | .structDef _ args => args.map .ty
  | .union members => members.map .ty
  | _ => []

/-- The nodes directly below a node, in source order. -/
def children : Node → List Node
  | .expr e => childrenOfExpr e
  | .binder b => childrenOfBinder b
  | .name n => childrenOfName n
  | .token _ => []
  | .language _ => []
  | .typeVariable v => [.name v.name]
  | .typeInput i => [.ty i.ty]
  | .ty t => childrenOfTy t

/-- The kind of a node, in a word. -/
def kindName : Node → String
  | .expr _ => "Expr"
  | .binder _ => "Bind"
  | .name _ => "Name"
  | .token _ => "Token"
  | .language _ => "Language"
  | .typeVariable _ => "TypeVariable"
  | .typeInput _ => "TypeInput"
  | .ty _ => "Type"

/-- The identity of a node; types have none. -/
def id? : Node → Option NodeId
  | .expr e => some e.id
  | .binder b => some b.id
  | .name n => some n.id
  | .token t => some t.id
  | .language l => some l.id
  | .typeVariable v => some v.id
  | .typeInput i => some i.id
  | .ty _ => none

/-- The expression that a node is. -/
def asExpr? : Node → Option Expr
  | .expr e => some e
  | _ => none

/-- The declaration that a node is, be it an expression or not. -/
def asBinder? : Node → Option Binder
  | .binder b => some b
  | .expr (.bind b) => some b
  | _ => none

end Node

/-! ## Sizes

The number of nodes in a tree, itself included. -/

/-- The nodes of a name. -/
def Name.size (name : Name) : Nat :=
  2 + name.language.toList.length

/-- The nodes of a list of names. -/
def sizeOfNames : List Name → Nat
  | [] => 0
  | n :: rest => n.size + sizeOfNames rest

/-- The nodes of a list of type parameters. -/
def sizeOfTypeVariables : List TypeVariable → Nat
  | [] => 0
  | v :: rest => 1 + v.name.size + sizeOfTypeVariables rest

mutual

/-- The nodes of an expression. -/
def Expr.size : Expr → Nat
  | .boolean .. => 2
  | .number .. => 2
  | .text _ _ language => 2 + language.toList.length
  | .list _ _ items _ => 3 + sizeOfExprs items
  | .conditional _ condition _ yes no => 2 + condition.size + yes.size + no.size
  | .call c => c.size
  | .delete _ table _ query => 2 + table.size + query.size
  | .insert _ table _ cells => 2 + table.size + sizeOfBinders cells
  | .reference .. => 2
  | .access _ subject _ _ => 3 + subject.size
  | .binary _ left _ _ right => 2 + left.size + right.size
  | .unary _ _ _ operand => 2 + operand.size
  | .function f => f.size
  | .struct s => s.size
  | .block _ statements => 1 + sizeOfExprs statements
  | .bind b => b.size
  | .unparsable _ tokens => 1 + tokens.length
termination_by structural e => e

/-- The nodes of a list of expressions. -/
def sizeOfExprs : List Expr → Nat
  | [] => 0
  | e :: rest => e.size + sizeOfExprs rest
termination_by structural es => es

/-- The nodes of an optional expression. -/
def sizeOfExpr? : Option Expr → Nat
  | none => 0
  | some e => e.size
termination_by structural e => e

/-- The nodes of a call. -/
def Call.size : Call → Nat
  | ⟨_, types, callee, _, inputs, _⟩ =>
    3 + sizeOfTypeInputs types + callee.size + sizeOfExprs inputs
termination_by structural c => c

/-- The nodes of a declaration. -/
def Binder.size : Binder → Nat
  | ⟨_, names, ty, value, _⟩ => 1 + sizeOfNames names + sizeOfTy? ty + sizeOfExpr? value
termination_by structural b => b

/-- The nodes of a list of declarations. -/
def sizeOfBinders : List Binder → Nat
  | [] => 0
  | b :: rest => b.size + sizeOfBinders rest
termination_by structural bs => bs

/-- The nodes of a type input. -/
def TypeInput.size : TypeInput → Nat
  | ⟨_, ty⟩ => 1 + ty.size
termination_by structural i => i

/-- The nodes of a list of type inputs. -/
def sizeOfTypeInputs : List TypeInput → Nat
  | [] => 0
  | i :: rest => i.size + sizeOfTypeInputs rest
termination_by structural is => is

/-- The nodes of a function definition. -/
def FunctionDef.size : FunctionDef → Nat
  | ⟨_, names, vars, inputs, output, body⟩ =>
    1 + sizeOfNames names + sizeOfTypeVariables vars + sizeOfBinders inputs + sizeOfTy? output
      + sizeOfExpr? body
termination_by structural f => f

/-- The nodes of a structure definition. -/
def StructDef.size : StructDef → Nat
  | ⟨_, names, vars, inputs, block⟩ =>
    1 + sizeOfNames names + sizeOfTypeVariables vars + sizeOfBinders inputs + sizeOfExpr? block
termination_by structural s => s

/-- The nodes of a type. -/
def Ty.size : Ty → Nat
  | .function vars inputs output =>
    1 + sizeOfTypeVariables vars + sizeOfBinders inputs + output.size
  | .list item => 1 + item.size
  | .table columns => 1 + sizeOfBinders columns
  | .struct _ args => 1 + sizeOfTys args
  | .structDef _ args => 1 + sizeOfTys args
  | .union members => 1 + sizeOfTys members
  | _ => 1
termination_by structural t => t

/-- The nodes of a list of types. -/
def sizeOfTys : List Ty → Nat
  | [] => 0
  | t :: rest => t.size + sizeOfTys rest
termination_by structural ts => ts

/-- The nodes of an optional type. -/
def sizeOfTy? : Option Ty → Nat
  | none => 0
  | some t => t.size
termination_by structural t => t

end

namespace Node

/-- The number of nodes of a tree. -/
def size : Node → Nat
  | .expr e => e.size
  | .binder b => b.size
  | .name n => n.size
  | .token _ => 1
  | .language _ => 1
  | .typeVariable v => 1 + v.name.size
  | .typeInput i => i.size
  | .ty t => t.size

/-! ## The walk -/

/-- Visits at most `fuel` nodes of a worklist.  Visiting a node puts its children in front of the
nodes that were waiting. -/
def walk : Nat → List Node → List Node
  | 0, _ => []
  | _, [] => []
  | fuel + 1, node :: waiting => node :: walk fuel (node.children ++ waiting)

/-- A node and everything beneath it, parents before children and children in source order. -/
def descendants (root : Node) : List Node :=
  walk root.size [root]

/-- The first descendant with the given identity. -/
def find? (root : Node) (id : NodeId) : Option Node :=
  root.descendants.find? (·.id? == some id)

end Node

end Stepwise

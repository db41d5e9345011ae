import Stepwise.Call.Check

/-!
# Analysis

`Expr.conflicts` gives the conflicts of one expression, and `Expr.analyze` those of an expression
and everything beneath it: of each expression and declaration once, parents before children and in
source order, declarations inside written types included.

The query of a table operation is analysed where the columns of the table are names.

Operands of unknown type are not reported; whatever made them unknown is reported where it stands.
-/

namespace Stepwise

/-! ## Tables -/

/-- The type of a table operand, with names resolved. -/
def tableOperand (budget : Nat) (table : Expr) : Query Ty := do
  resolved (← table.typeOf budget)

/-- The columns of a type; none if it is not a table. -/
def Ty.columns : Ty → List Binder
  | .table columns => columns
  | _ => []

/-- The names of columns, which a query sees in front of all others. -/
def columnNames (columns : List Binder) : List (String × Definition) :=
  columns.flatMap fun column => pairAliases column.aliases (.bind column)

/-- Runs a query about the condition of a table operation where the columns of the table are
names. -/
def inQueryOf {α : Type} (budget : Nat) (table : Expr) (query : Query α) : Query α := do
  let ty ← tableOperand budget table
  Query.inScope (columnNames ty.columns) query

/-- The conflict of a table operand that is not a table. -/
def tableConflict (budget : Nat) (table : Expr) : Query (List Conflict) := do
  if table.isUnparsable then return []
  match ← tableOperand budget table with
  | .table _ => pure []
  | .unknown .. => pure []
  | ty => pure [{ kind := .notATable ty, primary := [table.id] }]

/-- The conflict of a query that is not a boolean. -/
def queryConflict (budget : Nat) (query : Expr) : Query (List Conflict) := do
  let ty ← query.typeOf budget
  if ty.isUnknown then pure []
  else if ← Ty.boolean.accepts budget ty then pure []
  else pure [{ kind := .nonBooleanQuery ty, primary := [query.id] }]

/-- The conflict of one cell of an inserted row. -/
def cellConflict (budget : Nat) (columns : List Binder) (cell : Binder) :
    Query (List Conflict) := do
  match columns.find? (·.sharesName cell) with
  | none => pure [{ kind := .unknownColumn cell.primaryName, primary := [cell.id] }]
  | some column =>
    match cell.value with
    | none => pure []
    | some value =>
      if value.isUnparsable then pure []
      else do
        let expected ← column.typeOf budget
        let given ← value.typeOf budget
        if given.isUnknown then pure []
        else if ← expected.accepts budget given then pure []
        else
          pure [{ kind := .incompatibleCell cell.primaryName expected given, primary := [value.id],
                  secondary := some [column.id] }]

/-- The conflicts of the cells of an inserted row. -/
def cellConflicts (budget : Nat) (columns : List Binder) : List Binder → Query (List Conflict)
  | [] => pure []
  | cell :: cells => do
    let own ← cellConflict budget columns cell
    let others ← cellConflicts budget columns cells
    pure (own ++ others)

/-- The conflicts of inserting a row. -/
def insertConflicts (budget : Nat) (table : Expr) (cells : List Binder) :
    Query (List Conflict) := do
  let own ← tableConflict budget table
  match ← tableOperand budget table with
  | .table columns => do
    let others ← cellConflicts budget columns cells
    pure (own ++ others)
  | _ => pure own

/-! ## Conditionals and operators -/

/-- The conflict of a condition that is not a boolean. -/
def conditionConflict (budget : Nat) (condition : Expr) : Query (List Conflict) := do
  let ty ← condition.typeOf budget
  if ty.isUnknown then pure []
  else if ← Ty.boolean.accepts budget ty then pure []
  else pure [{ kind := .expectedBooleanCondition ty, primary := [condition.id] }]

/-- The conflict of branches of different types; a branch that could not be parsed has none. -/
def branchConflict (budget : Nat) (yes no : Expr) : Query (List Conflict) := do
  if yes.isUnparsable || no.isUnparsable then return []
  let yesTy ← yes.typeOf budget
  let noTy ← no.typeOf budget
  if yesTy.isUnknown || noTy.isUnknown then pure []
  else if ← yesTy.compatible budget noTy then pure []
  else
    pure [{ kind := .incompatibleBranches yesTy noTy, primary := [yes.id],
            secondary := some [no.id] }]

/-- The conflict of an operand that is not of the expected type. -/
def operandConflict (budget : Nat) (symbol : String) (expected given : Ty) (operand : Expr) :
    Query (List Conflict) := do
  if ← expected.accepts budget given then pure []
  else pure [{ kind := .incompatibleOperand symbol expected given, primary := [operand.id] }]

/-- The type that an operator on numbers expects on its right, when `left` is the type on its
left. -/
def rightOperandType (op : BinaryOperator) (left : Ty) : Ty :=
  match op with
  | .add | .subtract | .less | .greater => left
  | .power => .plainNumber
  | _ => .anyNumber

/-- The conflicts of an operation on operands of the given types.  A right operand is compared only
if the left one is right. -/
def operationConflicts (budget : Nat) (op : BinaryOperator) (left right : Expr)
    (leftTy rightTy : Ty) : Query (List Conflict) := do
  match op with
  | .equal | .notEqual => pure []
  | .and | .or => do
    let own ← operandConflict budget op.symbol .boolean leftTy left
    let others ← operandConflict budget op.symbol .boolean rightTy right
    pure (own ++ others)
  | _ =>
    match ← operandConflict budget op.symbol .anyNumber leftTy left with
    | [] => operandConflict budget op.symbol (rightOperandType op leftTy) rightTy right
    | found => pure found

/-- The conflicts of an operation on two operands. -/
def binaryConflicts (budget : Nat) (op : BinaryOperator) (left right : Expr) :
    Query (List Conflict) := do
  let leftTy ← left.typeOf budget
  let rightTy ← right.typeOf budget
  if leftTy.isUnknown || rightTy.isUnknown then pure []
  else operationConflicts budget op left right leftTy rightTy

/-- The type that an operator expects of its only operand. -/
def UnaryOperator.operandType : UnaryOperator → Ty
  | negate => .anyNumber
  | not => .boolean

/-- The conflict of an operation on one operand. -/
def unaryConflicts (budget : Nat) (op : UnaryOperator) (operand : Expr) :
    Query (List Conflict) := do
  let ty ← operand.typeOf budget
  if ty.isUnknown then pure [] else operandConflict budget op.symbol op.operandType ty operand

/-! ## Names -/

/-- The conflict of a name that nothing declares. -/
def referenceConflicts (id : NodeId) (name : String) : Query (List Conflict) := do
  match (← read).find? name with
  | some _ => pure []
  | none => pure [{ kind := .unknownName name, primary := [id] }]

/-- The conflict of a member that the structure does not have.  Only structures have members that
can be checked. -/
def accessConflicts (budget : Nat) (id : NodeId) (subject : Expr) (member : String) :
    Query (List Conflict) := do
  match ← resolved (← subject.typeOf budget) with
  | .struct definition args =>
    match ← definition.memberTypeOf budget args member with
    | some _ => pure []
    | none => pure [{ kind := .unknownName member, primary := [id] }]
  | _ => pure []

/-! ## Whole trees -/

/-- The conflicts of a declaration itself. -/
def Binder.conflicts (b : Binder) : List Conflict :=
  languageConflicts b.names

/-- The conflicts of an expression itself. -/
def Expr.conflicts (budget : Nat) : Expr → Query (List Conflict)
  | .conditional _ condition _ yes no => do
    let own ← conditionConflict budget condition
    let others ← branchConflict budget yes no
    pure (own ++ others)
  | .call c => c.conflicts budget
  | .delete _ table _ query => do
    let own ← tableConflict budget table
    let others ← inQueryOf budget table (queryConflict budget query)
    pure (own ++ others)
  | .insert _ table _ cells => insertConflicts budget table cells
  | .reference id name => referenceConflicts id name.text
  | .access id subject _ member => accessConflicts budget id subject member.text
  | .binary _ left _ op right => binaryConflicts budget op left right
  | .unary _ _ op operand => unaryConflicts budget op operand
  | .function f => pure (definitionConflicts f.names f.inputs)
  | .struct s => pure (definitionConflicts s.names s.inputs)
  | .bind b => pure b.conflicts
  | _ => pure []

/-- The results of two analyses, one after the other. -/
def Query.andThen (first second : Query (List Conflict)) : Query (List Conflict) := do
  let a ← first
  let b ← second
  pure (a ++ b)

mutual

/-- The conflicts of an expression and of everything beneath it. -/
def Expr.analyze (budget : Nat) (e : Expr) : Query (List Conflict) :=
  (e.conflicts budget).andThen <|
    match e with
    | .list _ _ items _ => analyzeExprs budget items
    | .conditional _ condition _ yes no =>
      (condition.analyze budget).andThen ((yes.analyze budget).andThen (no.analyze budget))
    | .call c => c.analyzeParts budget
    | .delete _ table _ query =>
      (table.analyze budget).andThen (inQueryOf budget table (query.analyze budget))
    | .insert _ table _ cells => (table.analyze budget).andThen (analyzeBinders budget cells)
    | .access _ subject _ _ => subject.analyze budget
    | .binary _ left _ _ right => (left.analyze budget).andThen (right.analyze budget)
    | .unary _ _ _ operand => operand.analyze budget
    | .function f => f.analyzeParts budget
    | .struct s => s.analyzeParts budget
    | .block _ statements => analyzeExprs budget statements
    | .bind b => b.analyzeParts budget
    | _ => pure []
termination_by structural e

/-- The conflicts of expressions and of everything beneath them. -/
def analyzeExprs (budget : Nat) : List Expr → Query (List Conflict)
  | [] => pure []
  | e :: rest => (e.analyze budget).andThen (analyzeExprs budget rest)
termination_by structural es => es

/-- The conflicts of an optional expression and of everything beneath it. -/
def analyzeExpr? (budget : Nat) : Option Expr → Query (List Conflict)
  | none => pure []
  | some e => e.analyze budget
termination_by structural e => e

/-- The conflicts of everything beneath a call. -/
def Call.analyzeParts (budget : Nat) : Call → Query (List Conflict)
  | ⟨_, types, callee, _, inputs, _⟩ =>
    (analyzeTypeInputs budget types).andThen
      ((callee.analyze budget).andThen (analyzeExprs budget inputs))
termination_by structural c => c

/-- The conflicts of everything beneath a declaration. -/
def Binder.analyzeParts (budget : Nat) : Binder → Query (List Conflict)
  | ⟨_, _, ty, value, _⟩ => (analyzeTy? budget ty).andThen (analyzeExpr? budget value)
termination_by structural b => b

/-- The conflicts of declarations and of everything beneath them. -/
def analyzeBinders (budget : Nat) : List Binder → Query (List Conflict)
  | [] => pure []
  | b :: rest =>
    (pure b.conflicts : Query _).andThen
      ((b.analyzeParts budget).andThen (analyzeBinders budget rest))
termination_by structural bs => bs

/-- The conflicts of everything beneath a type input. -/
def TypeInput.analyzeParts (budget : Nat) : TypeInput → Query (List Conflict)
  | ⟨_, ty⟩ => ty.analyzeParts budget
termination_by structural i => i

/-- The conflicts of everything beneath type inputs. -/
def analyzeTypeInputs (budget : Nat) : List TypeInput → Query (List Conflict)
  | [] => pure []
  | i :: rest => (i.analyzeParts budget).andThen (analyzeTypeInputs budget rest)
termination_by structural is => is

/-- The conflicts of everything beneath a function definition. -/
def FunctionDef.analyzeParts (budget : Nat) : FunctionDef → Query (List Conflict)
  | ⟨_, _, _, inputs, output, body⟩ =>
    (analyzeBinders budget inputs).andThen
      ((analyzeTy? budget output).andThen (analyzeExpr? budget body))
termination_by structural f => f

/-- The conflicts of everything beneath a structure definition. -/
def StructDef.analyzeParts (budget : Nat) : StructDef → Query (List Conflict)
  | ⟨_, _, _, inputs, block⟩ =>
    (analyzeBinders budget inputs).andThen (analyzeExpr? budget block)
termination_by structural s => s

/-- The conflicts of everything beneath a type. -/
def Ty.analyzeParts (budget : Nat) : Ty → Query (List Conflict)
  | .function _ inputs output =>
    (analyzeBinders budget inputs).andThen (output.analyzeParts budget)
  | .list item => item.analyzeParts budget
  | .table columns => analyzeBinders budget columns
  | .struct _ args => analyzeTys budget args
  | .structDef _ args => analyzeTys budget args
  | .union members => analyzeTys budget members
  | _ => pure []
termination_by structural t => t

/-- The conflicts of everything beneath types. -/
def analyzeTys (budget : Nat) : List Ty → Query (List Conflict)
  | [] => pure []
  | t :: rest => (t.analyzeParts budget).andThen (analyzeTys budget rest)
termination_by structural ts => ts

/-- The conflicts of everything beneath an optional type. -/
def analyzeTy? (budget : Nat) : Option Ty → Query (List Conflict)
  | none => pure []
  | some t => t.analyzeParts budget
termination_by structural t => t

end

end Stepwise

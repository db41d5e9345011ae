import Stepwise.Syntax.Tree

/-!
# Equality of trees

Two trees are equal when they have the same form, the same identities and the same tokens
throughout.  There are two exceptions.  Structure types are equal when they name the same
definition, by its identity, and have equal arguments.  Amounts are compared as numbers: a negative
zero equals zero, and a number that is not a number equals nothing, so that a tree which holds one
does not equal itself.
-/

namespace Stepwise

/-- Equality of constants, which compares numbers and not bit patterns. -/
def beqConstant : Option Float → Option Float → Bool
  | none, none => true
  | some x, some y => x == y
  | _, _ => false

mutual

/-- Equality of expressions. -/
def Expr.beq : Expr → Expr → Bool
  | .boolean i t v, .boolean i' t' v' => i == i' && t == t' && v == v'
  | .number i t a u, .number i' t' a' u' => i == i' && t == t' && a == a' && u == u'
  | .text i t l, .text i' t' l' => i == i' && t == t' && l == l'
  | .list i o es c, .list i' o' es' c' => i == i' && o == o' && beqExprs es es' && c == c'
  | .conditional i c q y n, .conditional i' c' q' y' n' =>
    i == i' && c.beq c' && q == q' && y.beq y' && n.beq n'
  | .call c, .call c' => c.beq c'
  | .delete i t m q, .delete i' t' m' q' => i == i' && t.beq t' && m == m' && q.beq q'
  | .insert i t m cs, .insert i' t' m' cs' => i == i' && t.beq t' && m == m' && beqBinders cs cs'
  | .reference i t, .reference i' t' => i == i' && t == t'
  | .access i s d n, .access i' s' d' n' => i == i' && s.beq s' && d == d' && n == n'
  | .binary i l m o r, .binary i' l' m' o' r' =>
    i == i' && l.beq l' && m == m' && o == o' && r.beq r'
  | .unary i m o e, .unary i' m' o' e' => i == i' && m == m' && o == o' && e.beq e'
  | .function d, .function d' => d.beq d'
  | .struct d, .struct d' => d.beq d'
  | .block i es, .block i' es' => i == i' && beqExprs es es'
  | .bind b, .bind b' => b.beq b'
  | .unparsable i ts, .unparsable i' ts' => i == i' && ts == ts'
  | _, _ => false
termination_by structural e => e

/-- Equality of lists of expressions. -/
def beqExprs : List Expr → List Expr → Bool
  | [], [] => true
  | a :: as, b :: bs => a.beq b && beqExprs as bs
  | _, _ => false
termination_by structural es => es

/-- Equality of optional expressions. -/
def beqExpr? : Option Expr → Option Expr → Bool
  | none, none => true
  | some a, some b => a.beq b
  | _, _ => false
termination_by structural e => e

/-- Equality of calls. -/
def Call.beq : Call → Call → Bool
  | ⟨i, ts, f, o, es, c⟩, ⟨i', ts', f', o', es', c'⟩ =>
    i == i' && beqTypeInputs ts ts' && f.beq f' && o == o' && beqExprs es es' && c == c'
termination_by structural c => c

/-- Equality of declarations. -/
def Binder.beq : Binder → Binder → Bool
  | ⟨i, ns, t, v, r⟩, ⟨i', ns', t', v', r'⟩ =>
    i == i' && ns == ns' && beqTy? t t' && beqExpr? v v' && r == r'
termination_by structural b => b

/-- Equality of lists of declarations. -/
def beqBinders : List Binder → List Binder → Bool
  | [], [] => true
  | a :: as, b :: bs => a.beq b && beqBinders as bs
  | _, _ => false
termination_by structural bs => bs

/-- Equality of type inputs. -/
def TypeInput.beq : TypeInput → TypeInput → Bool
  | ⟨i, t⟩, ⟨i', t'⟩ => i == i' && t.beq t'
termination_by structural t => t

/-- Equality of lists of type inputs. -/
def beqTypeInputs : List TypeInput → List TypeInput → Bool
  | [], [] => true
  | a :: as, b :: bs => a.beq b && beqTypeInputs as bs
  | _, _ => false
termination_by structural ts => ts

/-- Equality of function definitions. -/
def FunctionDef.beq : FunctionDef → FunctionDef → Bool
  | ⟨i, ns, vs, ins, o, b⟩, ⟨i', ns', vs', ins', o', b'⟩ =>
    i == i' && ns == ns' && vs == vs' && beqBinders ins ins' && beqTy? o o' && beqExpr? b b'
termination_by structural f => f

/-- Equality of structure definitions. -/
def StructDef.beq : StructDef → StructDef → Bool
  | ⟨i, ns, vs, ins, b⟩, ⟨i', ns', vs', ins', b'⟩ =>
    i == i' && ns == ns' && vs == vs' && beqBinders ins ins' && beqExpr? b b'
termination_by structural s => s

/-- Equality of types; structures are compared by the identity of their definitions. -/
def Ty.beq : Ty → Ty → Bool
  | .function vs ins o, .function vs' ins' o' => vs == vs' && beqBinders ins ins' && o.beq o'
  | .list t, .list t' => t.beq t'
  | .table cs, .table cs' => beqBinders cs cs'
  | .number u, .number u' => u.beq u'
  | .text l, .text l' => l == l'
  | .boolean, .boolean => true
  | .struct d as, .struct d' as' => d.id == d'.id && beqTys as as'
  | .structDef d as, .structDef d' as' => d.id == d'.id && beqTys as as'
  | .var n, .var n' => n == n'
  | .name n, .name n' => n == n'
  | .union ms, .union ms' => beqTys ms ms'
  | .any, .any => true
  | .unknown r n, .unknown r' n' => r == r' && n == n'
  | _, _ => false
termination_by structural t => t

/-- Equality of lists of types. -/
def beqTys : List Ty → List Ty → Bool
  | [], [] => true
  | a :: as, b :: bs => a.beq b && beqTys as bs
  | _, _ => false
termination_by structural ts => ts

/-- Equality of optional types. -/
def beqTy? : Option Ty → Option Ty → Bool
  | none, none => true
  | some a, some b => a.beq b
  | _, _ => false
termination_by structural t => t

/-- Equality of the units of number types. -/
def NumberUnit.beq : NumberUnit → NumberUnit → Bool
  | .fixed u, .fixed u' => u == u'
  | .wildcard, .wildcard => true
  | .derived o l r c, .derived o' l' r' c' =>
    o == o' && l.beq l' && beqTy? r r' && beqConstant c c'
  | _, _ => false
termination_by structural u => u

end

instance : BEq Expr := ⟨Expr.beq⟩
instance : BEq Binder := ⟨Binder.beq⟩
instance : BEq Ty := ⟨Ty.beq⟩

end Stepwise

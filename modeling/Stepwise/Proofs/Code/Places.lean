import Stepwise.Proofs.Code.Inlining

/-!
# Places in code

Where evaluation can stand in a program, and which names have been bound by then, as far as its
code tells.  A `Place` is the code that is left with the names bound on the way to it.
`Source.Leads` relates a place to those that come next: behind the instruction, where a jump may
go, and at the start of the body of a function or of the block of a structure where the definition
is made.  There the names that are bound around the definition can be seen, its own names and its
inputs.

Names are bound by declarations, functions and structures when they are evaluated, not before.
The lexicon knows nothing of this: it holds all names of a program, wherever they are declared.
-/

namespace Stepwise

open Query Relation

/-! ## Places -/

/-- The names that finishing an expression binds. -/
def Expr.binds : Expr → List String
  | .bind b => b.aliases
  | .function f => f.aliases
  | .struct s => s.aliases
  | _ => []

/-- The names that the body of a function sees of the function itself. -/
def FunctionDef.ownNames (f : FunctionDef) : List String :=
  f.inputs.flatMap Binder.aliases ++ f.aliases

/-- The names that the block of a structure sees of the structure itself. -/
def StructDef.ownNames (s : StructDef) : List String :=
  s.inputs.flatMap Binder.aliases ++ s.aliases

/-- A place in the code of a program. -/
structure Place where
  /-- The code that is left. -/
  code : Code
  /-- The names that have been bound before. -/
  names : List String
  /-- The structure that is built, in the code of a block. -/
  owner : Option StructDef

/-- A program that is evaluated in a context, when so much is known already. -/
structure Source where
  root : Expr
  context : Context
  memo : Memo

namespace Source

/-- What may be known while the program is evaluated. -/
structure Knows (S : Source) (memo : Memo) : Prop where
  later : S.memo.Extends memo
  known : memo.Known S.context S.root.nested

/-- The code of an expression of the program, whenever it is lowered. -/
def Lowers (S : Source) (e : Expr) (code : Code) : Prop :=
  e.nested ⊆ S.root.nested ∧
    ∃ memo after, S.Knows memo ∧ Gives (fun n => e.lower n) S.context memo code after

/-- The code that builds the instances of a structure: that of its block, if it is not empty. -/
def LowersBlock (S : Source) (s : StructDef) (code : Code) : Prop :=
  match s.block with
  | none => code = []
  | some (.block _ []) => code = []
  | some block => S.Lowers block code

/-- Where evaluation may stand after a place.  The functions of a structure can be called through
its instances, and then they see what has been bound when the instance was complete. -/
inductive Leads (S : Source) : Place → Place → Prop
  | start (e : Expr) (rest : Code) (names : List String) (owner : Option StructDef) :
      Leads S ⟨.start e :: rest, names, owner⟩ ⟨rest, names, owner⟩
  | finish (e : Expr) (rest : Code) (names : List String) (owner : Option StructDef) :
      Leads S ⟨.finish e :: rest, names, owner⟩ ⟨rest, e.binds ++ names, owner⟩
  | jump (distance : Nat) (node : NodeId) (rest : Code) (names : List String)
      (owner : Option StructDef) :
      Leads S ⟨.jump distance node :: rest, names, owner⟩ ⟨rest.drop distance, names, owner⟩
  | holds (distance : Nat) (node : NodeId) (rest : Code) (names : List String)
      (owner : Option StructDef) :
      Leads S ⟨.jumpIfFalse distance node :: rest, names, owner⟩ ⟨rest, names, owner⟩
  | skips (distance : Nat) (node : NodeId) (rest : Code) (names : List String)
      (owner : Option StructDef) :
      Leads S ⟨.jumpIfFalse distance node :: rest, names, owner⟩
        ⟨rest.drop (distance + 1), names, owner⟩
  | body {f : FunctionDef} {body : Expr} {code : Code} (rest : Code) (names : List String)
      (owner : Option StructDef) (hbody : f.body = some body) (hcode : S.Lowers body code) :
      Leads S ⟨.finish (.function f) :: rest, names, owner⟩ ⟨code, f.ownNames ++ names, none⟩
  | block {s : StructDef} {code : Code} (rest : Code) (names : List String)
      (owner : Option StructDef) (hcode : S.LowersBlock s code) :
      Leads S ⟨.finish (.struct s) :: rest, names, owner⟩ ⟨code, s.ownNames ++ names, some s⟩
  | member {s : StructDef} {f : FunctionDef} {body : Expr} {code : Code} (names : List String)
      (hf : f ∈ s.functions) (hbody : f.body = some body) (hcode : S.Lowers body code) :
      Leads S ⟨[], names, some s⟩ ⟨code, f.ownNames ++ names, none⟩

/-- The places that evaluation may come to, from the start of the code of the program. -/
def Reaches (S : Source) (place : Place) : Prop :=
  ∃ code, S.Lowers S.root code ∧ ReflTransGen S.Leads ⟨code, [], none⟩ place

variable {S : Source} {place next : Place}

theorem Reaches.leads (h : S.Reaches place) (hnext : S.Leads place next) : S.Reaches next := by
  obtain ⟨code, hcode, hplace⟩ := h
  exact ⟨code, hcode, hplace.tail hnext⟩

/-- What holds at the start and is carried from place to place holds wherever evaluation may
come to. -/
theorem Reaches.induct {P : Place → Prop} (h : S.Reaches place)
    (hstart : ∀ code, S.Lowers S.root code → P ⟨code, [], none⟩)
    (hleads : ∀ place next, P place → S.Leads place next → P next) : P place := by
  obtain ⟨code, hcode, hplace⟩ := h
  induction hplace with
  | refl => exact hstart code hcode
  | tail _ hnext ih => exact hleads _ _ ih hnext

section Within

variable (hctx : S.context.Within S.root.nested)

include hctx

theorem Lowers.finishes {e : Expr} {code : Code} (h : S.Lowers e code) :
    FinishesWithin S.root.nested code := by
  obtain ⟨he, memo, after, hmemo, budget, hcode⟩ := h
  have hask := fun budget (e : Expr) he => answers_typeOf_known (e := e) hctx budget he
  exact ((answers_lower hask budget he).gives hmemo.known ⟨0, hcode⟩).1

theorem LowersBlock.finishes {s : StructDef} {code : Code} (h : S.LowersBlock s code) :
    FinishesWithin S.root.nested code := by
  unfold LowersBlock at h
  split at h
  · exact h ▸ finishesWithin_nil
  · exact h ▸ finishesWithin_nil
  · exact h.finishes hctx

/-- Lowering adds to what is known. -/
theorem Knows.lower {e : Expr} {budget : Nat} {code : Code} {memo after : Memo} (h : S.Knows memo)
    (he : e.nested ⊆ S.root.nested) (hcode : e.lower budget S.context memo = some (code, after)) :
    S.Knows after := by
  have hask := fun budget (e : Expr) he => answers_typeOf_known (e := e) hctx budget he
  have hgrows := (settles_lower (Nat.le_refl budget) e).grows hcode
  refine ⟨⟨hgrows.atRest h.later.atRest, fun id ty hty => ?_⟩, ?_⟩
  · exact hgrows.keeps id ty (h.later.keeps id ty hty)
  · exact ((answers_lower hask budget he).gives h.known ⟨0, hcode⟩).2

/-- What is finished where evaluation may come to is nested in the program. -/
theorem Reaches.finishes (h : S.Reaches place) : FinishesWithin S.root.nested place.code := by
  refine h.induct (P := fun place => FinishesWithin S.root.nested place.code)
    (fun code hcode => hcode.finishes hctx) fun place next hplace hnext => ?_
  cases hnext with
  | start => exact hplace.tail
  | finish => exact hplace.tail
  | jump => exact hplace.tail.drop _
  | holds => exact hplace.tail
  | skips => exact hplace.tail.drop _
  | body rest names owner hbody hcode => exact hcode.finishes hctx
  | block rest names owner hcode => exact hcode.finishes hctx
  | member names hf hbody hcode => exact hcode.finishes hctx

end Within

end Source

end Stepwise

import Stepwise.Proofs.Code.Nesting

/-!
# Statements that nothing skips

A jump stays within the code of the conditional that it belongs to.  So where expressions are
evaluated one after the other, none of them jumps past the end of another (`exists_unskipped`), and
code that has run to its end has come by the end of each.  The declarations among the statements of
a block are such expressions, and so is a declaration that takes the place of a block
(`finishes_declaration`).
-/

namespace Stepwise

/-- No jump in front of the address leads past it. -/
def Unskipped (code : Code) (address : Nat) : Prop :=
  ∀ cursor i target, cursor < address → code[cursor]? = some i →
    i.jumpTarget? cursor = some target → target ≤ address

/-- The expression finishes somewhere in the code, and nothing skips its end. -/
def Finishes (code : Code) (e : Expr) : Prop :=
  ∃ address, code[address]? = some (.finish e) ∧ Unskipped code address

/-- What lands in the front of a code does not lead past the front. -/
theorem Landing.unskipped {front : Code} (h : Landing front) (rest : Code) :
    Unskipped (front ++ rest) front.length := by
  intro cursor i target hlt hi ht
  rw [List.getElem?_append_left hlt] at hi
  have hlands := h.lands hi
  cases i with
  | jump distance node =>
    obtain rfl := Option.some.inj ht
    have hle := hlands.1
    rw [List.length_drop] at hle
    omega
  | jumpIfFalse distance node =>
    obtain rfl := Option.some.inj ht
    have hlt := hlands.1
    rw [List.length_drop] at hlt
    omega
  | _ => cases ht

theorem Landing.finishes {front : Code} (h : Landing front) (e : Expr) (rest : Code) :
    Finishes (front ++ .finish e :: rest) e := by
  refine ⟨front.length, ?_, h.unskipped _⟩
  rw [List.getElem?_append_right (Nat.le_refl _), Nat.sub_self]
  rfl

section Layouts

variable {ctx : Context} {memo after : Memo} {e : Expr} {parts inner : List Layout}

theorem landing_codeAll (h : ∀ part ∈ parts, part.Formed ctx) : Landing (codeAll parts) :=
  (balanced_codeAll fun part hmem => nests_code (h part hmem)).2

/-- Nothing in the code of several expressions skips the end of one of them. -/
theorem exists_unskipped (h : ∀ part ∈ parts, part.Formed ctx) (hmem : .node e inner ∈ parts) :
    ∃ front rest, codeAll parts = front ++ .finish e :: rest ∧ Landing front := by
  have hinner : ∀ part ∈ inner, part.Formed ctx := by
    cases h _ hmem
    assumption
  obtain ⟨before, behind, rfl⟩ := List.append_of_mem hmem
  have hbefore : ∀ part ∈ before, part.Formed ctx :=
    fun part hpart => h part (List.mem_append_left _ hpart)
  refine ⟨codeAll before ++ .start e :: codeAll inner, codeAll behind, ?_, ?_⟩
  · simp [codeAll_append, codeAll, Layout.code, enclose]
  · exact landing_append (landing_codeAll hbefore) ⟨trivial, landing_codeAll hinner⟩

theorem mem_layoutAll {layout : Expr → Query Layout} {es : List Expr}
    (h : layoutAll layout es ctx memo = some (parts, after)) (hmem : e ∈ es) :
    ∃ known found part, layout e ctx known = some (part, found) ∧ part ∈ parts := by
  induction es generalizing memo after parts with
  | nil => cases hmem
  | cons first rest ih =>
    obtain ⟨part, mid, hpart, h⟩ := Query.bind_eq_some.1 h
    obtain ⟨others, last, hothers, h⟩ := Query.bind_eq_some.1 h
    obtain ⟨rfl, -⟩ := Query.pure_eq_some.1 h
    rcases List.mem_cons.1 hmem with rfl | hmem
    · exact ⟨memo, mid, part, hpart, List.mem_cons_self⟩
    · obtain ⟨known, found, other, hother, hin⟩ := ih hothers hmem
      exact ⟨known, found, other, hother, List.mem_cons_of_mem _ hin⟩

/-- A declaration is evaluated with its value as its only part. -/
theorem layout_declaration {budget : Nat} {b : Binder} {found : Layout}
    (h : (Expr.bind b).layout budget ctx memo = some (found, after)) :
    ∃ part, found = .node (.bind b) [part] := by
  cases budget with
  | zero => cases h
  | succ budget =>
    obtain ⟨part, mid, -, h⟩ := Query.bind_eq_some.1 h
    obtain ⟨rfl, -⟩ := Query.pure_eq_some.1 h
    exact ⟨part, rfl⟩

/-- The code of a block finishes every declaration among its statements, and so does the code of an
expression that takes the place of a block. -/
theorem finishes_declaration {s : StructDef} {block : Expr} {b : Binder} {budget : Nat}
    {code : Code} (hblock : s.block = some block) (hb : .bind b ∈ s.statements)
    (h : block.lower budget ctx memo = some (code, after)) : Finishes code (.bind b) := by
  obtain ⟨found, hfound, rfl, hformed⟩ := exists_layout_of_lower h
  rw [StructDef.statements, hblock] at hb
  cases block with
  | block id statements =>
    cases budget with
    | zero => cases hfound
    | succ budget =>
      obtain ⟨parts, mid, hparts, hfound⟩ := Query.bind_eq_some.1 hfound
      obtain ⟨rfl, -⟩ := Query.pure_eq_some.1 hfound
      have hall : ∀ part ∈ parts, part.Formed ctx := by
        cases hformed
        assumption
      obtain ⟨known, later, part, hpart, hmem⟩ := mem_layoutAll hparts hb
      obtain ⟨value, rfl⟩ := layout_declaration hpart
      obtain ⟨front, rest, hcode, hfront⟩ := exists_unskipped hall hmem
      rw [Layout.code, enclose, hcode, ← List.cons_append, List.append_assoc]
      have hstart : Landing (.start (.block id statements) :: front) := ⟨trivial, hfront⟩
      exact hstart.finishes (.bind b) _
  | bind other =>
    obtain rfl : b = other := Expr.bind.inj (List.mem_singleton.1 hb)
    obtain ⟨value, rfl⟩ := layout_declaration hfound
    have hall : ∀ part ∈ [Layout.node (.bind b) [value]], part.Formed ctx :=
      List.forall_mem_singleton.2 hformed
    obtain ⟨front, rest, hcode, hfront⟩ := exists_unskipped hall List.mem_cons_self
    rw [codeAll, codeAll, List.append_nil] at hcode
    exact hcode ▸ hfront.finishes (.bind b) rest
  | _ => cases List.mem_singleton.1 hb

end Layouts

end Stepwise

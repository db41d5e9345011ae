import Stepwise.Proofs.Code.Layout

/-!
# The shape of code

At every place of a code it is known how many values the frame that runs it has laid out, and for
which of the expressions that have started and not finished yet: every piece of code leaves one
value, so they can be counted without running anything.  `Instruction.shape` is the effect of one
instruction on these counts, the levels.

Branches agree where they meet, expressions find as many values as they take, and every end belongs
to the start of the same expression; `Fits` says so of a code from some levels on.  The code of a
formed layout fits wherever it stands and adds one value (`laysOne_code`).
-/

namespace Stepwise

/-- The values laid out for an expression that has started, or by a frame for its result. -/
structure Level where
  /-- The expression, if they are laid out for one. -/
  owner : Option Expr
  count : Nat

/-- One value more on the innermost level. -/
def bump : List Level → List Level
  | [] => []
  | level :: outer => { level with count := level.count + 1 } :: outer

/-- One value less on the innermost level. -/
def unbump : List Level → List Level
  | [] => []
  | level :: outer => { level with count := level.count - 1 } :: outer

/-- The number of values on all levels. -/
def total : List Level → Nat
  | [] => 0
  | level :: outer => level.count + total outer

/-- What an instruction does to the levels.  What follows a jump is reached without the value that
the jump carries over it. -/
def Instruction.shape (levels : List Level) : Instruction → List Level
  | .start e => ⟨some e, 0⟩ :: levels
  | .finish e => if e.isLeaf then bump levels else bump levels.tail
  | .jump .. | .jumpIfFalse .. => unbump levels
  | .halt .. => bump levels

/-- The levels after a code. -/
def shapeAfter (levels : List Level) (code : Code) : List Level :=
  code.foldl Instruction.shape levels

@[simp] theorem shapeAfter_nil (levels : List Level) : shapeAfter levels [] = levels := rfl

@[simp] theorem shapeAfter_cons (levels : List Level) (i : Instruction) (code : Code) :
    shapeAfter levels (i :: code) = shapeAfter (i.shape levels) code := rfl

theorem shapeAfter_append (levels : List Level) (first others : Code) :
    shapeAfter levels (first ++ others) = shapeAfter (shapeAfter levels first) others :=
  List.foldl_append

@[simp] theorem unbump_bump (levels : List Level) : unbump (bump levels) = levels := by
  cases levels <;> rfl

theorem bump_ne_nil {levels : List Level} (h : levels ≠ []) : bump levels ≠ [] := by
  cases levels with
  | nil => exact absurd rfl h
  | cons => simp [bump]

theorem total_bump {levels : List Level} (h : levels ≠ []) :
    total (bump levels) = total levels + 1 := by
  cases levels with
  | nil => exact absurd rfl h
  | cons level outer =>
    simp only [bump, total]
    omega

/-- The expression has started on top of the levels `outer` and has not finished. -/
def Open (levels : List Level) (e : Expr) (outer : List Level) : Prop :=
  ∃ count, ⟨some e, count⟩ :: outer <:+ levels

theorem open_cons {level : Level} {levels outer : List Level} {e : Expr} :
    Open (level :: levels) e outer ↔
      level.owner = some e ∧ outer = levels ∨ Open levels e outer := by
  constructor
  · rintro ⟨count, h⟩
    rcases List.suffix_cons_iff.1 h with h | h
    · obtain ⟨rfl, rfl⟩ := List.cons.inj h
      exact Or.inl ⟨rfl, rfl⟩
    · exact Or.inr ⟨count, h⟩
  · rintro (⟨ho, rfl⟩ | ⟨count, h⟩)
    · obtain ⟨owner, count⟩ := level
      obtain rfl : owner = some e := ho
      exact ⟨count, List.suffix_rfl⟩
    · exact ⟨count, List.suffix_cons_iff.2 (Or.inr h)⟩

/-- How many values are laid out does not matter for what has started. -/
theorem open_bump {levels outer : List Level} {e : Expr} :
    Open (bump levels) e outer ↔ Open levels e outer := by
  cases levels with
  | nil => rfl
  | cons level rest => rw [bump, open_cons, open_cons]

theorem Open.total_le {levels outer : List Level} {e : Expr} (h : Open levels e outer) :
    total outer ≤ total levels := by
  induction levels with
  | nil =>
    obtain ⟨count, h⟩ := h
    exact absurd (List.suffix_nil.1 h) (List.cons_ne_nil _ _)
  | cons level rest ih =>
    rw [total]
    rcases open_cons.1 h with ⟨-, rfl⟩ | h
    · omega
    · have := ih h
      omega

/-- Whether an instruction finds the levels that it needs, given the code that follows. -/
def Instruction.Fits (ctx : Context) (levels : List Level) (rest : Code) : Instruction → Prop
  | .start _ | .halt .. => True
  | .finish e =>
    e.isLeaf = true ∨ e.isLeaf = false ∧
      ∃ count outer, levels = ⟨some e, count⟩ :: outer ∧ outer ≠ [] ∧ e.Parts ctx count
  | .jump distance _ =>
    distance ≤ rest.length ∧ shapeAfter (unbump levels) (rest.take distance) = levels
  | .jumpIfFalse distance _ =>
    (∃ below, below ≠ [] ∧ levels = bump below) ∧ distance + 1 ≤ rest.length ∧
      shapeAfter (unbump levels) (rest.take (distance + 1)) = unbump levels

/-- Whether all instructions of a code find the levels that they need. -/
def Fits (ctx : Context) (levels : List Level) : Code → Prop
  | [] => True
  | i :: rest => i.Fits ctx levels rest ∧ Fits ctx (i.shape levels) rest

variable {ctx : Context}

theorem Instruction.Fits.append {levels : List Level} {rest : Code} {i : Instruction}
    (h : i.Fits ctx levels rest) (others : Code) : i.Fits ctx levels (rest ++ others) := by
  cases i with
  | start e => trivial
  | halt node reason => trivial
  | finish e => exact h
  | jump distance node =>
    obtain ⟨hle, hshape⟩ := h
    refine ⟨?_, ?_⟩
    · rw [List.length_append]
      omega
    · rw [List.take_append_of_le_length hle]
      exact hshape
  | jumpIfFalse distance node =>
    obtain ⟨hbelow, hle, hshape⟩ := h
    refine ⟨hbelow, ?_, ?_⟩
    · rw [List.length_append]
      omega
    · rw [List.take_append_of_le_length hle]
      exact hshape

theorem fits_append {levels : List Level} {first others : Code} (h : Fits ctx levels first)
    (h' : Fits ctx (shapeAfter levels first) others) : Fits ctx levels (first ++ others) := by
  induction first generalizing levels with
  | nil => exact h'
  | cons i rest ih => exact ⟨h.1.append others, ih h.2 h'⟩

/-- A code that fits still fits after any part of it. -/
theorem Fits.drop {levels : List Level} {code : Code} (h : Fits ctx levels code) (n : Nat) :
    Fits ctx (shapeAfter levels (code.take n)) (code.drop n) := by
  induction code generalizing levels n with
  | nil => simp [Fits]
  | cons i rest ih =>
    cases n with
    | zero => exact h
    | succ n => exact ih h.2 n

theorem Instruction.Fits.shape_ne_nil {levels : List Level} {rest : Code} {i : Instruction}
    (h : i.Fits ctx levels rest) (hne : levels ≠ []) : i.shape levels ≠ [] := by
  have hunbump : unbump levels ≠ [] := by
    cases levels with
    | nil => exact absurd rfl hne
    | cons => exact List.cons_ne_nil _ _
  cases i with
  | start e => exact List.cons_ne_nil _ _
  | halt node reason => exact bump_ne_nil hne
  | jump distance node => exact hunbump
  | jumpIfFalse distance node => exact hunbump
  | finish e =>
    rcases h with hleaf | ⟨hleaf, count, outer, rfl, houter, -⟩
    · simpa [Instruction.shape, hleaf] using bump_ne_nil hne
    · simpa [Instruction.shape, hleaf] using bump_ne_nil houter

/-- There is a level everywhere in a code that fits. -/
theorem Fits.shapeAfter_ne_nil {levels : List Level} {code : Code} (h : Fits ctx levels code)
    (hne : levels ≠ []) (n : Nat) : shapeAfter levels (code.take n) ≠ [] := by
  induction code generalizing levels n with
  | nil => simpa using hne
  | cons i rest ih =>
    cases n with
    | zero => exact hne
    | succ n => exact ih h.2 (h.1.shape_ne_nil hne) n

/-! ## The code of layouts -/

/-- Code that fits anywhere and lays out one value. -/
structure LaysOne (ctx : Context) (code : Code) : Prop where
  shape : ∀ {levels}, levels ≠ [] → shapeAfter levels code = bump levels
  fits : ∀ {levels}, levels ≠ [] → Fits ctx levels code

theorem shape_codeAll {parts : List Layout} (h : ∀ part ∈ parts, LaysOne ctx part.code)
    {level : Level} {outer : List Level} :
    shapeAfter (level :: outer) (codeAll parts) =
        { level with count := level.count + parts.length } :: outer ∧
      Fits ctx (level :: outer) (codeAll parts) := by
  induction parts generalizing level with
  | nil => exact ⟨rfl, trivial⟩
  | cons part rest ih =>
    have hpart := h part (by simp)
    have hshape := hpart.shape (List.cons_ne_nil level outer)
    obtain ⟨hrest, hfits⟩ := @ih (fun member hmem => h member (List.mem_cons_of_mem _ hmem))
      { level with count := level.count + 1 }
    rw [bump] at hshape
    rw [codeAll, shapeAfter_append, hshape, hrest]
    refine ⟨?_, fits_append (hpart.fits (by simp)) (hshape ▸ hfits)⟩
    simp only [List.length_cons, Nat.add_assoc, Nat.add_comm 1]

theorem laysOne_leaf {e : Expr} (h : e.isLeaf = true) : LaysOne ctx [.finish e] := by
  refine ⟨fun _ => ?_, fun _ => ⟨Or.inl h, trivial⟩⟩
  simp [Instruction.shape, h]

theorem laysOne_halt (node : NodeId) (reason : HaltReason) : LaysOne ctx [.halt node reason] :=
  ⟨fun _ => rfl, fun _ => ⟨trivial, trivial⟩⟩

/-- The parts of an expression that has started are laid out on its level. -/
theorem shape_parts {parts : List Layout} (h : ∀ part ∈ parts, LaysOne ctx part.code) (e : Expr)
    (levels : List Level) :
    shapeAfter (⟨some e, 0⟩ :: levels) (codeAll parts) = ⟨some e, parts.length⟩ :: levels := by
  rw [(shape_codeAll h).1, Nat.zero_add]

theorem laysOne_node {e : Expr} {parts : List Layout} (he : e.Parts ctx parts.length)
    (h : ∀ part ∈ parts, LaysOne ctx part.code) : LaysOne ctx (enclose e (codeAll parts)) := by
  have hleaf := Parts.isLeaf he
  have hstart := shape_parts h e
  refine ⟨fun {levels} hne => ?_, fun {levels} hne => ⟨trivial, ?_⟩⟩
  · rw [enclose, List.cons_append, shapeAfter_cons, shapeAfter_append, Instruction.shape, hstart]
    simp [Instruction.shape, hleaf]
  · refine fits_append (shape_codeAll h).2
      ⟨Or.inr ⟨hleaf, parts.length, levels, ?_, hne, he⟩, trivial⟩
    exact hstart levels

theorem laysOne_branch {id : NodeId} {condition yes no : Code} (hc : LaysOne ctx condition)
    (hy : LaysOne ctx yes) (hn : LaysOne ctx no) :
    LaysOne ctx (conditionalCode id condition yes no) := by
  rw [conditionalCode_eq]
  have hyes {levels : List Level} (hne : levels ≠ []) :
      shapeAfter levels (yes ++ [.jump no.length id]) = levels := by
    rw [shapeAfter_append, hy.shape hne]
    simp [Instruction.shape]
  refine ⟨fun {levels} hne => ?_, fun {levels} hne => ?_⟩
  · rw [shapeAfter_append, hc.shape hne, shapeAfter_cons, Instruction.shape, unbump_bump,
      shapeAfter_append, hy.shape hne, shapeAfter_cons, Instruction.shape, unbump_bump,
      hn.shape hne]
  · refine fits_append (hc.fits hne) ?_
    rw [hc.shape hne]
    refine ⟨⟨⟨levels, hne, rfl⟩, ?_, ?_⟩, ?_⟩
    · simp
    · have htake : (yes ++ .jump no.length id :: no).take (yes.length + 1) =
          yes ++ [.jump no.length id] := by
        rw [List.take_length_add_append]
        rfl
      rw [htake, unbump_bump, hyes hne]
    · rw [Instruction.shape, unbump_bump]
      refine fits_append (hy.fits hne) ?_
      rw [hy.shape hne]
      refine ⟨⟨Nat.le_refl _, ?_⟩, ?_⟩
      · rw [List.take_length, unbump_bump, hn.shape hne]
      · rw [Instruction.shape, unbump_bump]
        exact hn.fits hne

/-- The code of a formed layout fits anywhere and lays out one value. -/
theorem laysOne_code {found : Layout} (h : found.Formed ctx) : LaysOne ctx found.code := by
  induction h with
  | leaf h => exact laysOne_leaf h
  | node h hp ih => exact laysOne_node h ih
  | branch hc hy hn ihc ihy ihn => exact laysOne_branch ihc ihy ihn
  | halt => exact laysOne_halt _ _

end Stepwise

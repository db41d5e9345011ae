import Stepwise.Proofs.Code.Layout
import Mathlib.Logic.ExistsUnique

/-!
# How code is nested

The two markers of an expression are a pair of brackets around the code of its parts.  Code is
balanced if all its brackets come in such pairs, one within or beside the other (`Balanced`); then
every marker has exactly one partner (`Balanced.exists_paired`, `Paired.last_unique`,
`Paired.first_unique`), and pairs do not cross (`Paired.nested`).  Expressions without parts have
one instruction and no start.

What a jump skips is balanced too, so it lands as deep as it stands.  `Landing` says so of all jumps
of a code relative to the code behind them, which makes it a property of code wherever it is put.
The code of every layout has these properties (`nests_code`); in terms of addresses they make
`WellFormed`.
-/

namespace Stepwise

/-! ## Markers -/

/-- What an instruction adds to the number of expressions that have started and not finished. -/
def Instruction.opens : Instruction → Int
  | .start _ => 1
  | .finish e => if e.isLeaf then 0 else -1
  | _ => 0

/-- How many more expressions start in a code than finish. -/
def opened : Code → Int
  | [] => 0
  | i :: rest => i.opens + opened rest

/-- How many expressions have started and not finished before an address. -/
def depthAt (code : Code) (address : Nat) : Int :=
  opened (code.take address)

@[simp] theorem opened_nil : opened [] = 0 := rfl

@[simp] theorem opened_cons (i : Instruction) (code : Code) :
    opened (i :: code) = i.opens + opened code := rfl

@[simp] theorem opened_append (front back : Code) :
    opened (front ++ back) = opened front + opened back := by
  induction front with
  | nil => exact (Int.zero_add _).symm
  | cons i rest ih => rw [List.cons_append, opened_cons, opened_cons, ih, Int.add_assoc]

@[simp] theorem opens_start (e : Expr) : (Instruction.start e).opens = 1 := rfl

theorem opens_finish {e : Expr} (h : e.isLeaf = false) : (Instruction.finish e).opens = -1 := by
  simp [Instruction.opens, h]

/-- Code in which every expression that has started finishes, and only such expressions. -/
inductive Balanced : Code → Prop
  | nil : Balanced []
  /-- Jumps, halts and expressions without parts have no partner. -/
  | plain {i : Instruction} {rest : Code} (hi : i.opens = 0) (hrest : Balanced rest) :
    Balanced (i :: rest)
  | enclosed {e : Expr} {body rest : Code} (he : e.isLeaf = false) (hbody : Balanced body)
      (hrest : Balanced rest) : Balanced (.start e :: (body ++ .finish e :: rest))

namespace Balanced

variable {code front back body : Code} {e : Expr}

theorem append (h : Balanced front) (h' : Balanced back) : Balanced (front ++ back) := by
  induction h with
  | nil => exact h'
  | plain hi _ ih => exact .plain hi ih
  | enclosed he hbody _ _ ih =>
    rw [List.cons_append, List.append_assoc, List.cons_append]
    exact .enclosed he hbody ih

theorem opened_eq_zero (h : Balanced code) : opened code = 0 := by
  induction h with
  | nil => rfl
  | plain hi _ ih => rw [opened_cons, hi, ih, Int.add_zero]
  | enclosed he _ _ ihbody ihrest =>
    rw [opened_cons, opened_append, opened_cons, opens_start, opens_finish he, ihbody, ihrest]
    rfl

/-- Nothing finishes that has not started. -/
theorem opened_nonneg (h : Balanced (front ++ back)) : 0 ≤ opened front := by
  generalize hcode : front ++ back = code at h
  induction h generalizing front back with
  | nil =>
    obtain ⟨rfl, -⟩ := List.append_eq_nil_iff.1 hcode
    exact Int.le_refl 0
  | plain hi _ ih =>
    rcases List.append_eq_cons_iff.1 hcode with ⟨rfl, -⟩ | ⟨front', rfl, hrest⟩
    · exact Int.le_refl 0
    · rw [opened_cons, hi, Int.zero_add]
      exact ih hrest.symm
  | @enclosed e body rest he hbody _ ihbody ihrest =>
    rcases List.append_eq_cons_iff.1 hcode with ⟨rfl, -⟩ | ⟨front', rfl, hinner⟩
    · exact Int.le_refl 0
    · rw [opened_cons, opens_start]
      rcases List.append_eq_append_iff.1 hinner with ⟨more, rfl, hback⟩ | ⟨more, hbody', -⟩
      · rcases List.cons_eq_append_iff.1 hback with ⟨rfl, -⟩ | ⟨more', rfl, hrest⟩
        · rw [List.append_nil, hbody.opened_eq_zero]
          decide
        · have := ihrest hrest.symm
          rw [opened_append, opened_cons, opens_finish he, hbody.opened_eq_zero]
          omega
      · have := ihbody hbody'.symm
        omega

/-- More is finished in the end of balanced code than started. -/
theorem opened_nonpos (h : Balanced (front ++ back)) : opened back ≤ 0 := by
  have hall := h.opened_eq_zero
  have hfront := h.opened_nonneg
  rw [opened_append] at hall
  omega

end Balanced

/-! ## Pairs of markers -/

/-- The markers at two addresses enclose the parts of an expression. -/
def Paired (code : Code) (e : Expr) (first last : Nat) : Prop :=
  ∃ front body back, code = front ++ .start e :: (body ++ .finish e :: back) ∧ Balanced body ∧
    e.isLeaf = false ∧ first = front.length ∧ last = front.length + (1 + body.length)

namespace Paired

variable {code : Code} {e e' : Expr} {first first' last last' : Nat}

theorem within (h : Paired code e first last) (front back : Code) :
    Paired (front ++ (code ++ back)) e (front.length + first) (front.length + last) := by
  obtain ⟨before, body, behind, rfl, hbody, he, rfl, rfl⟩ := h
  refine ⟨front ++ before, body, behind ++ back, by simp, hbody, he, by simp, ?_⟩
  rw [List.length_append]
  omega

theorem lt_length (h : Paired code e first last) : last < code.length := by
  obtain ⟨front, body, back, rfl, -, -, -, rfl⟩ := h
  simp only [List.length_append, List.length_cons]
  omega

end Paired

/-- What belongs to an instruction at an address: the other marker of the pair, if it is a marker of
one. -/
inductive Matched (code : Code) (address : Nat) : Instruction → Prop
  | plain {i : Instruction} (hi : i.opens = 0) : Matched code address i
  | starts {e : Expr} {last : Nat} (h : Paired code e address last) :
    Matched code address (.start e)
  | finishes {e : Expr} {first : Nat} (h : Paired code e first address) :
    Matched code address (.finish e)

theorem Matched.within {code : Code} {address : Nat} {i : Instruction} (h : Matched code address i)
    (front back : Code) : Matched (front ++ (code ++ back)) (front.length + address) i := by
  cases h with
  | plain hi => exact .plain hi
  | starts h => exact .starts (h.within front back)
  | finishes h => exact .finishes (h.within front back)

/-- In balanced code every marker of a pair has the other one. -/
theorem Balanced.matched {code : Code} (h : Balanced code) {address : Nat} {i : Instruction}
    (hi : code[address]? = some i) : Matched code address i := by
  induction h generalizing address with
  | nil => exact nomatch hi
  | @plain first rest hfirst hrest ih =>
    cases address with
    | zero =>
      obtain rfl := Option.some.inj hi
      exact .plain hfirst
    | succ address => simpa [Nat.add_comm] using (ih hi).within [first] []
  | @enclosed e body rest he hbody hrest ihbody ihrest =>
    have hpair : Paired (.start e :: (body ++ .finish e :: rest)) e 0 (0 + (1 + body.length)) :=
      ⟨[], body, rest, rfl, hbody, he, rfl, rfl⟩
    cases address with
    | zero =>
      obtain rfl := Option.some.inj hi
      exact .starts hpair
    | succ address =>
      rw [List.getElem?_cons_succ] at hi
      rcases Nat.lt_trichotomy address body.length with hlt | heq | hlt
      · rw [List.getElem?_append_left hlt] at hi
        simpa [Nat.add_comm] using (ihbody hi).within [.start e] (.finish e :: rest)
      · rw [heq, List.getElem?_append_right (Nat.le_refl _), Nat.sub_self] at hi
        obtain rfl := Option.some.inj hi
        exact .finishes (by simpa [heq, Nat.add_comm] using hpair)
      · obtain ⟨more, rfl⟩ := Nat.exists_eq_add_of_lt hlt
        rw [List.getElem?_append_right (by omega)] at hi
        have hindex : body.length + more + 1 - body.length = more + 1 := by omega
        rw [hindex] at hi
        have hmatched := (ihrest hi).within (.start e :: (body ++ [.finish e])) []
        have hlength : (Instruction.start e :: (body ++ [.finish e])).length + more =
            body.length + more + 1 + 1 := by
          simp
          omega
        rw [hlength] at hmatched
        simpa using hmatched

/-! ## Partners -/

/-- Balanced code does not go on after it has closed what it has not opened. -/
theorem Balanced.not_closed {body more : Code} {e : Expr} (hbody : Balanced body)
    (he : e.isLeaf = false) : ¬ Balanced (body ++ .finish e :: more) := by
  intro h
  have hfront : body ++ .finish e :: more = (body ++ [.finish e]) ++ more := by simp
  have := (hfront ▸ h).opened_nonneg
  rw [opened_append, hbody.opened_eq_zero, opened_cons, opens_finish he, opened_nil] at this
  omega

/-- Balanced code does not end after something in it has started. -/
theorem Balanced.not_opened {body more : Code} {e : Expr} (hbody : Balanced body) :
    ¬ Balanced (more ++ .start e :: body) := by
  intro h
  have := h.opened_nonpos
  rw [opened_cons, hbody.opened_eq_zero, opens_start] at this
  omega

/-- Balanced code up to a finish is determined by where it begins. -/
theorem Balanced.eq_of_finish {body body' back back' : Code} {e e' : Expr} (hbody : Balanced body)
    (hbody' : Balanced body') (he : e.isLeaf = false) (he' : e'.isLeaf = false)
    (h : body ++ .finish e :: back = body' ++ .finish e' :: back') : body = body' := by
  rcases List.append_eq_append_iff.1 h with ⟨more, rfl, hback⟩ | ⟨more, rfl, hback⟩
  · rcases List.cons_eq_append_iff.1 hback with ⟨rfl, -⟩ | ⟨more', rfl, -⟩
    · rw [List.append_nil]
    · exact absurd hbody' (hbody.not_closed he)
  · rcases List.cons_eq_append_iff.1 hback with ⟨rfl, -⟩ | ⟨more', rfl, -⟩
    · rw [List.append_nil]
    · exact absurd hbody (hbody'.not_closed he')

/-- Balanced code behind a start is determined by where it ends. -/
theorem Balanced.eq_of_start {body body' front front' : Code} {e e' : Expr} (hbody : Balanced body)
    (hbody' : Balanced body') (h : front ++ .start e :: body = front' ++ .start e' :: body') :
    front = front' := by
  rcases List.append_eq_append_iff.1 h with ⟨more, rfl, hback⟩ | ⟨more, rfl, hback⟩
  · rcases List.cons_eq_append_iff.1 hback with ⟨rfl, -⟩ | ⟨more', rfl, hinner⟩
    · rw [List.append_nil]
    · exact absurd (hinner ▸ hbody) hbody'.not_opened
  · rcases List.cons_eq_append_iff.1 hback with ⟨rfl, -⟩ | ⟨more', rfl, hinner⟩
    · rw [List.append_nil]
    · exact absurd (hinner ▸ hbody') hbody.not_opened

namespace Paired

variable {code : Code} {e e' : Expr} {first first' last last' : Nat}

theorem last_unique (h : Paired code e first last) (h' : Paired code e' first last') :
    last = last' := by
  obtain ⟨front, body, back, rfl, hbody, he, rfl, rfl⟩ := h
  obtain ⟨front', body', back', hcode, hbody', he', hlength, rfl⟩ := h'
  obtain ⟨rfl, hinner⟩ := List.append_inj hcode hlength
  rw [hbody.eq_of_finish hbody' he he' (List.cons.inj hinner).2]

theorem first_unique (h : Paired code e first last) (h' : Paired code e' first' last) :
    first = first' := by
  obtain ⟨front, body, back, rfl, hbody, he, rfl, rfl⟩ := h
  obtain ⟨front', body', back', hcode, hbody', he', rfl, hlength⟩ := h'
  have hsplit : (front ++ .start e :: body) ++ .finish e :: back =
      (front' ++ .start e' :: body') ++ .finish e' :: back' := by simpa using hcode
  obtain ⟨hinner, -⟩ := List.append_inj hsplit (by simp; omega)
  rw [hbody.eq_of_start hbody' hinner]

/-- Two pairs lie one within the other or one behind the other. -/
theorem nested (h : Paired code e first last) (h' : Paired code e' first' last')
    (hfirst : first < first') (hlast : first' < last) : last' < last := by
  obtain ⟨front, body, back, hcode, hbody, he, rfl, rfl⟩ := h
  obtain ⟨index, rfl⟩ := Nat.exists_eq_add_of_lt hfirst
  have hindex : index < body.length := by omega
  have hstart : body[index]? = some (.start e') := by
    obtain ⟨front', body', back', hcode', -, -, hlength, -⟩ := h'
    have hat : code[front.length + index + 1]? = some (.start e') := by
      rw [hcode', hlength, List.getElem?_append_right (Nat.le_refl _), Nat.sub_self]
      rfl
    rw [hcode, List.getElem?_append_right (by omega)] at hat
    have hoffset : front.length + index + 1 - front.length = index + 1 := by omega
    rwa [hoffset, List.getElem?_cons_succ, List.getElem?_append_left hindex] at hat
  cases hbody.matched hstart with
  | plain hi => exact nomatch hi
  | @starts _ last hinner =>
    have hlt := hinner.lt_length
    have hwithin := hinner.within (front ++ [Instruction.start e]) (.finish e :: back)
    have hsame : front ++ [Instruction.start e] ++ (body ++ .finish e :: back) = code := by
      simp [hcode]
    have haddress : (front ++ [Instruction.start e]).length + index = front.length + index + 1 := by
      simp
      omega
    rw [hsame, haddress] at hwithin
    rw [h'.last_unique hwithin, List.length_append, List.length_singleton]
    omega

end Paired

/-! ## Jumps -/

/-- Whether a jump lands where it should, given the code behind it: as deep as it stands, and a
conditional one directly behind the jump that closes the branch it guards. -/
def Instruction.Lands (rest : Code) : Instruction → Prop
  | .jump distance _ => distance ≤ rest.length ∧ Balanced (rest.take distance)
  | .jumpIfFalse distance node =>
    distance + 1 < rest.length ∧ Balanced (rest.take (distance + 1)) ∧
      ∃ further, rest[distance]? = some (.jump further node)
  | _ => True

/-- All jumps of a code land where they should. -/
def Landing : Code → Prop
  | [] => True
  | i :: rest => i.Lands rest ∧ Landing rest

theorem Instruction.Lands.append {rest : Code} {i : Instruction} (h : i.Lands rest)
    (others : Code) : i.Lands (rest ++ others) := by
  cases i with
  | jump distance node =>
    obtain ⟨hle, hskipped⟩ := h
    refine ⟨?_, ?_⟩
    · rw [List.length_append]
      omega
    · rwa [List.take_append_of_le_length hle]
  | jumpIfFalse distance node =>
    obtain ⟨hlt, hskipped, further, hjump⟩ := h
    refine ⟨?_, ?_, further, ?_⟩
    · rw [List.length_append]
      omega
    · rwa [List.take_append_of_le_length (by omega)]
    · rwa [List.getElem?_append_left (by omega)]
  | _ => trivial

theorem landing_append {front back : Code} (h : Landing front) (h' : Landing back) :
    Landing (front ++ back) := by
  induction front with
  | nil => exact h'
  | cons i rest ih => exact ⟨h.1.append back, ih h.2⟩

theorem Landing.lands {code : Code} (h : Landing code) {address : Nat} {i : Instruction}
    (hi : code[address]? = some i) : i.Lands (code.drop (address + 1)) := by
  induction code generalizing address with
  | nil => exact nomatch hi
  | cons first rest ih =>
    cases address with
    | zero =>
      obtain rfl := Option.some.inj hi
      exact h.1
    | succ address => exact ih h.2 hi

/-! ## The code of layouts -/

/-- Code that is balanced and whose jumps land where they should, wherever it is put. -/
structure Nests (code : Code) : Prop where
  ne_nil : code ≠ []
  balanced : Balanced code
  landing : Landing code

theorem nests_leaf {e : Expr} (h : e.isLeaf = true) : Nests [.finish e] :=
  ⟨List.cons_ne_nil _ _, .plain (by simp [Instruction.opens, h]) .nil, trivial, trivial⟩

theorem nests_halt (node : NodeId) (reason : HaltReason) : Nests [.halt node reason] :=
  ⟨List.cons_ne_nil _ _, .plain rfl .nil, trivial, trivial⟩

theorem balanced_codeAll {parts : List Layout} (h : ∀ part ∈ parts, Nests part.code) :
    Balanced (codeAll parts) ∧ Landing (codeAll parts) := by
  induction parts with
  | nil => exact ⟨.nil, trivial⟩
  | cons part rest ih =>
    obtain ⟨hpart, hrest⟩ := List.forall_mem_cons.1 h
    obtain ⟨hbalanced, hlanding⟩ := ih hrest
    exact ⟨hpart.balanced.append hbalanced, landing_append hpart.landing hlanding⟩

theorem nests_node {e : Expr} {parts : List Layout} (he : e.isLeaf = false)
    (h : ∀ part ∈ parts, Nests part.code) : Nests (enclose e (codeAll parts)) := by
  obtain ⟨hbalanced, hlanding⟩ := balanced_codeAll h
  exact ⟨List.cons_ne_nil _ _, .enclosed he hbalanced .nil, trivial,
    landing_append hlanding ⟨trivial, trivial⟩⟩

theorem nests_branch {id : NodeId} {condition yes no : Code} (hc : Nests condition)
    (hy : Nests yes) (hn : Nests no) : Nests (conditionalCode id condition yes no) := by
  rw [conditionalCode_eq]
  have htake : (yes ++ .jump no.length id :: no).take (yes.length + 1) =
      yes ++ [.jump no.length id] := by
    rw [List.take_length_add_append]
    rfl
  have hskipped : Balanced (yes ++ [.jump no.length id]) :=
    hy.balanced.append (.plain rfl .nil)
  have hno : Balanced (.jump no.length id :: no) := .plain rfl hn.balanced
  have hlast : Instruction.Lands no (.jump no.length id) := by
    refine ⟨Nat.le_refl _, ?_⟩
    rw [List.take_length]
    exact hn.balanced
  have hguard : Instruction.Lands (yes ++ .jump no.length id :: no)
      (.jumpIfFalse yes.length id) := by
    refine ⟨?_, htake ▸ hskipped, no.length, ?_⟩
    · have := List.length_pos_iff.2 hn.ne_nil
      simp only [List.length_append, List.length_cons]
      omega
    · rw [List.getElem?_append_right (Nat.le_refl _), Nat.sub_self]
      rfl
  refine ⟨by simp, hc.balanced.append (.plain rfl (hy.balanced.append hno)), ?_⟩
  exact landing_append hc.landing ⟨hguard, landing_append hy.landing ⟨hlast, hn.landing⟩⟩

/-- The code of a formed layout nests. -/
theorem nests_code {ctx : Context} {found : Layout} (h : found.Formed ctx) : Nests found.code := by
  induction h with
  | leaf h => exact nests_leaf h
  | node h _ ih => exact nests_node (Parts.isLeaf h) ih
  | branch _ _ _ ihc ihy ihn => exact nests_branch ihc ihy ihn
  | halt => exact nests_halt _ _

/-! ## Addresses -/

/-- What holds of the instructions of lowered code, by their addresses. -/
structure WellFormed (code : Code) : Prop where
  ne_nil : code ≠ []
  /-- Every start has one partner behind it. -/
  starts : ∀ first e, code[first]? = some (.start e) → ∃! last, Paired code e first last
  /-- Every finish has one partner before it, unless the expression has no parts. -/
  finishes : ∀ last e, code[last]? = some (.finish e) →
    e.isLeaf = true ∨ ∃! first, Paired code e first last
  nested : ∀ e e' first last first' last', Paired code e first last → Paired code e' first' last' →
    first < first' → first' < last → last' < last
  /-- A jump lands behind itself in the code or at its end, and as deep as it stands. -/
  jumps : ∀ address i target, code[address]? = some i → i.jumpTarget? address = some target →
    address < target ∧ target ≤ code.length ∧ depthAt code target = depthAt code address
  /-- A conditional jump lands in the code, directly behind a jump of the same node. -/
  branches : ∀ address distance node, code[address]? = some (.jumpIfFalse distance node) →
    ∃ target further, (Instruction.jumpIfFalse distance node).jumpTarget? address = some target ∧
      target < code.length ∧ code[target - 1]? = some (.jump further node)

/-- What is skipped behind an instruction leaves the depth as it was. -/
theorem depthAt_eq {code : Code} {address distance : Nat} {i : Instruction}
    (hi : code[address]? = some i) (hopens : i.opens = 0)
    (hskipped : Balanced ((code.drop (address + 1)).take distance)) :
    depthAt code (address + 1 + distance) = depthAt code address := by
  have hdrop : code.drop address = i :: code.drop (address + 1) := by
    obtain ⟨hlt, rfl⟩ := List.getElem?_eq_some_iff.1 hi
    exact List.drop_eq_getElem_cons hlt
  have htake : code.take (address + 1 + distance) =
      code.take address ++ i :: (code.drop (address + 1)).take distance := by
    rw [Nat.add_assoc, Nat.add_comm 1, List.take_add, hdrop, List.take_succ_cons]
  rw [depthAt, htake, opened_append, opened_cons, hopens, hskipped.opened_eq_zero, depthAt]
  omega

namespace Nests

variable {code : Code} {address : Nat}

theorem jumps (h : Nests code) {i : Instruction} {target : Nat} (hi : code[address]? = some i)
    (ht : i.jumpTarget? address = some target) :
    address < target ∧ target ≤ code.length ∧ depthAt code target = depthAt code address := by
  have hlands := h.landing.lands hi
  have hlt := (List.getElem?_eq_some_iff.1 hi).1
  cases i with
  | jump distance node =>
    obtain rfl := Option.some.inj ht
    obtain ⟨hle, hskipped⟩ := hlands
    rw [List.length_drop] at hle
    exact ⟨by omega, by omega, depthAt_eq hi rfl hskipped⟩
  | jumpIfFalse distance node =>
    obtain rfl := Option.some.inj ht
    obtain ⟨hle, hskipped, -⟩ := hlands
    rw [List.length_drop] at hle
    have hdepth := depthAt_eq hi rfl hskipped
    have hsum : address + 1 + (distance + 1) = address + 2 + distance := by omega
    rw [hsum] at hdepth
    exact ⟨by omega, by omega, hdepth⟩
  | _ => exact nomatch ht

theorem wellFormed (h : Nests code) : WellFormed code where
  ne_nil := h.ne_nil
  starts first e hi := by
    cases h.balanced.matched hi with
    | plain hopens => exact nomatch hopens
    | starts hpair => exact ⟨_, hpair, fun _ hother => hother.last_unique hpair⟩
  finishes last e hi := by
    cases h.balanced.matched hi with
    | plain hopens =>
      cases he : e.isLeaf with
      | true => exact .inl rfl
      | false =>
        rw [opens_finish he] at hopens
        exact nomatch hopens
    | finishes hpair => exact .inr ⟨_, hpair, fun _ hother => hother.first_unique hpair⟩
  nested _ _ _ _ _ _ hpair hpair' := hpair.nested hpair'
  jumps _ _ _ hi ht := h.jumps hi ht
  branches address distance node hi := by
    obtain ⟨hlt, -, further, hjump⟩ := h.landing.lands hi
    rw [List.length_drop] at hlt
    rw [List.getElem?_drop] at hjump
    refine ⟨address + 2 + distance, further, rfl, by omega, ?_⟩
    have hbefore : address + 2 + distance - 1 = address + 1 + distance := by omega
    rwa [hbefore]

end Nests

/-- Whatever lowering yields is well formed. -/
theorem wellFormed_of_lower {budget : Nat} {e : Expr} {ctx : Context} {memo after : Memo}
    {code : Code} (h : e.lower budget ctx memo = some (code, after)) : WellFormed code := by
  obtain ⟨found, -, rfl, hformed⟩ := exists_layout_of_lower h
  exact (nests_code hformed).wellFormed

end Stepwise

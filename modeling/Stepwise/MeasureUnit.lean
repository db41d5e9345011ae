/-!
# Units of measure

A unit such as `m/s^2` is a finite product of named base units with integer exponents.  It is kept
as its exponent table: the names ascend, no exponent is zero, and every exponent is a signed 32-bit
number.  The table of a unit is therefore unique, so that equality of units is equality of tables
(`ext_exponent`).

Arithmetic is exact and partial.  An operation whose running total leaves the 32-bit range has no
result; the totals are formed from left to right, one name at a time, and a quotient negates the
exponents of its divisor first.
-/

namespace Stepwise

/-- Whether `n` is a signed 32-bit number. -/
def IsInt32 (n : Int) : Prop :=
  -2147483648 ≤ n ∧ n ≤ 2147483647

instance (n : Int) : Decidable (IsInt32 n) :=
  inferInstanceAs (Decidable (_ ∧ _))

/-- The number itself when it is a signed 32-bit number. -/
def int32? (n : Int) : Option Int :=
  if IsInt32 n then some n else none

@[simp] theorem int32?_eq_some {n m : Int} : int32? n = some m ↔ IsInt32 n ∧ n = m := by
  unfold int32?
  split <;> simp_all

namespace ExponentTable

/-! ## Exponent tables

A table lists base units and their exponents.  The functions of this section work on any list of
pairs; `Canonical` says which lists are tables. -/

/-- A canonical table ascends strictly by name, and its exponents are nonzero 32-bit numbers. -/
def Canonical (table : List (String × Int)) : Prop :=
  table.Pairwise (fun a b => a.1 < b.1) ∧ ∀ entry ∈ table, entry.2 ≠ 0 ∧ IsInt32 entry.2

instance (table : List (String × Int)) : Decidable (Canonical table) :=
  inferInstanceAs (Decidable (_ ∧ _))

/-- The exponent of `name`: zero when the table does not list it. -/
def exponent (name : String) : List (String × Int) → Int
  | [] => 0
  | (n, e) :: rest => if name = n then e else exponent name rest

/-- Writes the exponent of `name` in its place; writing zero removes the entry. -/
def write (name : String) (total : Int) : List (String × Int) → List (String × Int)
  | [] => if total = 0 then [] else [(name, total)]
  | (n, e) :: rest =>
    if name < n then
      if total = 0 then (n, e) :: rest else (name, total) :: (n, e) :: rest
    else if n < name then
      (n, e) :: write name total rest
    else if total = 0 then rest
    else (name, total) :: rest

theorem mem_write {name : String} {total : Int} {table : List (String × Int)}
    {entry : String × Int} (h : entry ∈ write name total table) :
    (entry = (name, total) ∧ total ≠ 0) ∨ entry ∈ table := by
  fun_induction write name total table <;> simp_all <;> grind

/-- Writing keeps a table canonical. -/
theorem Canonical.write {table : List (String × Int)} (h : Canonical table) (name : String)
    {total : Int} (ht : IsInt32 total) : Canonical (write name total table) := by
  refine ⟨?_, fun entry he => ?_⟩
  · have hs := h.1
    clear h
    induction table with
    | nil => unfold ExponentTable.write; split <;> simp
    | cons first rest ih =>
      obtain ⟨n, e⟩ := first
      obtain ⟨hfirst, hrest⟩ := List.pairwise_cons.1 hs
      unfold ExponentTable.write
      split
      · split
        · exact hs
        · refine List.pairwise_cons.2 ⟨fun b hb => ?_, hs⟩
          rcases List.mem_cons.1 hb with rfl | hb
          · assumption
          · exact String.lt_trans ‹_› (hfirst b hb)
      · split
        · refine List.pairwise_cons.2 ⟨fun b hb => ?_, ih hrest⟩
          rcases mem_write hb with ⟨rfl, _⟩ | hb
          · assumption
          · exact hfirst b hb
        · split
          · exact hrest
          · obtain rfl : n = name := by grind
            exact List.pairwise_cons.2 ⟨fun b hb => hfirst b hb, hrest⟩
  · rcases mem_write he with ⟨rfl, hne⟩ | he
    · exact ⟨hne, ht⟩
    · exact h.2 entry he

/-- A name that comes before all names of a table has the exponent zero. -/
theorem exponent_eq_zero {name : String} {table : List (String × Int)}
    (h : ∀ entry ∈ table, name < entry.1) : exponent name table = 0 := by
  induction table with
  | nil => rfl
  | cons first rest ih =>
    have hlt := h first (by simp)
    have hne : name ≠ first.1 := by grind
    rw [exponent, if_neg hne]
    exact ih fun entry he => h entry (List.mem_cons_of_mem _ he)

/-- After writing, `name` has the exponent written and every other name what it had. -/
theorem exponent_write {table : List (String × Int)} (h : Canonical table) (name other : String)
    (total : Int) :
    exponent other (write name total table) =
      if other = name then total else exponent other table := by
  have hs := h.1
  clear h
  induction table with
  | nil => unfold write; split <;> simp_all [exponent]
  | cons first rest ih =>
    obtain ⟨n, e⟩ := first
    obtain ⟨hfirst, hrest⟩ := List.pairwise_cons.1 hs
    have ih := ih hrest
    unfold write
    split
    · have hzero : exponent name rest = 0 :=
        exponent_eq_zero fun entry he => String.lt_trans ‹_› (hfirst entry he)
      have hne : name ≠ n := by grind
      split <;> grind [exponent]
    · split
      · grind [exponent]
      · obtain rfl : n = name := by grind
        have hzero : exponent n rest = 0 := exponent_eq_zero hfirst
        split <;> grind [exponent]

/-- The tail of a canonical table is canonical. -/
theorem Canonical.tail {first : String × Int} {rest : List (String × Int)}
    (h : Canonical (first :: rest)) : Canonical rest :=
  ⟨(List.pairwise_cons.1 h.1).2, fun entry he => h.2 entry (List.mem_cons_of_mem _ he)⟩

/-- A table with an entry does not have the exponent zero everywhere. -/
theorem Canonical.exponent_head_ne {first : String × Int} {rest : List (String × Int)}
    (h : Canonical (first :: rest)) : exponent first.1 (first :: rest) ≠ 0 := by
  simpa [exponent] using (h.2 first (by simp)).1

/-- A name before the head of a canonical table has the exponent zero in it. -/
theorem Canonical.exponent_of_lt_head {first : String × Int} {rest : List (String × Int)}
    (h : Canonical (first :: rest)) {name : String} (hn : name < first.1) :
    exponent name (first :: rest) = 0 :=
  exponent_eq_zero fun entry he => by
    rcases List.mem_cons.1 he with rfl | he
    · exact hn
    · exact String.lt_trans hn ((List.pairwise_cons.1 h.1).1 entry he)

/-- Two canonical tables with the same exponents are the same table. -/
theorem Canonical.ext {a b : List (String × Int)} (ha : Canonical a) (hb : Canonical b)
    (h : ∀ name, exponent name a = exponent name b) : a = b := by
  induction a generalizing b with
  | nil =>
    cases b with
    | nil => rfl
    | cons y ys => exact absurd (h y.1).symm hb.exponent_head_ne
  | cons x xs ih =>
    cases b with
    | nil => exact absurd (h x.1) ha.exponent_head_ne
    | cons y ys =>
      have hname : x.1 = y.1 := by
        by_cases hlt : x.1 < y.1
        · exact absurd (h x.1 ▸ hb.exponent_of_lt_head hlt) ha.exponent_head_ne
        · by_cases hgt : y.1 < x.1
          · exact absurd (h y.1 ▸ ha.exponent_of_lt_head hgt) hb.exponent_head_ne
          · grind
      have hexp : x.2 = y.2 := by simpa [exponent, hname] using h x.1
      have hhead : x = y := Prod.ext hname hexp
      subst hhead
      congr 1
      refine ih ha.tail hb.tail fun name => ?_
      by_cases hn : name = x.1
      · subst hn
        rw [exponent_eq_zero (List.pairwise_cons.1 ha.1).1,
          exponent_eq_zero (List.pairwise_cons.1 hb.1).1]
      · simpa [exponent, hn] using h name

end ExponentTable

/-- A unit of measure: base units and their exponents. -/
structure MeasureUnit where
  /-- The base units with their exponents, in ascending order of their names. -/
  exponents : List (String × Int)
  /-- The table is canonical, so that equal units have equal tables. -/
  canonical : ExponentTable.Canonical exponents
deriving DecidableEq

namespace MeasureUnit

open ExponentTable

/-! ## Construction and arithmetic -/

/-- The unit of plain numbers. -/
def empty : MeasureUnit :=
  ⟨[], by decide⟩

instance : Inhabited MeasureUnit := ⟨empty⟩

/-- The base unit called `name`. -/
def named (name : String) : MeasureUnit :=
  ⟨[(name, 1)], by simp [Canonical, IsInt32]⟩

/-- Whether the unit is that of plain numbers. -/
def isUnitless (unit : MeasureUnit) : Bool :=
  unit.exponents.isEmpty

/-- The exponent of a base unit, zero for the names that the unit does not have. -/
def exponent (unit : MeasureUnit) (name : String) : Int :=
  ExponentTable.exponent name unit.exponents

/-- Two units are equal when every base unit has the same exponent in both. -/
theorem ext_exponent {a b : MeasureUnit} (h : ∀ name, a.exponent name = b.exponent name) :
    a = b := by
  obtain ⟨x, hx⟩ := a
  obtain ⟨y, hy⟩ := b
  have := hx.ext hy h
  subst this
  rfl

/-- Raises the exponent of one base unit; no result when the total is not a 32-bit number. -/
def add (unit : MeasureUnit) (name : String) (exponent : Int) : Option MeasureUnit :=
  let total := unit.exponent name + exponent
  if h : IsInt32 total then
    some ⟨write name total unit.exponents, unit.canonical.write name h⟩
  else
    none

/-- Adds exponents one after the other, and stops without a result at the first total that is not
a 32-bit number. -/
def addAll (unit : MeasureUnit) : List (String × Int) → Option MeasureUnit
  | [] => some unit
  | (name, exponent) :: rest => do
    let next ← unit.add name exponent
    next.addAll rest

/-- The unit with the given exponents; those of a repeated name are summed. -/
def ofExponents (exponents : List (String × Int)) : Option MeasureUnit :=
  empty.addAll exponents

/-- The product of two units: exponents add up. -/
def product (a b : MeasureUnit) : Option MeasureUnit :=
  a.addAll b.exponents

/-- The negation of a 32-bit number, when it is one again. -/
def negate? (exponent : Int) : Option Int :=
  int32? (-exponent)

/-- Takes the exponents of `divisor` away one after the other.  Each is negated as a 32-bit number
first, so the most negative exponent has no quotient whatever it is taken from. -/
def subtractAll (unit : MeasureUnit) : List (String × Int) → Option MeasureUnit
  | [] => some unit
  | (name, exponent) :: rest => do
    let negated ← negate? exponent
    let next ← unit.add name negated
    next.subtractAll rest

/-- The quotient of two units: exponents are subtracted. -/
def quotient (a b : MeasureUnit) : Option MeasureUnit :=
  a.subtractAll b.exponents

/-- Multiplies every exponent of a table, dropping those that become zero; no result when one of
the products is not a 32-bit number. -/
def scaleTable (factor : Int) : List (String × Int) → Option (List (String × Int))
  | [] => some []
  | (name, exponent) :: rest => do
    let total ← int32? (exponent * factor)
    let scaled ← scaleTable factor rest
    pure (if total = 0 then scaled else (name, total) :: scaled)

theorem mem_of_mem_scaleTable {factor : Int} {table scaled : List (String × Int)}
    (h : scaleTable factor table = some scaled) {entry : String × Int} (he : entry ∈ scaled) :
    entry.2 ≠ 0 ∧ IsInt32 entry.2 ∧ ∃ x ∈ table, x.1 = entry.1 := by
  induction table generalizing scaled with
  | nil => simp_all [scaleTable]
  | cons first rest ih =>
    obtain ⟨name, exponent⟩ := first
    simp only [scaleTable, Option.bind_eq_bind, Option.bind_eq_some_iff, int32?_eq_some] at h
    obtain ⟨total, ⟨hrange, rfl⟩, tail, htail, heq⟩ := h
    have heq : (if exponent * factor = 0 then tail else (name, exponent * factor) :: tail) =
        scaled := by simpa using heq
    subst heq
    split at he
    · obtain ⟨h1, h2, x, hx, h3⟩ := ih htail he
      exact ⟨h1, h2, x, List.mem_cons_of_mem _ hx, h3⟩
    · rcases List.mem_cons.1 he with rfl | he
      · exact ⟨‹_›, hrange, _, List.mem_cons_self .., rfl⟩
      · obtain ⟨h1, h2, x, hx, h3⟩ := ih htail he
        exact ⟨h1, h2, x, List.mem_cons_of_mem _ hx, h3⟩

theorem canonical_scaleTable {factor : Int} {table scaled : List (String × Int)}
    (hc : Canonical table) (h : scaleTable factor table = some scaled) : Canonical scaled := by
  refine ⟨?_, fun entry he => ⟨(mem_of_mem_scaleTable h he).1, (mem_of_mem_scaleTable h he).2.1⟩⟩
  have hs := hc.1
  clear hc
  induction table generalizing scaled with
  | nil => simp_all [scaleTable]
  | cons first rest ih =>
    obtain ⟨name, exponent⟩ := first
    have hcons := List.pairwise_cons.1 hs
    simp only [scaleTable, Option.bind_eq_bind, Option.bind_eq_some_iff, int32?_eq_some] at h
    obtain ⟨total, ⟨_, rfl⟩, tail, htail, heq⟩ := h
    have heq : (if exponent * factor = 0 then tail else (name, exponent * factor) :: tail) =
        scaled := by simpa using heq
    subst heq
    split
    · exact ih htail hcons.2
    · refine List.pairwise_cons.2 ⟨fun entry he => ?_, ih htail hcons.2⟩
      obtain ⟨_, _, x, hx, hname⟩ := mem_of_mem_scaleTable htail he
      exact hname ▸ hcons.1 x hx

/-- The power of a unit: exponents are multiplied. -/
def power (unit : MeasureUnit) (factor : Int) : Option MeasureUnit :=
  match h : scaleTable factor unit.exponents with
  | some scaled => some ⟨scaled, canonical_scaleTable unit.canonical h⟩
  | none => none

/-! ## Written form -/

/-- A base unit with its exponent, which is left out when it is one. -/
def factorText (name : String) (exponent : Int) : String :=
  if exponent = 1 then name else name ++ "^" ++ toString exponent

/-- The negation of a 32-bit number as a 32-bit number.  The least number has none in the range, and
is left as it is; a build that checks its arithmetic stops here instead. -/
def wrappedNegation (exponent : Int) : Int :=
  (-Int32.ofInt exponent).toInt

/-- The two ways of negating agree wherever the negation is in the range. -/
theorem wrappedNegation_of_negate? {exponent negated : Int} (h : negate? exponent = some negated) :
    wrappedNegation exponent = negated := by
  obtain ⟨hrange, rfl⟩ := int32?_eq_some.1 h
  unfold IsInt32 at hrange
  unfold wrappedNegation
  rw [Int32.toInt_neg, Int32.toInt_ofInt]
  simp only [Int.bmod_def, Int32.size]
  omega

/-- The written form: factors with positive exponents, then after a slash those with negative
exponents, written positive except for the least one.  A unit with only negative exponents starts
with `1`, and the unit of plain numbers is written as nothing. -/
def written (unit : MeasureUnit) : String :=
  let above := (unit.exponents.filter (·.2 > 0)).map fun entry => factorText entry.1 entry.2
  let below := (unit.exponents.filter (·.2 < 0)).map fun entry =>
    factorText entry.1 (wrappedNegation entry.2)
  let lead := if above.isEmpty && !below.isEmpty then "1" else ""
  let divisor := if below.isEmpty then "" else "/" ++ "·".intercalate below
  lead ++ "·".intercalate above ++ divisor

/-- An acceleration is written with its negative exponents after the slash. -/
example : (ofExponents [("s", -2), ("m", 1)]).map written = some "m/s^2" := by decide +kernel

/-- A frequency has nothing above the slash but a one. -/
example : (ofExponents [("s", -1)]).map written = some "1/s" := by decide +kernel

/-- The least exponent keeps its sign. -/
example : (ofExponents [("m", -2147483648)]).map written = some "1/m^-2147483648" := by
  decide +kernel

end MeasureUnit

end Stepwise

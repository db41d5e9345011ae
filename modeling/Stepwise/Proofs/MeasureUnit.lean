import Mathlib.Data.List.Perm.Basic
import Stepwise.MeasureUnit

/-!
# Exact exponents

Every operation on units is determined by what it does to the exponents as integers.  A product has
the sums of the exponents and a power their multiples, and neither has a result only if one of these
integers is not a 32-bit number (`product_eq_some`, `power_eq_some`).  The laws of units follow from
this, since units with the same exponents are equal (`arithmetic_laws`).

A quotient and a unit formed from a list have exact exponents too, but they may have no result
although all exact exponents are 32-bit numbers: a quotient negates each exponent of its divisor
first, and a list is summed from left to right, so each total on the way has to be a 32-bit number
(`overflow_reports`).
-/

namespace Stepwise

namespace ExponentTable

/-! ## Totals -/

/-- The sum of the exponents that the pairs give for a name. -/
def total (name : String) : List (String × Int) → Int
  | [] => 0
  | (n, e) :: rest => (if name = n then e else 0) + total name rest

/-- The pairs with their exponents negated. -/
def negated (pairs : List (String × Int)) : List (String × Int) :=
  pairs.map fun pair => (pair.1, -pair.2)

/-- No name has both positive and negative exponents. -/
def OneSigned (pairs : List (String × Int)) : Prop :=
  ∀ name, (∀ e, (name, e) ∈ pairs → 0 ≤ e) ∨ ∀ e, (name, e) ∈ pairs → e ≤ 0

section Total

variable {name : String} {pairs front : List (String × Int)}

@[simp] theorem total_nil : total name [] = 0 := rfl

@[simp] theorem total_cons (pair : String × Int) :
    total name (pair :: pairs) = (if name = pair.1 then pair.2 else 0) + total name pairs := rfl

theorem total_append (front back : List (String × Int)) :
    total name (front ++ back) = total name front + total name back := by
  induction front with
  | nil => simp
  | cons pair rest ih => rw [List.cons_append, total_cons, total_cons, ih, Int.add_assoc]

theorem total_perm {pairs' : List (String × Int)} (h : pairs.Perm pairs') :
    total name pairs = total name pairs' := by
  induction h with
  | nil => rfl
  | cons pair _ ih => rw [total_cons, total_cons, ih]
  | swap pair pair' rest =>
    simp only [total_cons]
    omega
  | trans _ _ ih ih' => rw [ih, ih']

theorem total_negated : total name (negated pairs) = -total name pairs := by
  induction pairs with
  | nil => rfl
  | cons pair rest ih =>
    rw [negated, List.map_cons, ← negated, total_cons, total_cons, ih]
    split <;> omega

theorem total_nonneg (h : ∀ e, (name, e) ∈ pairs → 0 ≤ e) : 0 ≤ total name pairs := by
  induction pairs with
  | nil => exact Int.le_refl 0
  | cons pair rest ih =>
    have hrest := ih fun e he => h e (List.mem_cons_of_mem _ he)
    rw [total_cons]
    split
    · rename_i hname
      have hpair := h pair.2 (by rw [hname]; exact List.mem_cons_self ..)
      omega
    · omega

theorem total_nonpos (h : ∀ e, (name, e) ∈ pairs → e ≤ 0) : total name pairs ≤ 0 := by
  have hneg : 0 ≤ total name (negated pairs) := by
    refine total_nonneg fun e he => ?_
    obtain ⟨pair, hpair, heq⟩ := List.mem_map.1 he
    obtain ⟨rfl, rfl⟩ := Prod.mk.inj heq
    have hle := h pair.2 hpair
    omega
  rw [total_negated] at hneg
  omega

/-- The totals on the way lie between zero and the last one. -/
theorem OneSigned.total_front (h : OneSigned pairs) (hfront : front <+: pairs) (name : String) :
    (0 ≤ total name front ∧ total name front ≤ total name pairs) ∨
      (total name pairs ≤ total name front ∧ total name front ≤ 0) := by
  obtain ⟨back, rfl⟩ := hfront
  rw [total_append]
  rcases h name with hsign | hsign
  · have hfront := total_nonneg fun e he => hsign e (List.mem_append_left back he)
    have hback := total_nonneg fun e he => hsign e (List.mem_append_right front he)
    omega
  · have hfront := total_nonpos fun e he => hsign e (List.mem_append_left back he)
    have hback := total_nonpos fun e he => hsign e (List.mem_append_right front he)
    omega

end Total

section Canonical

variable {name : String} {table : List (String × Int)}

theorem Canonical.total_eq (h : Canonical table) : total name table = exponent name table := by
  induction table with
  | nil => rfl
  | cons first rest ih =>
    obtain ⟨hfirst, -⟩ := List.pairwise_cons.1 h.1
    rw [total_cons, ih h.tail, exponent]
    split
    · rename_i hname
      rw [hname, exponent_eq_zero hfirst, Int.add_zero]
    · exact Int.zero_add _

theorem Canonical.exponent_of_mem (h : Canonical table) {e : Int} (he : (name, e) ∈ table) :
    exponent name table = e := by
  induction table with
  | nil => cases he
  | cons first rest ih =>
    obtain ⟨hfirst, -⟩ := List.pairwise_cons.1 h.1
    rcases List.mem_cons.1 he with rfl | he
    · rw [exponent, if_pos rfl]
    · have hlt := hfirst _ he
      rw [exponent, if_neg (by grind)]
      exact ih h.tail he

theorem mem_of_exponent_ne_zero (h : exponent name table ≠ 0) :
    (name, exponent name table) ∈ table := by
  induction table with
  | nil => exact absurd rfl h
  | cons first rest ih =>
    rw [exponent] at h ⊢
    split at h
    · rename_i hname
      rw [if_pos hname, hname]
      exact List.mem_cons_self ..
    · rename_i hname
      rw [if_neg hname]
      exact List.mem_cons_of_mem _ (ih h)

theorem Canonical.isInt32_exponent (h : Canonical table) (name : String) :
    IsInt32 (exponent name table) := by
  by_cases hzero : exponent name table = 0
  · rw [hzero]
    decide
  · exact (h.2 _ (mem_of_exponent_ne_zero hzero)).2

theorem Canonical.oneSigned (h : Canonical table) : OneSigned table := by
  intro name
  rcases Int.le_total 0 (exponent name table) with hsign | hsign
  · exact .inl fun e he => h.exponent_of_mem he ▸ hsign
  · exact .inr fun e he => h.exponent_of_mem he ▸ hsign

theorem OneSigned.negated {pairs : List (String × Int)} (h : OneSigned pairs) :
    OneSigned (negated pairs) := by
  have hmem {name : String} {e : Int} (he : (name, e) ∈ ExponentTable.negated pairs) :
      (name, -e) ∈ pairs := by
    obtain ⟨pair, hpair, heq⟩ := List.mem_map.1 he
    obtain ⟨rfl, rfl⟩ := Prod.mk.inj heq
    rwa [Int.neg_neg]
  intro name
  rcases h name with hsign | hsign
  · refine .inr fun e he => ?_
    have hle := hsign _ (hmem he)
    omega
  · refine .inl fun e he => ?_
    have hle := hsign _ (hmem he)
    omega

end Canonical

end ExponentTable

namespace MeasureUnit

open ExponentTable

/-! ## Adding exponents -/

section Add

variable {unit next result : MeasureUnit} {name : String} {e : Int} {pairs : List (String × Int)}

theorem isInt32_exponent (unit : MeasureUnit) (name : String) : IsInt32 (unit.exponent name) :=
  unit.canonical.isInt32_exponent name

theorem ext_exponent_iff {a b : MeasureUnit} : a = b ↔ ∀ name, a.exponent name = b.exponent name :=
  ⟨fun h _ => h ▸ rfl, ext_exponent⟩

theorem exists_add (h : IsInt32 (unit.exponent name + e)) : ∃ next, unit.add name e = some next ∧
    ∀ other, next.exponent other = unit.exponent other + if other = name then e else 0 := by
  refine ⟨_, dif_pos h, fun other => ?_⟩
  refine (exponent_write unit.canonical name other _).trans ?_
  split
  · rename_i hname
    rw [hname]
  · exact (Int.add_zero _).symm

theorem isInt32_of_add (h : unit.add name e = some next) : IsInt32 (unit.exponent name + e) := by
  by_contra hrange
  rw [add, dif_neg hrange] at h
  cases h

theorem exponent_of_add (h : unit.add name e = some next) (other : String) :
    next.exponent other = unit.exponent other + if other = name then e else 0 := by
  obtain ⟨next', hnext, hexponent⟩ := exists_add (isInt32_of_add h)
  rw [h] at hnext
  rw [Option.some.inj hnext, hexponent]

/-- Every total on the way from left to right is a 32-bit number. -/
def TotalsFit (unit : MeasureUnit) (pairs : List (String × Int)) : Prop :=
  ∀ front, front <+: pairs → ∀ name, IsInt32 (unit.exponent name + total name front)

theorem totalsFit_nil : unit.TotalsFit [] := by
  intro front hfront name
  rw [List.prefix_nil.1 hfront, total_nil, Int.add_zero]
  exact unit.isInt32_exponent name

/-- The first exponent is added to the unit, and then the totals of the others count from there. -/
theorem totalsFit_cons : unit.TotalsFit ((name, e) :: pairs) ↔
    ∃ next, unit.add name e = some next ∧ next.TotalsFit pairs := by
  have htotal {next : MeasureUnit} (hnext : unit.add name e = some next)
      (front : List (String × Int)) (other : String) :
      next.exponent other + total other front =
        unit.exponent other + total other ((name, e) :: front) := by
    rw [exponent_of_add hnext, total_cons, Int.add_assoc]
  constructor
  · intro h
    have hfirst := h [(name, e)] (List.prefix_append _ _) name
    rw [total_cons, if_pos rfl, total_nil, Int.add_zero] at hfirst
    obtain ⟨next, hnext, -⟩ := exists_add hfirst
    refine ⟨next, hnext, fun front hfront other => ?_⟩
    rw [htotal hnext]
    exact h _ ((List.prefix_cons_inj _).2 hfront) other
  · rintro ⟨next, hnext, h⟩ front hfront other
    rcases List.prefix_cons_iff.1 hfront with rfl | ⟨rest, rfl, hrest⟩
    · exact totalsFit_nil [] (List.prefix_refl _) other
    · rw [← htotal hnext]
      exact h rest hrest other

/-- A sum has its exact exponents. -/
theorem exponent_of_addAll (h : unit.addAll pairs = some result) (name : String) :
    result.exponent name = unit.exponent name + total name pairs := by
  induction pairs generalizing unit with
  | nil =>
    rw [← Option.some.inj h, total_nil, Int.add_zero]
  | cons pair rest ih =>
    obtain ⟨next, hnext, hrest⟩ := Option.bind_eq_some_iff.1 h
    rw [ih hrest, exponent_of_add hnext, total_cons, Int.add_assoc]

/-- There is a sum if the totals on the way are 32-bit numbers. -/
theorem addAll_isSome : (unit.addAll pairs).isSome = true ↔ unit.TotalsFit pairs := by
  induction pairs generalizing unit with
  | nil => exact iff_of_true rfl totalsFit_nil
  | cons pair rest ih =>
    rw [totalsFit_cons, Option.isSome_iff_exists]
    constructor
    · rintro ⟨result, h⟩
      obtain ⟨next, hnext, hrest⟩ := Option.bind_eq_some_iff.1 h
      exact ⟨next, hnext, ih.1 (by rw [hrest]; rfl)⟩
    · rintro ⟨next, hnext, hrest⟩
      obtain ⟨result, h⟩ := Option.isSome_iff_exists.1 (ih.2 hrest)
      exact ⟨result, Option.bind_eq_some_iff.2 ⟨next, hnext, h⟩⟩

/-- Where no name has exponents of both signs, only the sums themselves have to be 32-bit numbers:
the totals on the way lie between the exponent of the unit and the sum. -/
theorem totalsFit_iff (h : OneSigned pairs) :
    unit.TotalsFit pairs ↔ ∀ name, IsInt32 (unit.exponent name + total name pairs) := by
  refine ⟨fun hfit => hfit pairs (List.prefix_refl _), fun hfit front hfront name => ?_⟩
  have hunit := unit.isInt32_exponent name
  have hsum := hfit name
  have hbetween := h.total_front hfront name
  unfold IsInt32 at *
  omega

/-- Where no name has exponents of both signs, sums are determined by their exponents. -/
theorem addAll_eq_some (h : OneSigned pairs) : unit.addAll pairs = some result ↔
    ∀ name, result.exponent name = unit.exponent name + total name pairs := by
  refine ⟨fun hsum => exponent_of_addAll hsum, fun hexponents => ?_⟩
  have hfit : unit.TotalsFit pairs :=
    (totalsFit_iff h).2 fun name => hexponents name ▸ result.isInt32_exponent name
  obtain ⟨sum, hsum⟩ := Option.isSome_iff_exists.1 (addAll_isSome.2 hfit)
  have heq : sum = result :=
    ext_exponent fun name => (exponent_of_addAll hsum name).trans (hexponents name).symm
  rw [hsum, heq]

end Add

/-! ## Products, powers and quotients -/

section Arithmetic

variable {a b c : MeasureUnit} {factor : Int}

theorem total_exponents (a : MeasureUnit) (name : String) :
    total name a.exponents = a.exponent name :=
  a.canonical.total_eq

/-- A product is the unit with the sums of the exponents. -/
theorem product_eq_some :
    a.product b = some c ↔ ∀ name, c.exponent name = a.exponent name + b.exponent name := by
  rw [product, addAll_eq_some b.canonical.oneSigned]
  simp only [total_exponents]

theorem product_eq_none :
    a.product b = none ↔ ∃ name, ¬ IsInt32 (a.exponent name + b.exponent name) := by
  rw [← Option.not_isSome_iff_eq_none, product, addAll_isSome, totalsFit_iff b.canonical.oneSigned,
    not_forall]
  simp only [total_exponents]

theorem exponent_scaleTable {table scaled : List (String × Int)} (hc : Canonical table)
    (h : scaleTable factor table = some scaled) (name : String) :
    ExponentTable.exponent name scaled = ExponentTable.exponent name table * factor := by
  induction table generalizing scaled with
  | nil =>
    obtain rfl := Option.some.inj h
    exact (Int.zero_mul factor).symm
  | cons first rest ih =>
    obtain ⟨hfirst, -⟩ := List.pairwise_cons.1 hc.1
    obtain ⟨n, e⟩ := first
    simp only [scaleTable, Option.bind_eq_bind, Option.bind_eq_some_iff, int32?_eq_some] at h
    obtain ⟨total, ⟨-, rfl⟩, tail, htail, heq⟩ := h
    obtain rfl := Option.some.inj heq
    have ih := ih hc.tail htail
    by_cases hname : name = n
    · subst hname
      have hrest : ExponentTable.exponent name rest = 0 := exponent_eq_zero hfirst
      rw [hrest, Int.zero_mul] at ih
      split <;> simp_all [ExponentTable.exponent]
    · split <;> simp_all [ExponentTable.exponent]

theorem scaleTable_isSome {table : List (String × Int)} :
    (scaleTable factor table).isSome = true ↔ ∀ entry ∈ table, IsInt32 (entry.2 * factor) := by
  induction table with
  | nil => simp [scaleTable]
  | cons first rest ih =>
    obtain ⟨n, e⟩ := first
    rw [List.forall_mem_cons, ← ih, Option.isSome_iff_exists, Option.isSome_iff_exists]
    simp only [scaleTable, Option.bind_eq_bind, Option.bind_eq_some_iff, int32?_eq_some]
    constructor
    · rintro ⟨scaled, total, ⟨hrange, rfl⟩, tail, htail, -⟩
      exact ⟨hrange, tail, htail⟩
    · rintro ⟨hrange, tail, htail⟩
      exact ⟨_, _, ⟨hrange, rfl⟩, tail, htail, rfl⟩

theorem exponent_of_power (h : a.power factor = some c) (name : String) :
    c.exponent name = a.exponent name * factor := by
  unfold power at h
  split at h
  · rename_i scaled hscaled
    rw [← Option.some.inj h]
    exact exponent_scaleTable a.canonical hscaled name
  · cases h

theorem power_isSome :
    (a.power factor).isSome = true ↔ ∀ name, IsInt32 (a.exponent name * factor) := by
  constructor
  · intro h name
    obtain ⟨result, hresult⟩ := Option.isSome_iff_exists.1 h
    rw [← exponent_of_power hresult]
    exact result.isInt32_exponent name
  · intro h
    have hscaled : (scaleTable factor a.exponents).isSome = true := by
      refine scaleTable_isSome.2 fun entry hentry => ?_
      rw [← a.canonical.exponent_of_mem hentry]
      exact h entry.1
    unfold power
    split
    · rfl
    · rename_i hnone
      rw [hnone] at hscaled
      cases hscaled

/-- A power is the unit with the multiples of the exponents. -/
theorem power_eq_some :
    a.power factor = some c ↔ ∀ name, c.exponent name = a.exponent name * factor := by
  refine ⟨exponent_of_power, fun h => ?_⟩
  have hrange (name : String) : IsInt32 (a.exponent name * factor) :=
    h name ▸ c.isInt32_exponent name
  obtain ⟨result, hresult⟩ := Option.isSome_iff_exists.1 (power_isSome.2 hrange)
  have heq : result = c :=
    ext_exponent fun name => (exponent_of_power hresult name).trans (h name).symm
  rw [hresult, heq]

theorem power_eq_none :
    a.power factor = none ↔ ∃ name, ¬ IsInt32 (a.exponent name * factor) := by
  rw [← Option.not_isSome_iff_eq_none, power_isSome, not_forall]

/-- Subtracting is adding the negated exponents, if each of them is a 32-bit number. -/
theorem subtractAll_eq_some {pairs : List (String × Int)} : a.subtractAll pairs = some c ↔
    (∀ pair ∈ pairs, IsInt32 (-pair.2)) ∧ a.addAll (negated pairs) = some c := by
  induction pairs generalizing a with
  | nil => simp [subtractAll, negated, addAll]
  | cons pair rest ih =>
    obtain ⟨n, e⟩ := pair
    simp only [subtractAll, negate?, negated, List.map_cons, addAll, Option.bind_eq_bind,
      Option.bind_eq_some_iff, int32?_eq_some, List.forall_mem_cons, ih]
    constructor
    · rintro ⟨_, ⟨hrange, rfl⟩, next, hnext, hrest, h⟩
      exact ⟨⟨hrange, hrest⟩, next, hnext, h⟩
    · rintro ⟨⟨hrange, hrest⟩, next, hnext, h⟩
      exact ⟨_, ⟨hrange, rfl⟩, next, hnext, hrest, h⟩

theorem isInt32_neg (b : MeasureUnit) (name : String) :
    IsInt32 (-b.exponent name) ↔ b.exponent name ≠ -2147483648 := by
  have hrange := b.isInt32_exponent name
  unfold IsInt32 at *
  omega

theorem forall_isInt32_neg (b : MeasureUnit) : (∀ pair ∈ b.exponents, IsInt32 (-pair.2)) ↔
    ∀ name, b.exponent name ≠ -2147483648 := by
  constructor
  · intro h name heq
    have hzero : ExponentTable.exponent name b.exponents ≠ 0 := by
      rw [show ExponentTable.exponent name b.exponents = _ from heq]
      decide
    exact (b.isInt32_neg name).1 (h _ (mem_of_exponent_ne_zero hzero)) heq
  · intro h pair hpair
    rw [← b.canonical.exponent_of_mem hpair]
    exact (b.isInt32_neg pair.1).2 (h pair.1)

/-- A quotient is the unit with the differences of the exponents, unless an exponent of the divisor
is the least 32-bit number. -/
theorem quotient_eq_some : a.quotient b = some c ↔ (∀ name, b.exponent name ≠ -2147483648) ∧
    ∀ name, c.exponent name = a.exponent name - b.exponent name := by
  rw [quotient, subtractAll_eq_some, forall_isInt32_neg,
    addAll_eq_some b.canonical.oneSigned.negated]
  simp only [total_negated, total_exponents, Int.sub_eq_add_neg]

theorem quotient_isSome : (a.quotient b).isSome = true ↔
    (∀ name, b.exponent name ≠ -2147483648) ∧
      ∀ name, IsInt32 (a.exponent name - b.exponent name) := by
  rw [Option.isSome_iff_exists]
  simp only [quotient, subtractAll_eq_some, forall_isInt32_neg, exists_and_left,
    ← Option.isSome_iff_exists, addAll_isSome, totalsFit_iff b.canonical.oneSigned.negated,
    total_negated, total_exponents, Int.sub_eq_add_neg]

theorem quotient_eq_none : a.quotient b = none ↔ (∃ name, b.exponent name = -2147483648) ∨
    ∃ name, ¬ IsInt32 (a.exponent name - b.exponent name) := by
  rw [← Option.not_isSome_iff_eq_none, quotient_isSome, not_and_or, not_forall, not_forall]
  simp only [ne_eq, not_not]

end Arithmetic

/-! ## Units formed by any operations -/

/-- A way of forming a unit by operations on units. -/
inductive Formation where
  | empty
  | named (name : String)
  | ofExponents (pairs : List (String × Int))
  | product (left right : Formation)
  | quotient (left right : Formation)
  | power (base : Formation) (factor : Int)

namespace Formation

/-- The unit that is formed, if every operation has a result. -/
def unit? : Formation → Option MeasureUnit
  | .empty => some .empty
  | .named name => some (.named name)
  | .ofExponents pairs => MeasureUnit.ofExponents pairs
  | .product left right => do
    let left ← left.unit?
    let right ← right.unit?
    left.product right
  | .quotient left right => do
    let left ← left.unit?
    let right ← right.unit?
    left.quotient right
  | .power base factor => do
    let base ← base.unit?
    base.power factor

/-- The exponent that a name has to have, by the arithmetic of integers. -/
def exact (name : String) : Formation → Int
  | .empty => 0
  | .named other => if name = other then 1 else 0
  | .ofExponents pairs => total name pairs
  | .product left right => left.exact name + right.exact name
  | .quotient left right => left.exact name - right.exact name
  | .power base factor => base.exact name * factor

/-- Whatever operations a unit is formed by, it has its exact exponents. -/
theorem exponent_of_unit {f : Formation} {unit : MeasureUnit} (h : f.unit? = some unit)
    (name : String) : unit.exponent name = f.exact name := by
  induction f generalizing unit with
  | empty =>
    obtain rfl := Option.some.inj h
    rfl
  | named other =>
    obtain rfl := Option.some.inj h
    rfl
  | ofExponents pairs => exact (exponent_of_addAll h name).trans (Int.zero_add _)
  | product left right ihleft ihright =>
    obtain ⟨a, ha, b, hb, hab⟩ := by simpa [unit?, Option.bind_eq_some_iff] using h
    rw [product_eq_some.1 hab, ihleft ha, ihright hb, exact]
  | quotient left right ihleft ihright =>
    obtain ⟨a, ha, b, hb, hab⟩ := by simpa [unit?, Option.bind_eq_some_iff] using h
    rw [(quotient_eq_some.1 hab).2, ihleft ha, ihright hb, exact]
  | power base factor ih =>
    obtain ⟨a, ha, hpower⟩ := by simpa [unit?, Option.bind_eq_some_iff] using h
    rw [power_eq_some.1 hpower, ih ha, exact]

end Formation

/-! ## The laws -/

section Laws

variable {a b c ab bc ax ay result : MeasureUnit} {x y : Int}

theorem product_comm (a b : MeasureUnit) : a.product b = b.product a := by
  refine Option.ext fun c => ?_
  simp only [product_eq_some, Int.add_comm]

theorem product_assoc (hab : a.product b = some ab) (hbc : b.product c = some bc) :
    ab.product c = a.product bc := by
  refine Option.ext fun d => ?_
  simp only [product_eq_some, product_eq_some.1 hab, product_eq_some.1 hbc, Int.add_assoc]

theorem product_empty (a : MeasureUnit) : a.product .empty = some a :=
  product_eq_some.2 fun _ => (Int.add_zero _).symm

theorem quotient_of_product (hab : a.product b = some ab) (h : ab.quotient b = some result) :
    result = a := by
  refine ext_exponent fun name => ?_
  rw [(quotient_eq_some.1 h).2, product_eq_some.1 hab, Int.add_sub_cancel]

theorem power_power (hx : a.power x = some ax) (y : Int) : ax.power y = a.power (x * y) := by
  refine Option.ext fun c => ?_
  simp only [power_eq_some, power_eq_some.1 hx, Int.mul_assoc]

theorem product_powers (hx : a.power x = some ax) (hy : a.power y = some ay) :
    ax.product ay = a.power (x + y) := by
  refine Option.ext fun c => ?_
  simp only [product_eq_some, power_eq_some, power_eq_some.1 hx, power_eq_some.1 hy, Int.mul_add]

end Laws

/-- Units are canonical and their arithmetic is lawful: however a unit is formed it lists no
exponent of zero and has its exact exponents, by which it is determined; products and powers have
no result only where an exact exponent is not a 32-bit number; and the laws of products, quotients
and powers hold wherever there are results. -/
theorem arithmetic_laws :
    (∀ (f : Formation) (unit : MeasureUnit), f.unit? = some unit →
      (∀ entry ∈ unit.exponents, entry.2 ≠ 0) ∧ ∀ name, unit.exponent name = f.exact name) ∧
    (∀ a b : MeasureUnit, a = b ↔ ∀ name, a.exponent name = b.exponent name) ∧
    (∀ a b c : MeasureUnit, a.product b = some c ↔
      ∀ name, c.exponent name = a.exponent name + b.exponent name) ∧
    (∀ a b : MeasureUnit, a.product b = none ↔
      ∃ name, ¬ IsInt32 (a.exponent name + b.exponent name)) ∧
    (∀ (a c : MeasureUnit) (x : Int), a.power x = some c ↔
      ∀ name, c.exponent name = a.exponent name * x) ∧
    (∀ (a : MeasureUnit) (x : Int), a.power x = none ↔
      ∃ name, ¬ IsInt32 (a.exponent name * x)) ∧
    (∀ a b : MeasureUnit, a.product b = b.product a) ∧
    (∀ a b c ab bc : MeasureUnit, a.product b = some ab → b.product c = some bc →
      ab.product c = a.product bc) ∧
    (∀ a : MeasureUnit, a.product .empty = some a ∧ product .empty a = some a) ∧
    (∀ a b ab r : MeasureUnit, a.product b = some ab → ab.quotient b = some r → r = a) ∧
    (∀ (a ax : MeasureUnit) (x y : Int), a.power x = some ax → ax.power y = a.power (x * y)) ∧
    ∀ (a ax ay : MeasureUnit) (x y : Int), a.power x = some ax → a.power y = some ay →
      ax.product ay = a.power (x + y) := by
  refine ⟨fun f unit h => ⟨fun entry hentry => (unit.canonical.2 entry hentry).1,
      Formation.exponent_of_unit h⟩, fun _ _ => ext_exponent_iff, fun _ _ _ => product_eq_some,
    fun _ _ => product_eq_none, fun _ _ _ => power_eq_some, fun _ _ => power_eq_none, product_comm,
    fun _ _ _ _ _ => product_assoc, fun a => ⟨product_empty a, ?_⟩,
    fun _ _ _ _ => quotient_of_product, fun _ _ _ y hx => power_power hx y,
    fun _ _ _ _ _ => product_powers⟩
  rw [product_comm, product_empty]

namespace Length

def metre : MeasureUnit :=
  .named "m"

def area : MeasureUnit :=
  ⟨[("m", 2)], by decide⟩

/-- Areas are squares of lengths, so a cube of an area is a length to the sixth power, and an area
times a length is a cube. -/
theorem laws_area : metre.power 2 = some area ∧ metre.power 1 = some metre ∧
    area.power 3 = metre.power 6 ∧ area.product metre = metre.power 3 := by
  obtain ⟨-, -, -, -, -, -, -, -, -, -, hpower, hpowers⟩ := arithmetic_laws
  have harea : metre.power 2 = some area := by decide +kernel
  have hmetre : metre.power 1 = some metre := by decide +kernel
  exact ⟨harea, hmetre, hpower metre area 2 3 harea, hpowers metre area metre 2 1 harea hmetre⟩

end Length

/-! ## Overflow on the way -/

section Order

variable {pairs pairs' : List (String × Int)} {unit unit' : MeasureUnit}

theorem totalsFit_empty : empty.TotalsFit pairs ↔
    ∀ front, front <+: pairs → ∀ name, IsInt32 (total name front) := by
  refine forall₂_congr fun front _ => forall_congr' fun name => ?_
  rw [show empty.exponent name = 0 from rfl, Int.zero_add]

theorem exponent_of_ofExponents (h : ofExponents pairs = some unit) (name : String) :
    unit.exponent name = total name pairs :=
  (exponent_of_addAll h name).trans (Int.zero_add _)

theorem ofExponents_eq_none : ofExponents pairs = none ↔
    ∃ front, front <+: pairs ∧ ∃ name, ¬ IsInt32 (total name front) := by
  rw [← Option.not_isSome_iff_eq_none, ofExponents, addAll_isSome, totalsFit_empty]
  simp only [not_forall, exists_prop]

theorem ofExponents_eq_none_of_oneSigned (h : OneSigned pairs) :
    ofExponents pairs = none ↔ ∃ name, ¬ IsInt32 (total name pairs) := by
  rw [← Option.not_isSome_iff_eq_none, ofExponents, addAll_isSome, totalsFit_iff h, not_forall]
  refine exists_congr fun name => ?_
  rw [show empty.exponent name = 0 from rfl, Int.zero_add]

/-- Pairs in any order form the same unit, if they form one. -/
theorem ofExponents_perm (hperm : pairs.Perm pairs') (h : ofExponents pairs = some unit)
    (h' : ofExponents pairs' = some unit') : unit = unit' := by
  refine ext_exponent fun name => ?_
  rw [exponent_of_ofExponents h, exponent_of_ofExponents h', total_perm hperm]

theorem oneSigned_perm (hperm : pairs.Perm pairs') (h : OneSigned pairs) : OneSigned pairs' := by
  intro name
  rcases h name with hsign | hsign
  · exact .inl fun e he => hsign e (hperm.mem_iff.2 he)
  · exact .inr fun e he => hsign e (hperm.mem_iff.2 he)

theorem ofExponents_perm_of_oneSigned (hperm : pairs.Perm pairs') (h : OneSigned pairs) :
    ofExponents pairs = ofExponents pairs' := by
  have htotal (name : String) : total name pairs = total name pairs' := total_perm hperm
  have hnone : ofExponents pairs = none ↔ ofExponents pairs' = none := by
    rw [ofExponents_eq_none_of_oneSigned h,
      ofExponents_eq_none_of_oneSigned (oneSigned_perm hperm h)]
    simp only [htotal]
  cases hunit : ofExponents pairs with
  | none => exact (hnone.1 hunit).symm
  | some unit =>
    cases hunit' : ofExponents pairs' with
    | none => rw [hnone.2 hunit'] at hunit; cases hunit
    | some unit' => rw [ofExponents_perm hperm hunit hunit']

end Order

/-- When quotients and lists of exponents have no result.  A quotient has none if an exact
difference is not a 32-bit number, or else if the divisor has the least 32-bit number as an
exponent.  A list of exponents has none if one of the totals on the way from left to right is not a
32-bit number.  These are the exact totals of whole names, in any order, wherever no name has
exponents of both signs.  All results have the exact exponents. -/
theorem overflow_reports (a b : MeasureUnit) (pairs : List (String × Int)) :
    ((a.quotient b = none ↔ (∃ name, b.exponent name = -2147483648) ∨
        ∃ name, ¬ IsInt32 (a.exponent name - b.exponent name)) ∧
      ∀ c, a.quotient b = some c → ∀ name, c.exponent name = a.exponent name - b.exponent name) ∧
    (ofExponents pairs = none ↔
      ∃ front, front <+: pairs ∧ ∃ name, ¬ IsInt32 (total name front)) ∧
    (∀ unit, ofExponents pairs = some unit → ∀ name, unit.exponent name = total name pairs) ∧
    (∀ pairs' unit unit', pairs.Perm pairs' → ofExponents pairs = some unit →
      ofExponents pairs' = some unit' → unit = unit') ∧
    (OneSigned pairs →
      (ofExponents pairs = none ↔ ∃ name, ¬ IsInt32 (total name pairs)) ∧
      ∀ pairs', pairs.Perm pairs' → ofExponents pairs = ofExponents pairs') :=
  ⟨⟨quotient_eq_none, fun _ h => (quotient_eq_some.1 h).2⟩, ofExponents_eq_none,
    fun _ => exponent_of_ofExponents, fun _ _ _ => ofExponents_perm,
    fun h => ⟨ofExponents_eq_none_of_oneSigned h, fun _ hperm =>
      ofExponents_perm_of_oneSigned hperm h⟩⟩

namespace Limits

/-- The unit `1/m`. -/
def inverse : MeasureUnit :=
  ⟨[("m", -1)], by decide⟩

/-- The unit whose one exponent is the least 32-bit number. -/
def least : MeasureUnit :=
  ⟨[("m", -2147483648)], by decide⟩

/-- Exponents whose sum is the greatest 32-bit number, which is exceeded on the way. -/
def pairs : List (String × Int) :=
  [("m", 2147483647), ("m", 1), ("m", -1)]

/-- The same exponents in another order. -/
def reordered : List (String × Int) :=
  [("m", -1), ("m", 1), ("m", 2147483647)]

/-- The quotient has no result although its exact exponents are 32-bit numbers, and neither do the
exponents in one order although their sums are, and although they do in another order. -/
theorem reported_without_overflow :
    (inverse.quotient least = none ∧
      ∀ name, IsInt32 (inverse.exponent name - least.exponent name)) ∧
    ofExponents pairs = none ∧ (∀ name, IsInt32 (total name pairs)) ∧
    pairs.Perm reordered ∧ (ofExponents reordered).isSome = true := by
  refine ⟨⟨by decide +kernel, fun name => ?_⟩, by decide +kernel, fun name => ?_, by decide, ?_⟩
  · simp only [exponent, inverse, least, ExponentTable.exponent]
    split <;> decide
  · simp only [pairs, total_cons, total_nil]
    split <;> decide
  · decide +kernel

/-- Exponents of one sign that exceed the 32-bit numbers are reported in both orders. -/
theorem overflow_reported_excess :
    OneSigned [("m", 2147483647), ("m", 1)] ∧ ofExponents [("m", 2147483647), ("m", 1)] = none ∧
    ofExponents [("m", 1), ("m", 2147483647)] = none := by
  have hsigned : OneSigned [("m", 2147483647), ("m", 1)] := fun name => .inl fun e he => by
    simp at he
    omega
  obtain ⟨-, -, -, -, hsums⟩ := overflow_reports inverse least [("m", 2147483647), ("m", 1)]
  obtain ⟨hnone, hperm⟩ := hsums hsigned
  have hexcess := hnone.2 ⟨"m", by decide⟩
  exact ⟨hsigned, hexcess, (hperm _ (by decide)).symm.trans hexcess⟩

end Limits

end MeasureUnit

end Stepwise

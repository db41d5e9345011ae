import Stepwise.Machine.Step

/-!
# Laws of actions

An action is a function from an evaluator to a result and the evaluator that it leaves, if it has a
result at all.  This module says what each primitive action is as such a function, and how a
sequence of actions takes its parts one after the other (`bind_apply`).

Two facts about operands are used everywhere else.  Taking operands that are there and are not
exceptions takes exactly them (`popOperands_apply`).  Conversely, whatever taking operands results
in, what is left on the stack is a lower part of it, and only operands above the base of the
innermost frame are gone (`popOperands_cases`).
-/

namespace Stepwise

theorem Value.isException_iff {value : Value} :
    value.isException = true ↔ ∃ x, value = .exception x := by
  cases value <;> simp [isException]

namespace Stack

variable {α : Type} {s : Stack α} {base : Nat}

theorem height_of_append {upper lower : List α} (hi : s.items = upper ++ lower) :
    s.height = upper.length + lower.length := by
  rw [height, hi, List.length_append]

theorem popAbove_of_lt {value : α} {lower : List α} (hi : s.items = value :: lower)
    (h : base < s.height) : s.popAbove base = some (value, { s with items := lower }) := by
  unfold popAbove
  simp [hi, h]

/-- What is taken was on the stack. -/
theorem mem_of_popAbove {value : α} {lower : Stack α} (h : s.popAbove base = some (value, lower)) :
    value ∈ s.items := by
  unfold popAbove at h
  split at h
  · exact nomatch h
  · rename_i top rest hi
    split at h
    · obtain ⟨rfl, -⟩ := Prod.mk.inj (Option.some.inj h)
      simp [hi]
    · exact nomatch h

theorem popAbove_of_le (h : s.height ≤ base) : s.popAbove base = none := by
  unfold popAbove
  split
  · rfl
  · rw [if_neg (Nat.not_lt.2 h)]

end Stack

namespace Evaluator

/-- The evaluator with other values on its stack, the topmost first. -/
def withItems (ev : Evaluator) (items : List Value) : Evaluator :=
  { ev with stack := { ev.stack with items := items } }

@[simp] theorem withItems_items (ev : Evaluator) (items : List Value) :
    (ev.withItems items).stack.items = items := rfl

@[simp] theorem withItems_frames (ev : Evaluator) (items : List Value) :
    (ev.withItems items).frames = ev.frames := rfl

@[simp] theorem withItems_self (ev : Evaluator) : ev.withItems ev.stack.items = ev := rfl

theorem base_of_frames {ev : Evaluator} {frame : Frame} {outer : List Frame}
    (h : ev.frames = frame :: outer) : ev.base = frame.base := by
  simp [base, h]

end Evaluator

namespace Action

variable {α β : Type}

/-! ## Sequences and failures -/

@[simp] theorem pure_apply (a : α) (ev : Evaluator) : (pure a : Action α) ev = some (.ok a, ev) :=
  rfl

@[simp] theorem throw_apply (x : Exception) (ev : Evaluator) :
    (throw x : Action α) ev = some (.error x, ev) := rfl

@[simp] theorem get_apply (ev : Evaluator) : (get : Action Evaluator) ev = some (.ok ev, ev) := rfl

@[simp] theorem set_apply (ev after : Evaluator) :
    (set after : Action PUnit) ev = some (.ok ⟨⟩, after) := rfl

@[simp] theorem modify_apply (f : Evaluator → Evaluator) (ev : Evaluator) :
    (modify f : Action PUnit) ev = some (.ok ⟨⟩, f ev) := rfl

@[simp] theorem failWith_apply (kind : ExceptionKind) (ev : Evaluator) :
    (failWith kind : Action α) ev = some (.error (ev.exception kind), ev) := rfl

@[simp] theorem failAt_apply (node : NodeId) (kind : ExceptionKind) (ev : Evaluator) :
    (failAt node kind : Action α) ev = some (.error ((ev.exception kind).atNode node), ev) := rfl

/-- How a sequence goes on from what its first part resulted in: a failure stays what it is. -/
def continuing (f : α → Action β) :
    Except Exception α × Evaluator → Option (Except Exception β × Evaluator)
  | (.ok a, after) => f a after
  | (.error x, after) => some (.error x, after)

@[simp] theorem continuing_ok (f : α → Action β) (a : α) (ev : Evaluator) :
    continuing f (.ok a, ev) = f a ev := rfl

@[simp] theorem continuing_error (f : α → Action β) (x : Exception) (ev : Evaluator) :
    continuing f (.error x, ev) = some (.error x, ev) := rfl

/-- A sequence runs its first part and goes on from there. -/
theorem bind_apply (m : Action α) (f : α → Action β) (ev : Evaluator) :
    (m >>= f) ev = (m ev).bind (continuing f) := by
  show StateT.bind m _ ev = _
  unfold StateT.bind
  rcases m ev with _ | ⟨_ | _, _⟩ <;> rfl

theorem map_apply (f : α → β) (m : Action α) (ev : Evaluator) :
    (f <$> m) ev = (m ev).map fun r => (r.1.map f, r.2) := by
  rw [← bind_pure_comp, bind_apply]
  rcases m ev with _ | ⟨_ | _, _⟩ <;> rfl

@[simp] theorem mapError_ok (f : Exception → Exception) (a : α) :
    (Except.ok a : Except Exception α).mapError f = .ok a := rfl

@[simp] theorem mapError_error (f : Exception → Exception) (x : Exception) :
    (Except.error x : Except Exception α).mapError f = .error (f x) := rfl

/-- Blaming a node changes the exceptions of an action and nothing else. -/
theorem blaming_apply (node : NodeId) (m : Action α) (ev : Evaluator) :
    blaming node m ev = (m ev).map fun r => (r.1.mapError (·.atNode node), r.2) := by
  show (ExceptT.tryCatch m _ : Action α) ev = _
  unfold ExceptT.tryCatch ExceptT.mk
  simp only [bind, StateT.bind]
  rcases m ev with _ | ⟨_ | _, _⟩ <;> rfl

theorem blaming_eq_some {node : NodeId} {m : Action α} {ev after : Evaluator}
    {r : Except Exception α} (h : blaming node m ev = some (r, after)) :
    ∃ r', m ev = some (r', after) ∧ r = r'.mapError (·.atNode node) := by
  rw [blaming_apply, Option.map_eq_some_iff] at h
  obtain ⟨⟨r', after'⟩, hm, heq⟩ := h
  obtain ⟨rfl, rfl⟩ := Prod.mk.inj heq
  exact ⟨r', hm, rfl⟩

/-- The parts of a sequence can be blamed one by one. -/
theorem blaming_bind (node : NodeId) (m : Action α) (f : α → Action β) :
    blaming node (m >>= f) = blaming node m >>= fun a => blaming node (f a) := by
  funext ev
  rw [bind_apply, blaming_apply, blaming_apply, bind_apply]
  rcases m ev with _ | ⟨x | a, mid⟩
  · rfl
  · rfl
  · exact (blaming_apply ..).symm

/-- A sequence has a result when its first part fails, or goes on to one. -/
theorem bind_eq_some {m : Action α} {f : α → Action β} {ev : Evaluator}
    {r : Except Exception β} {after : Evaluator} (h : (m >>= f) ev = some (r, after)) :
    (∃ a mid, m ev = some (.ok a, mid) ∧ f a mid = some (r, after)) ∨
      ∃ x, m ev = some (.error x, after) ∧ r = .error x := by
  rw [bind_apply] at h
  rcases hm : m ev with _ | ⟨x | a, mid⟩
  · simp [hm] at h
  · simp only [hm, Option.bind_some, continuing_error, Option.some.injEq, Prod.mk.injEq] at h
    obtain ⟨rfl, rfl⟩ := h
    exact Or.inr ⟨x, rfl, rfl⟩
  · rw [hm] at h
    exact Or.inl ⟨a, mid, rfl, h⟩

/-! ## Operands -/

theorem popValue_apply (ev : Evaluator) :
    popValue ev =
      match ev.stack.popAbove ev.base with
      | some (value, stack) => some (.ok value, { ev with stack := stack })
      | none => some (.error (ev.exception .insufficientValues), ev) := by
  unfold popValue
  rw [bind_apply]
  simp only [get_apply, Option.bind_some, continuing_ok]
  cases ev.stack.popAbove ev.base <;> rfl

/-- A value above the base of the innermost frame is taken. -/
theorem popValue_of_items {ev : Evaluator} {value : Value} {lower : List Value}
    (h : ev.stack.items = value :: lower) (hb : ev.base ≤ lower.length) :
    popValue ev = some (.ok value, ev.withItems lower) := by
  have hlt : ev.base < ev.stack.height := by
    simp only [Stack.height, h, List.length_cons]
    omega
  rw [popValue_apply, Stack.popAbove_of_lt h hlt]
  rfl

/-- With no value above the base there is nothing to take. -/
theorem popValue_of_height_le {ev : Evaluator} (h : ev.stack.height ≤ ev.base) :
    popValue ev = some (.error (ev.exception .insufficientValues), ev) := by
  rw [popValue_apply, Stack.popAbove_of_le h]

/-- Taking a value finds one above the base, or finds nothing there. -/
theorem popValue_cases {ev : Evaluator} {r : Except Exception Value} {after : Evaluator}
    (h : popValue ev = some (r, after)) :
    (∃ value lower, ev.stack.items = value :: lower ∧ ev.base ≤ lower.length ∧
        r = .ok value ∧ after = ev.withItems lower) ∨
      (ev.stack.height ≤ ev.base ∧ r = .error (ev.exception .insufficientValues) ∧ after = ev) := by
  by_cases hb : ev.stack.height ≤ ev.base
  · rw [popValue_of_height_le hb, Option.some.injEq, Prod.mk.injEq] at h
    exact Or.inr ⟨hb, h.1.symm, h.2.symm⟩
  · cases hi : ev.stack.items with
    | nil => simp [Stack.height, hi] at hb
    | cons value lower =>
      have hle : ev.base ≤ lower.length := by
        simp only [Stack.height, hi, List.length_cons] at hb
        omega
      rw [popValue_of_items hi hle, Option.some.injEq, Prod.mk.injEq] at h
      exact Or.inl ⟨value, lower, rfl, hle, h.1.symm, h.2.symm⟩

/-- An operand is a value that is not an exception. -/
theorem popOperand_of_items {ev : Evaluator} {value : Value} {lower : List Value}
    (h : ev.stack.items = value :: lower) (hb : ev.base ≤ lower.length)
    (hv : value.isException = false) : popOperand ev = some (.ok value, ev.withItems lower) := by
  unfold popOperand
  rw [bind_apply, popValue_of_items h hb]
  cases value <;> first | rfl | simp [Value.isException] at hv

/-- Taking an operand succeeds, or finds an exception on top, or finds nothing above the base. -/
theorem popOperand_cases {ev : Evaluator} {r : Except Exception Value} {after : Evaluator}
    (h : popOperand ev = some (r, after)) :
    (∃ value lower, ev.stack.items = value :: lower ∧ ev.base ≤ lower.length ∧
        after = ev.withItems lower ∧
        ((value.isException = false ∧ r = .ok value) ∨
          ∃ x, value = .exception x ∧ r = .error x)) ∨
      (ev.stack.height ≤ ev.base ∧ r = .error (ev.exception .insufficientValues) ∧ after = ev) := by
  unfold popOperand at h
  rcases bind_eq_some h with ⟨value, mid, hp, hr⟩ | ⟨x, hp, rfl⟩
  · rcases popValue_cases hp with ⟨v, lower, hi, hb, hv, rfl⟩ | ⟨-, hv, -⟩
    · obtain rfl : value = v := by simpa using hv
      refine Or.inl ⟨value, lower, hi, hb, ?_⟩
      cases value with
      | exception x =>
        simp only [throw_apply, Option.some.injEq, Prod.mk.injEq] at hr
        exact ⟨hr.2.symm, Or.inr ⟨x, rfl, hr.1.symm⟩⟩
      | _ =>
        simp only [pure_apply, Option.some.injEq, Prod.mk.injEq] at hr
        exact ⟨hr.2.symm, Or.inl ⟨rfl, hr.1.symm⟩⟩
    · simp at hv
  · rcases popValue_cases hp with ⟨v, lower, hi, hb, hv, -⟩ | ⟨hb, hv, rfl⟩
    · simp at hv
    · exact Or.inr ⟨hb, by simpa using hv, rfl⟩

/-- An operand that is taken was on top of the stack. -/
theorem popOperand_eq_ok {ev after : Evaluator} {value : Value}
    (h : popOperand ev = some (.ok value, after)) :
    ∃ lower, ev.stack.items = value :: lower ∧ ev.base ≤ lower.length ∧
      value.isException = false ∧ after = ev.withItems lower := by
  rcases popOperand_cases h with ⟨top, lower, hi, hb, rfl, ⟨hv, hr⟩ | ⟨x, -, hr⟩⟩ | ⟨-, hr, -⟩
  · obtain rfl := Except.ok.inj hr
    exact ⟨lower, hi, hb, hv, rfl⟩
  · cases hr
  · cases hr

/-- Operands that are there are taken, the topmost first. -/
theorem popOperands_apply {ev : Evaluator} {values lower : List Value}
    (h : ev.stack.items = values ++ lower) (hb : ev.base ≤ lower.length)
    (hv : ∀ value ∈ values, value.isException = false) :
    popOperands values.length ev = some (.ok values, ev.withItems lower) := by
  induction values generalizing ev with
  | nil =>
    have : ev.withItems lower = ev := by rw [← Evaluator.withItems_self ev, h]; rfl
    rw [this]
    rfl
  | cons value values ih =>
    have hfirst : popOperand ev = some (.ok value, ev.withItems (values ++ lower)) :=
      popOperand_of_items h (by simp only [List.length_append]; omega) (hv value (by simp))
    have hothers := @ih (ev.withItems (values ++ lower)) rfl hb
      (fun v hmem => hv v (List.mem_cons_of_mem _ hmem))
    simp only [List.length_cons, popOperands]
    rw [bind_apply, hfirst, Option.bind_some, continuing_ok, bind_apply, hothers]
    rfl

/-- What taking operands can result in.  All of them were above the base and none was an exception;
or one of them was an exception; or the values above the base ran out. -/
inductive Popped (ev : Evaluator) (count : Nat) : Except Exception (List Value) → Evaluator → Prop
  | taken (values lower : List Value) (hi : ev.stack.items = values ++ lower)
      (hn : values.length = count) (hb : count = 0 ∨ ev.base ≤ lower.length)
      (hv : ∀ value ∈ values, value.isException = false) :
      Popped ev count (.ok values) (ev.withItems lower)
  | exception (values lower : List Value) (x : Exception)
      (hi : ev.stack.items = values ++ .exception x :: lower) (hn : values.length < count)
      (hb : ev.base ≤ lower.length) : Popped ev count (.error x) (ev.withItems lower)
  | starved (values lower : List Value) (hi : ev.stack.items = values ++ lower)
      (hn : values.length < count) (hb : values = [] ∨ ev.base ≤ lower.length)
      (hl : lower.length ≤ ev.base) :
      Popped ev count (.error (ev.exception .insufficientValues)) (ev.withItems lower)

/-- One more operand on top of those that were taken, found to be an exception, or missing. -/
theorem Popped.cons {ev : Evaluator} {count : Nat} {first : Value} {lower : List Value}
    {r : Except Exception (List Value)} {after : Evaluator}
    (hi : ev.stack.items = first :: lower) (hb : ev.base ≤ lower.length)
    (hv : first.isException = false) (h : Popped (ev.withItems lower) count r after) :
    Popped ev (count + 1) (r.map (first :: ·)) after := by
  cases h with
  | taken values rest hi' hn hb' hv' =>
    simp only [Evaluator.withItems_items] at hi'
    refine .taken (first :: values) rest (by simp [hi, hi']) (by simp [hn]) (Or.inr ?_) ?_
    · rcases hb' with rfl | hb'
      · obtain rfl : values = [] := List.length_eq_zero_iff.1 hn
        simpa [hi'] using hb
      · exact hb'
    · intro v hmem
      rcases List.mem_cons.1 hmem with rfl | hmem
      · exact hv
      · exact hv' v hmem
  | exception values rest x hi' hn hb' =>
    simp only [Evaluator.withItems_items] at hi'
    exact .exception (first :: values) rest x (by simp [hi, hi'])
      (by simp only [List.length_cons]; omega) hb'
  | starved values rest hi' hn hb' hl =>
    simp only [Evaluator.withItems_items] at hi'
    refine .starved (first :: values) rest (by simp [hi, hi'])
      (by simp only [List.length_cons]; omega) (Or.inr ?_) hl
    rcases hb' with rfl | hb'
    · simpa [hi'] using hb
    · exact hb'

theorem popOperands_cases {ev : Evaluator} {count : Nat} {r : Except Exception (List Value)}
    {after : Evaluator} (h : popOperands count ev = some (r, after)) :
    Popped ev count r after := by
  induction count generalizing ev r after with
  | zero =>
    simp only [popOperands, pure_apply, Option.some.injEq, Prod.mk.injEq] at h
    obtain ⟨rfl, rfl⟩ := h
    exact .taken [] ev.stack.items rfl rfl (Or.inl rfl) (by simp)
  | succ count ih =>
    rw [popOperands] at h
    rcases bind_eq_some h with ⟨first, mid, hp, hr⟩ | ⟨x, hp, rfl⟩
    · obtain ⟨lower, hi, hb, hv, rfl⟩ := popOperand_eq_ok hp
      rcases bind_eq_some hr with ⟨others, rest, hothers, hpure⟩ | ⟨x, hothers, rfl⟩
      · simp only [pure_apply, Option.some.injEq, Prod.mk.injEq] at hpure
        obtain ⟨rfl, rfl⟩ := hpure
        exact (ih hothers).cons hi hb hv
      · exact (ih hothers).cons hi hb hv
    · rcases popOperand_cases hp with ⟨value, lower, hi, hb, rfl, hx⟩ | ⟨hl, hx, rfl⟩
      · rcases hx with ⟨-, hx⟩ | ⟨y, rfl, hx⟩
        · simp at hx
        · obtain rfl : x = y := by simpa using hx
          exact .exception [] lower x hi (by simp) hb
      · obtain rfl : x = after.exception .insufficientValues := by simpa using hx
        exact .starved [] after.stack.items rfl (by simp) (Or.inl rfl) hl

end Action

end Stepwise

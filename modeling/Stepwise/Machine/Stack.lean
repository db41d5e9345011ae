/-!
# The value stack

All frames of an evaluation share one stack.  A frame only takes values above the height at which it
started, its base; `popAbove` refuses to go below it.  The capacity is a hint for the host and
limits nothing.
-/

namespace Stepwise

/-- A stack of values. -/
structure Stack (α : Type) where
  /-- The values, top first. -/
  items : List α := []
  capacity : Nat

namespace Stack

variable {α : Type}

/-- The stack without values. -/
def empty (capacity : Nat) : Stack α :=
  { capacity := capacity }

/-- The number of values. -/
def height (s : Stack α) : Nat :=
  s.items.length

/-- Whether the stack has no values. -/
def isEmpty (s : Stack α) : Bool :=
  s.items.isEmpty

/-- The values from bottom to top. -/
def toList (s : Stack α) : List α :=
  s.items.reverse

/-- The top value. -/
def peek? (s : Stack α) : Option α :=
  s.items.head?

/-- Puts a value on top. -/
def push (s : Stack α) (value : α) : Stack α :=
  { s with items := value :: s.items }

/-- Takes the top value, unless the stack is no higher than `base`. -/
def popAbove (s : Stack α) (base : Nat) : Option (α × Stack α) :=
  match s.items with
  | [] => none
  | top :: rest => if base < s.height then some (top, { s with items := rest }) else none

/-- Drops what is above `height`. -/
def truncate (s : Stack α) (height : Nat) : Stack α :=
  { s with items := s.items.drop (s.height - height) }

/-- Drops everything. -/
def clear (s : Stack α) : Stack α :=
  { s with items := [] }

/-- A stack in short: its values from bottom to top, their number and the capacity. -/
def summary (written : α → String) (s : Stack α) : String :=
  "Stack \x7b items: [" ++ ", ".intercalate (s.toList.map written) ++ "], len: "
    ++ toString s.height ++ ", capacity: " ++ toString s.capacity ++ " \x7d"

@[simp] theorem toList_push (s : Stack α) (value : α) :
    (s.push value).toList = s.toList ++ [value] := by
  simp [push, toList]

@[simp] theorem toList_truncate (s : Stack α) (height : Nat) :
    (s.truncate height).toList = s.toList.take height := by
  simp only [truncate, toList, Stack.height, List.reverse_drop]
  by_cases h : height ≤ s.items.length
  · congr 1
    omega
  · rw [List.take_of_length_le (by simp; omega), List.take_of_length_le (by simp; omega)]

end Stack

end Stepwise

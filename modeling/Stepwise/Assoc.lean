/-!
# Finite maps as lists of pairs

Bindings, lexicons, memo tables and caches are all small finite maps whose keys are compared by
equality.  `Assoc κ α` keeps the pairs in the order in which their keys were first written, and
holds no key twice as long as it is built by the operations below.  Two ways of writing matter to
the rest of the library: `insert` lets the last value of a key win, `insertNew` the first.

Main statements: `find?_insert` and `find?_insertNew` say what a look-up sees after each.
-/

namespace Stepwise

/-- A finite map from `κ` to `α`: its pairs, in the order in which their keys were first written. -/
structure Assoc (κ α : Type) where
  /-- The pairs of the map. -/
  entries : List (κ × α) := []

namespace Assoc

variable {κ α : Type} [BEq κ]

/-- The map without entries. -/
def empty : Assoc κ α := ⟨[]⟩

instance : Inhabited (Assoc κ α) := ⟨empty⟩

/-- The value stored for `key`, if there is one. -/
def find? (m : Assoc κ α) (key : κ) : Option α :=
  m.entries.lookup key

/-- Whether `key` has a value. -/
def contains (m : Assoc κ α) (key : κ) : Bool :=
  (m.find? key).isSome

/-- Writes `value` for `key` into a list of pairs: in place if the key is there, else at the end. -/
def insertEntry (key : κ) (value : α) : List (κ × α) → List (κ × α)
  | [] => [(key, value)]
  | (k, v) :: rest =>
    if key == k then (k, value) :: rest else (k, v) :: insertEntry key value rest

/-- Stores `value` for `key`, replacing what was stored before. -/
def insert (m : Assoc κ α) (key : κ) (value : α) : Assoc κ α :=
  ⟨insertEntry key value m.entries⟩

/-- Stores `value` for `key` unless the key has a value already. -/
def insertNew (m : Assoc κ α) (key : κ) (value : α) : Assoc κ α :=
  if m.contains key then m else ⟨m.entries ++ [(key, value)]⟩

/-- Stores every pair in turn, so that of a repeated key the last value wins. -/
def insertAll (m : Assoc κ α) (pairs : List (κ × α)) : Assoc κ α :=
  pairs.foldl (fun acc pair => acc.insert pair.1 pair.2) m

/-- The map of the given pairs; of a repeated key the last value wins. -/
def ofList (pairs : List (κ × α)) : Assoc κ α :=
  empty.insertAll pairs

/-- The keys, in the order in which they were first written. -/
def keys (m : Assoc κ α) : List κ :=
  m.entries.map Prod.fst

/-- The keys of a map from text, in ascending order. -/
def names (m : Assoc String α) : List String :=
  m.keys.mergeSort (· ≤ ·)

/-- How many keys have a value. -/
def size (m : Assoc κ α) : Nat :=
  m.entries.length

/-- Whether no key has a value. -/
def isEmpty (m : Assoc κ α) : Bool :=
  m.entries.isEmpty

@[simp] theorem find?_empty (key : κ) : (empty : Assoc κ α).find? key = none := rfl

section Lookup

variable [LawfulBEq κ]

theorem lookup_insertEntry (key other : κ) (value : α) (entries : List (κ × α)) :
    (insertEntry key value entries).lookup other =
      if other == key then some value else entries.lookup other := by
  induction entries with
  | nil => simp [insertEntry, List.lookup_cons]; split <;> simp_all
  | cons pair rest ih =>
    obtain ⟨k, v⟩ := pair
    by_cases hk : key = k
    · subst hk
      simp only [insertEntry, beq_self_eq_true, if_true, List.lookup_cons]
      split <;> simp_all
    · by_cases ho : other = k
      · subst ho
        have : (other == key) = false := by simpa using fun h => hk h.symm
        simp [insertEntry, hk, this]
      · have : (other == k) = false := by simpa using ho
        simp [insertEntry, hk, List.lookup_cons, this, ih]

/-- After `insert` the key written has the value written, and every other key what it had. -/
theorem find?_insert (m : Assoc κ α) (key other : κ) (value : α) :
    (m.insert key value).find? other = if other == key then some value else m.find? other :=
  lookup_insertEntry key other value m.entries

/-- After `insertNew` the key has its old value if there was one, else the value offered. -/
theorem find?_insertNew (m : Assoc κ α) (key other : κ) (value : α) :
    (m.insertNew key value).find? other =
      if other == key then some ((m.find? key).getD value) else m.find? other := by
  unfold insertNew contains
  by_cases ho : other = key
  · subst ho
    cases h : m.find? other with
    | some old => simp [h]
    | none =>
      have h' : m.entries.lookup other = none := h
      simp [find?, List.lookup_append, h']
  · have ho' : (other == key) = false := by simpa using ho
    split
    · simp [ho']
    · simp [find?, List.lookup_append, List.lookup_cons, ho']

end Lookup

end Assoc

end Stepwise

import Stepwise.Assoc

/-!
# Maps with other values

`Assoc.map` replaces the values of a map and leaves its keys and their order alone, so looking a key
up and all ways of writing commute with it.  Writing for a new key leaves all pairs where they are
(`entries_insert`), and of several pairs written for one key the last is found (`find?_insertAll`).
-/

namespace Stepwise

namespace Assoc

variable {κ α β : Type} [BEq κ]

/-- The same keys with other values. -/
def map (f : α → β) (m : Assoc κ α) : Assoc κ β :=
  ⟨m.entries.map fun pair => (pair.1, f pair.2)⟩

@[simp] theorem find?_map (f : α → β) (m : Assoc κ α) (key : κ) :
    (m.map f).find? key = (m.find? key).map f := by
  obtain ⟨entries⟩ := m
  simp only [map, find?]
  induction entries with
  | nil => rfl
  | cons pair rest ih =>
    obtain ⟨k, v⟩ := pair
    simp only [List.map_cons, List.lookup_cons]
    split
    · rfl
    · exact ih

@[simp] theorem contains_map (f : α → β) (m : Assoc κ α) (key : κ) :
    (m.map f).contains key = m.contains key := by
  simp [contains]

theorem insert_map (f : α → β) (m : Assoc κ α) (key : κ) (value : α) :
    (m.insert key value).map f = (m.map f).insert key (f value) := by
  obtain ⟨entries⟩ := m
  simp only [map, insert, mk.injEq]
  induction entries with
  | nil => rfl
  | cons pair rest ih =>
    obtain ⟨k, v⟩ := pair
    simp only [insertEntry, List.map_cons]
    split
    · rfl
    · rw [List.map_cons, ih]

/-- What is written for a new key comes last. -/
theorem entries_insert [LawfulBEq κ] {m : Assoc κ α} {key : κ} (h : m.find? key = none)
    (value : α) : (m.insert key value).entries = m.entries ++ [(key, value)] := by
  obtain ⟨entries⟩ := m
  simp only [find?, insert] at h ⊢
  induction entries with
  | nil => rfl
  | cons pair rest ih =>
    obtain ⟨k, v⟩ := pair
    rw [List.lookup_cons] at h
    split at h
    · cases h
    · rename_i hk
      rw [insertEntry, hk, ih h]
      rfl

theorem insertNew_map (f : α → β) (m : Assoc κ α) (key : κ) (value : α) :
    (m.insertNew key value).map f = (m.map f).insertNew key (f value) := by
  simp only [insertNew, contains_map]
  split
  · rfl
  · simp [map]

theorem insertAll_map (f : α → β) (m : Assoc κ α) (pairs : List (κ × α)) :
    (m.insertAll pairs).map f = (m.map f).insertAll (pairs.map fun pair => (pair.1, f pair.2)) := by
  unfold insertAll
  induction pairs generalizing m with
  | nil => rfl
  | cons pair rest ih => simp only [List.foldl_cons, List.map_cons, ih, insert_map]

/-- Of the pairs for a key the last one is found. -/
theorem find?_insertAll [LawfulBEq κ] (m : Assoc κ α) (pairs : List (κ × α)) (key : κ) :
    (m.insertAll pairs).find? key = (pairs.reverse.lookup key).or (m.find? key) := by
  unfold insertAll
  induction pairs generalizing m with
  | nil => rfl
  | cons pair rest ih =>
    obtain ⟨k, v⟩ := pair
    rw [List.foldl_cons, ih, find?_insert, List.reverse_cons, List.lookup_append, Option.or_assoc,
      List.lookup_cons, List.lookup_nil]
    cases key == k <;> rfl

theorem ofList_map (f : α → β) (pairs : List (κ × α)) :
    (ofList pairs).map f = ofList (pairs.map fun pair => (pair.1, f pair.2)) :=
  insertAll_map f empty pairs

end Assoc

end Stepwise

/-
TypedPaths/Order/SortedMap.lean

Finite maps from names, held as lists of entries in increasing order of the names.

Design.  The operations are functions on plain lists of entries, so that they serve both a
recursive data type, whose objects are such lists, and `SortedMap`, which adds the proof that the
names increase.  Insertion is a single pass that replaces on collision; this is what makes the
laws of `find?` hold for every list, sorted or not.

Main results:
* `Entries.find?_insert`: insertion changes the entry of one name and no other.
* `Entries.Increasing.find?_eq_some_iff`: in increasing lists `find?` gives exactly the entries.
-/
import TypedPaths.Order.SortedSet

namespace TypedPaths

open Std

/-! ### Lists of entries -/

namespace Entries

variable {α β : Type}

/-- The value of the first entry of the name. -/
def find? (name : String) : List (String × α) → Option α
  | [] => none
  | (n, a) :: rest => if n = name then some a else find? name rest

/-- Puts an entry at its place in a list that increases, and replaces the entry of that name. -/
def insert (name : String) (a : α) : List (String × α) → List (String × α)
  | [] => [(name, a)]
  | (n, b) :: rest =>
    match compare name n with
    | .lt => (name, a) :: (n, b) :: rest
    | .eq => (name, a) :: rest
    | .gt => (n, b) :: insert name a rest

/-- Puts an entry at its place, unless the name has an entry already. -/
def insertNew (name : String) (a : α) (entries : List (String × α)) : List (String × α) :=
  if (find? name entries).isSome then entries else insert name a entries

/-- The entries in increasing order of the names; of several entries of one name, the last. -/
def sortLast : List (String × α) → List (String × α)
  | [] => []
  | (n, a) :: rest => insertNew n a (sortLast rest)

/-- Each name is below all that follow it. -/
def Increasing (entries : List (String × α)) : Prop :=
  entries.Pairwise fun a b => compare a.1 b.1 = .lt

instance (entries : List (String × α)) : Decidable (Increasing entries) :=
  inferInstanceAs (Decidable (List.Pairwise _ _))

/-- Under the name of a new entry its value is found, and under the others what was there. -/
theorem find?_insert (name other : String) (a : α) (entries : List (String × α)) :
    find? other (insert name a entries) = if name = other then some a else find? other entries := by
  induction entries with
  | nil => simp [insert, find?]
  | cons e rest ih =>
    obtain ⟨n, b⟩ := e
    rw [insert]
    split
    · simp [find?]
    · next h =>
      rw [LawfulEqCmp.eq_of_compare h]
      by_cases hn : n = other <;> simp [find?, hn]
    · next h =>
      have hne : name ≠ n := fun e => by simp [e] at h
      by_cases hn : n = other <;> by_cases hm : name = other <;> simp_all [find?]

theorem mem_insert {name : String} {a : α} {e : String × α} {entries : List (String × α)}
    (h : e ∈ insert name a entries) : e = (name, a) ∨ e ∈ entries := by
  induction entries with
  | nil => simpa [insert] using h
  | cons f rest ih =>
    obtain ⟨n, b⟩ := f
    rw [insert] at h
    split at h
    · simpa using h
    · rcases List.mem_cons.mp h with h | h <;> simp [h]
    · rcases List.mem_cons.mp h with h | h
      · simp [h]
      · rcases ih h with h | h <;> simp [h]

/-- The later of two entries of one name replaces the earlier. -/
theorem insert_insert (name : String) (a b : α) (entries : List (String × α)) :
    insert name b (insert name a entries) = insert name b entries := by
  induction entries with
  | nil => simp [insert]
  | cons e rest ih =>
    obtain ⟨n, c⟩ := e
    cases h : compare name n with
    | lt => simp [insert, h]
    | eq => simp [insert, h]
    | gt => simp [insert, h, ih]

theorem increasing_insert {name : String} {a : α} {entries : List (String × α)}
    (he : Increasing entries) : Increasing (insert name a entries) := by
  induction entries with
  | nil => simp [insert, Increasing]
  | cons f rest ih =>
    obtain ⟨n, b⟩ := f
    obtain ⟨hn, hrest⟩ := List.pairwise_cons.mp he
    rw [insert]
    split
    · next h =>
      refine List.pairwise_cons.mpr ⟨fun x hx => ?_, he⟩
      rcases List.mem_cons.mp hx with rfl | hx
      · exact h
      · exact TransCmp.lt_trans h (hn x hx)
    · next h =>
      refine List.pairwise_cons.mpr ⟨fun x hx => ?_, hrest⟩
      rw [LawfulEqCmp.eq_of_compare h]
      exact hn x hx
    · next h =>
      refine List.pairwise_cons.mpr ⟨fun x hx => ?_, ih hrest⟩
      rcases mem_insert hx with rfl | hx
      · exact OrientedCmp.lt_of_gt h
      · exact hn x hx

theorem increasing_insertNew {name : String} {a : α} {entries : List (String × α)}
    (he : Increasing entries) : Increasing (insertNew name a entries) := by
  unfold insertNew
  split
  · exact he
  · exact increasing_insert he

/-- Sorting makes the names increase. -/
theorem increasing_sortLast (entries : List (String × α)) : Increasing (sortLast entries) := by
  induction entries with
  | nil => simp [sortLast, Increasing]
  | cons e rest ih => exact increasing_insertNew ih

/-- A name that is below all names of a list has no entry there. -/
theorem find?_eq_none_of_lt {name : String} {entries : List (String × α)}
    (h : ∀ e ∈ entries, compare name e.1 = .lt) : find? name entries = none := by
  induction entries with
  | nil => rfl
  | cons e rest ih =>
    obtain ⟨n, b⟩ := e
    have hn : n ≠ name := fun e => by simpa [e] using h (n, b) (by simp)
    simp [find?, hn, ih fun e he => h e (by simp [he])]

/-- A list that increases already is left as it is. -/
theorem sortLast_eq_self {entries : List (String × α)} (h : Increasing entries) :
    sortLast entries = entries := by
  induction entries with
  | nil => rfl
  | cons e rest ih =>
    obtain ⟨n, b⟩ := e
    obtain ⟨hn, hrest⟩ := List.pairwise_cons.mp h
    rw [sortLast, ih hrest, insertNew, find?_eq_none_of_lt hn]
    cases rest with
    | nil => rfl
    | cons f rest => simp [insert, hn f (by simp)]

theorem sortLast_sortLast (entries : List (String × α)) :
    sortLast (sortLast entries) = sortLast entries :=
  sortLast_eq_self (increasing_sortLast entries)

theorem find?_isSome_iff {name : String} {entries : List (String × α)} :
    (find? name entries).isSome ↔ name ∈ entries.map Prod.fst := by
  induction entries with
  | nil => simp [find?]
  | cons e rest ih =>
    obtain ⟨n, b⟩ := e
    by_cases hn : n = name
    · simp [find?, hn]
    · simp [find?, hn, ih, Ne.symm hn]

theorem mem_of_find? {name : String} {a : α} {entries : List (String × α)}
    (h : find? name entries = some a) : (name, a) ∈ entries := by
  induction entries with
  | nil => simp [find?] at h
  | cons e rest ih =>
    obtain ⟨n, b⟩ := e
    by_cases hn : n = name
    · simp_all [find?]
    · exact List.mem_cons_of_mem _ (ih (by simpa [find?, hn] using h))

/-- If names increase, what is found under one is the only entry of it. -/
theorem Increasing.find?_eq_some_iff {name : String} {a : α} {entries : List (String × α)}
    (he : Increasing entries) : find? name entries = some a ↔ (name, a) ∈ entries := by
  refine ⟨mem_of_find?, fun h => ?_⟩
  induction entries with
  | nil => simp at h
  | cons e rest ih =>
    obtain ⟨n, b⟩ := e
    obtain ⟨hn, hrest⟩ := List.pairwise_cons.mp he
    rcases List.mem_cons.mp h with h | h
    · simp_all [find?]
    · have : n ≠ name := fun e => by simpa [e] using hn _ h
      simp [find?, this, ih hrest h]

/-! #### Changing the values -/

/-- Applies a function to every value of a list of entries. -/
def mapValues (f : α → β) (entries : List (String × α)) : List (String × β) :=
  entries.map fun e => (e.1, f e.2)

theorem increasing_mapValues {f : α → β} {entries : List (String × α)} :
    Increasing (mapValues f entries) ↔ Increasing entries := by
  simp [Increasing, mapValues, List.pairwise_map]

theorem find?_mapValues (f : α → β) (name : String) (entries : List (String × α)) :
    find? name (mapValues f entries) = (find? name entries).map f := by
  induction entries with
  | nil => rfl
  | cons e rest ih =>
    obtain ⟨n, a⟩ := e
    by_cases h : n = name
    · simp [mapValues, find?, h]
    · simpa [mapValues, find?, h] using ih

theorem mapValues_insert (f : α → β) (name : String) (a : α) (entries : List (String × α)) :
    mapValues f (insert name a entries) = insert name (f a) (mapValues f entries) := by
  induction entries with
  | nil => rfl
  | cons e rest ih =>
    obtain ⟨n, b⟩ := e
    simp only [mapValues, insert, List.map_cons] at ih ⊢
    split <;> simp [ih]

/-- Sorting does not look at the values. -/
theorem mapValues_sortLast (f : α → β) (entries : List (String × α)) :
    mapValues f (sortLast entries) = sortLast (mapValues f entries) := by
  induction entries with
  | nil => rfl
  | cons e rest ih =>
    obtain ⟨n, a⟩ := e
    show mapValues f (insertNew n a (sortLast rest)) =
      insertNew n (f a) (sortLast (mapValues f rest))
    unfold insertNew
    rw [← ih, find?_mapValues, ← mapValues_insert]
    cases find? n (sortLast rest) <;> rfl

end Entries

/-! ### Maps -/

/-- A finite map from names, as the list of its entries in increasing order of the names. -/
structure SortedMap (α : Type) where
  /-- The entries from the least name to the greatest. -/
  entries : List (String × α)
  increasing : Entries.Increasing entries

namespace SortedMap

variable {α : Type}

instance [DecidableEq α] : DecidableEq (SortedMap α) := fun s t =>
  decidable_of_iff (s.entries = t.entries)
    ⟨fun h => by cases s; cases t; simp_all, fun h => h ▸ rfl⟩

/-- The map without entries. -/
def empty : SortedMap α := ⟨[], List.Pairwise.nil⟩

instance : Inhabited (SortedMap α) := ⟨empty⟩

/-- The map of a list of entries; of several entries of one name, the last. -/
def ofList (entries : List (String × α)) : SortedMap α :=
  ⟨Entries.sortLast entries, Entries.increasing_sortLast entries⟩

/-- What the map holds for a name. -/
def find? (m : SortedMap α) (name : String) : Option α := Entries.find? name m.entries

/-- The map with one entry put into it or replaced. -/
def insert (m : SortedMap α) (name : String) (a : α) : SortedMap α :=
  ⟨Entries.insert name a m.entries, Entries.increasing_insert m.increasing⟩

/-- The names that have an entry, in increasing order. -/
def names (m : SortedMap α) : List String := m.entries.map Prod.fst

/-- The values, in increasing order of their names. -/
def values (m : SortedMap α) : List α := m.entries.map Prod.snd

/-- The number of entries. -/
def size (m : SortedMap α) : Nat := m.entries.length

/-- Whether there is no entry. -/
def isEmpty (m : SortedMap α) : Bool := m.entries.isEmpty

@[simp] theorem find?_insert (m : SortedMap α) (name other : String) (a : α) :
    (m.insert name a).find? other = if name = other then some a else m.find? other :=
  Entries.find?_insert name other a m.entries

theorem find?_isSome_iff {m : SortedMap α} {name : String} :
    (m.find? name).isSome ↔ name ∈ m.names :=
  Entries.find?_isSome_iff

theorem find?_eq_some_iff {m : SortedMap α} {name : String} {a : α} :
    m.find? name = some a ↔ (name, a) ∈ m.entries :=
  m.increasing.find?_eq_some_iff

@[simp] theorem ofList_entries (m : SortedMap α) : ofList m.entries = m := by
  cases m with
  | mk entries h => simp [ofList, Entries.sortLast_eq_self h]

end SortedMap

end TypedPaths

/-
TypedPaths/Order/SortedSet.lean

Finite sets held as strictly increasing lists.

Design.  A set is its list of elements in increasing order, so two sets with the same elements
are equal and the order in which a set is shown is the order of the list.  The order is the
`compare` of the element type; the laws it needs are asked for where they are used.

Main results:
* `SortedSet.mem_insert`, `SortedSet.mem_ofList`: what the elements are.
* `SortedSet.ext_mem`: a set is determined by its elements.
-/

namespace TypedPaths

open Std

/-! ### Insertion into an increasing list -/

section Insertion

variable {α : Type} [Ord α]

/-- Puts `a` at its place in an increasing list; a list that holds `a` already stays as it is. -/
def insertSorted (a : α) : List α → List α
  | [] => [a]
  | b :: bs =>
    match compare a b with
    | .lt => a :: b :: bs
    | .eq => b :: bs
    | .gt => b :: insertSorted a bs

/-- The elements of a list in strictly increasing order, each of them once. -/
def sortDistinct : List α → List α
  | [] => []
  | a :: as => insertSorted a (sortDistinct as)

/-- Each element is below all that follow it. -/
def Increasing (l : List α) : Prop :=
  l.Pairwise fun a b => compare a b = .lt

/-- Insertion adds the element and keeps the others. -/
theorem mem_insertSorted [LawfulEqOrd α] {a x : α} {l : List α} :
    x ∈ insertSorted a l ↔ x = a ∨ x ∈ l := by
  induction l with
  | nil => simp [insertSorted]
  | cons b bs ih =>
    rw [insertSorted]
    split
    · simp
    · next h => rw [LawfulEqCmp.eq_of_compare h]; simp
    · simp only [List.mem_cons, ih]
      constructor <;> rintro (h | h | h) <;> simp [h]

theorem mem_sortDistinct [LawfulEqOrd α] {x : α} {l : List α} :
    x ∈ sortDistinct l ↔ x ∈ l := by
  induction l with
  | nil => simp [sortDistinct]
  | cons a as ih => simp [sortDistinct, mem_insertSorted, ih]

/-- Insertion keeps the order. -/
theorem increasing_insertSorted [TransOrd α] [LawfulEqOrd α] {a : α} {l : List α}
    (hl : Increasing l) : Increasing (insertSorted a l) := by
  induction l with
  | nil => simp [insertSorted, Increasing]
  | cons b bs ih =>
    obtain ⟨hb, hbs⟩ := List.pairwise_cons.mp hl
    rw [insertSorted]
    split
    · next h =>
      refine List.pairwise_cons.mpr ⟨fun x hx => ?_, hl⟩
      rcases List.mem_cons.mp hx with rfl | hx
      · exact h
      · exact TransCmp.lt_trans h (hb x hx)
    · exact hl
    · next h =>
      refine List.pairwise_cons.mpr ⟨fun x hx => ?_, ih hbs⟩
      rcases mem_insertSorted.mp hx with rfl | hx
      · exact OrientedCmp.lt_of_gt h
      · exact hb x hx

/-- Sorting makes the elements increase, so that none is there twice. -/
theorem increasing_sortDistinct [TransOrd α] [LawfulEqOrd α] (l : List α) :
    Increasing (sortDistinct l) := by
  induction l with
  | nil => simp [sortDistinct, Increasing]
  | cons a as ih => exact increasing_insertSorted ih

/-- Two increasing lists with the same elements are the same list. -/
theorem Increasing.eq_of_mem_iff [TransOrd α] {l m : List α} (hl : Increasing l)
    (hm : Increasing m) (h : ∀ x, x ∈ l ↔ x ∈ m) : l = m := by
  induction l generalizing m with
  | nil => exact (List.eq_nil_iff_forall_not_mem.mpr fun x hx => by simp [← h x] at hx).symm
  | cons a as ih =>
    cases m with
    | nil => exact absurd ((h a).mp (by simp)) (by simp)
    | cons b bs =>
      obtain ⟨ha, has⟩ := List.pairwise_cons.mp hl
      obtain ⟨hb, hbs⟩ := List.pairwise_cons.mp hm
      have hab : a = b := by
        rcases List.mem_cons.mp ((h a).mp (by simp)) with e | hma
        · exact e
        · rcases List.mem_cons.mp ((h b).mpr (by simp)) with e | hmb
          · exact e.symm
          · have := TransCmp.lt_trans (ha b hmb) (hb a hma)
            simp [ReflCmp.compare_self] at this
      subst hab
      congr 1
      refine ih has hbs fun x => ⟨fun hx => ?_, fun hx => ?_⟩
      · rcases List.mem_cons.mp ((h x).mp (List.mem_cons_of_mem _ hx)) with rfl | hx'
        · have := ha x hx
          simp [ReflCmp.compare_self] at this
        · exact hx'
      · rcases List.mem_cons.mp ((h x).mpr (List.mem_cons_of_mem _ hx)) with rfl | hx'
        · have := hb x hx
          simp [ReflCmp.compare_self] at this
        · exact hx'

end Insertion

/-! ### Sets -/

/-- A finite set, as the list of its elements in increasing order. -/
structure SortedSet (α : Type) [Ord α] where
  /-- The elements from the least to the greatest. -/
  toList : List α
  increasing : Increasing toList

namespace SortedSet

variable {α : Type} [Ord α]

instance [DecidableEq α] : DecidableEq (SortedSet α) := fun s t =>
  decidable_of_iff (s.toList = t.toList)
    ⟨fun h => by cases s; cases t; simp_all, fun h => h ▸ rfl⟩

instance : Membership α (SortedSet α) := ⟨fun s a => a ∈ s.toList⟩

@[simp] theorem mem_toList {s : SortedSet α} {a : α} : a ∈ s.toList ↔ a ∈ s := Iff.rfl

/-- The set without elements. -/
def empty : SortedSet α := ⟨[], List.Pairwise.nil⟩

instance : Inhabited (SortedSet α) := ⟨empty⟩

@[simp] theorem not_mem_empty (a : α) : a ∉ (empty : SortedSet α) := List.not_mem_nil

/-- The number of elements. -/
def size (s : SortedSet α) : Nat := s.toList.length

/-- Whether there is no element. -/
def isEmpty (s : SortedSet α) : Bool := s.toList.isEmpty

/-- A set is determined by its elements. -/
theorem ext_mem [TransOrd α] {s t : SortedSet α} (h : ∀ x, x ∈ s ↔ x ∈ t) : s = t := by
  have := s.increasing.eq_of_mem_iff t.increasing h
  cases s; cases t; simp_all

variable [TransOrd α] [LawfulEqOrd α]

/-- The set with `a` put into it. -/
def insert (a : α) (s : SortedSet α) : SortedSet α :=
  ⟨insertSorted a s.toList, increasing_insertSorted s.increasing⟩

/-- The set of the elements of a list. -/
def ofList (l : List α) : SortedSet α := ⟨sortDistinct l, increasing_sortDistinct l⟩

/-- The set with the elements of a list put into it. -/
def insertAll (l : List α) (s : SortedSet α) : SortedSet α := ofList (l ++ s.toList)

@[simp] theorem mem_insert {a x : α} {s : SortedSet α} : x ∈ s.insert a ↔ x = a ∨ x ∈ s :=
  mem_insertSorted

@[simp] theorem mem_ofList {x : α} {l : List α} : x ∈ ofList l ↔ x ∈ l :=
  mem_sortDistinct

/-- A list in increasing order is the list of its set. -/
theorem toList_ofList {l : List α} (hl : Increasing l) : (ofList l).toList = l :=
  (increasing_sortDistinct l).eq_of_mem_iff hl fun _ => mem_sortDistinct

@[simp] theorem mem_insertAll {x : α} {l : List α} {s : SortedSet α} :
    x ∈ s.insertAll l ↔ x ∈ l ∨ x ∈ s := by
  simp [insertAll]

end SortedSet

end TypedPaths

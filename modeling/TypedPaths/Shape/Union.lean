/-
TypedPaths/Shape/Union.lean

Normalised unions.

Design.  `Shape.unionOf` spreads the members that are unions themselves, one level deep, and
then looks at the whole list: `any` absorbs it, else `unknown` does, else `never` and repeated
members drop out and what is left is a union only if it has two members or more.

Main results: `Shape.exists_same_mem_distinct` and `Shape.pairwise_distinct`: `Shape.distinct`
keeps a member of each sameness class and no two of one class.
-/
import TypedPaths.Shape

namespace TypedPaths.Shape

/-! ### Members -/

/-- The members of a union, and any other shape alone. -/
def spread : Shape → List Shape
  | union members => members
  | s => [s]

/-- The first of each class of shapes that are the same, in order. -/
def distinct : List Shape → List Shape
  | [] => []
  | s :: ss => s :: (distinct ss).filter fun t => ¬ s.Same t

/-- The union of members that are neither `any` nor `unknown`. -/
def ofDistinct : List Shape → Shape
  | [] => never
  | [s] => s
  | s :: t :: ss => union (s :: t :: ss)

/-- The normalised union of shapes. -/
def unionOf (members : List Shape) : Shape :=
  let flat := members.flatMap spread
  if any ∈ flat then any
  else if unknown ∈ flat then unknown
  else ofDistinct (distinct (flat.filter (· ≠ never)))

/-- The shape or `undefined`. -/
def orUndefined (s : Shape) : Shape := unionOf [s, undefined]

/-- The shape or `null`. -/
def nullable (s : Shape) : Shape := unionOf [s, null]

mutual

/-- Whether `undefined` is the shape or a member, also of a union inside a union. -/
def includesUndefined : Shape → Bool
  | primitive .undefined => true
  | union members => includesUndefinedAny members
  | _ => false

/-- Whether `undefined` is included in one of the shapes. -/
def includesUndefinedAny : List Shape → Bool
  | [] => false
  | s :: ss => includesUndefined s || includesUndefinedAny ss

end

theorem includesUndefinedAny_eq_any (ss : List Shape) :
    includesUndefinedAny ss = ss.any includesUndefined := by
  induction ss with
  | nil => rfl
  | cons s ss ih => simp [includesUndefinedAny, ih]

/-! ### Distinct members -/

theorem mem_of_mem_distinct {s : Shape} {ss : List Shape} (h : s ∈ distinct ss) : s ∈ ss := by
  induction ss with
  | nil => exact h
  | cons t ts ih =>
    rcases List.mem_cons.mp h with rfl | h
    · simp
    · exact List.mem_cons_of_mem _ (ih (List.mem_filter.mp h).1)

/-- Every shape of the list is the same as one that is kept. -/
theorem exists_same_mem_distinct {s : Shape} {ss : List Shape} (h : s ∈ ss) :
    ∃ t ∈ distinct ss, t.Same s := by
  induction ss with
  | nil => simp at h
  | cons t ts ih =>
    rcases List.mem_cons.mp h with rfl | h
    · exact ⟨s, by simp [distinct], s.same_refl⟩
    · obtain ⟨u, hu, hs⟩ := ih h
      by_cases htu : t.Same u
      · exact ⟨t, by simp [distinct], htu.trans hs⟩
      · exact ⟨u, by simp [distinct, hu, htu], hs⟩

/-- No two of the shapes that are kept are the same. -/
theorem pairwise_distinct (ss : List Shape) : (distinct ss).Pairwise fun s t => ¬ s.Same t := by
  induction ss with
  | nil => exact List.Pairwise.nil
  | cons t ts ih =>
    refine List.pairwise_cons.mpr ⟨fun u hu => ?_, ih.filter _⟩
    simpa using (List.mem_filter.mp hu).2

end TypedPaths.Shape

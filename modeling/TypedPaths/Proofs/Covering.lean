/-
TypedPaths/Proofs/Covering.lean

What positions and sets of patterns cover.

Design.  A position covers its decimal text and nothing else, and only if it is below `2 ^ 64`: no
number beyond is the position of any text, and none wraps around to one (`index?_eq_some_iff`).

A set of patterns that is moved below a place keeps its patterns and their order, because patterns
with the same parts in front compare as what is behind these parts (`compare_below`).  So it covers
the paths that lead to the place and on as a pattern of the set says; a pattern that begins with
`rest` wants at least one segment behind the place.

Main results: `Path.index?_eq_some_iff`, `PatternPart.positions_canonical`,
`PatternSet.toList_below`, `PatternSet.contains_below`.
-/
import TypedPaths.Proofs.Listing
import TypedPaths.Proofs.Segment
import Mathlib.Algebra.Group.Nat.Defs

namespace TypedPaths

/-! ### Positions -/

namespace Path

variable {segment : String} {n : Nat}

theorem lt_of_index? (h : index? segment = some n) : n < UInt64.size := by
  unfold index? at h
  dsimp only at h
  split at h
  · next hdecimal =>
    rw [← Option.some.inj h]
    exact hdecimal.2
  · cases h

/-- The segments that stand for positions are the decimal texts of the numbers below `2 ^ 64`. -/
theorem index?_eq_some_iff : index? segment = some n ↔ n < 2 ^ 64 ∧ segment = toString n := by
  refine ⟨fun h => ⟨lt_of_index? h, eq_toString_of_index? h⟩, ?_⟩
  rintro ⟨hn, rfl⟩
  exact index?_toString hn

/-- Digits that denote a number beyond all positions stand for none. -/
theorem index?_of_le (h : 2 ^ 64 ≤ digitsValue segment.toList) : index? segment = none := by
  have hlt : ¬ digitsValue segment.toList < UInt64.size := Nat.not_lt.mpr h
  unfold index?
  dsimp only
  rw [if_neg fun hdecimal => hlt hdecimal.2]

end Path

namespace PatternPart

theorem covers_index_iff {i : Nat} {segment : String} :
    (index i).covers segment = true ↔ i < 2 ^ 64 ∧ segment = (index i).text := by
  rw [covers, beq_iff_eq, Path.index?_eq_some_iff, text]

/-- A segment stands for a position if and only if it is its decimal text and the position is below
`2 ^ 64`.  So no two segments stand for one position, the part of a position covers only its own text,
and longer digits stand for nothing. -/
theorem positions_canonical (segment : String) (n : Nat) :
    (Path.index? segment = some n ↔ n < 2 ^ 64 ∧ segment = toString n) ∧
    (∀ other, Path.index? segment = some n → Path.index? other = some n → segment = other) ∧
    ((index n).covers segment = true ↔ n < 2 ^ 64 ∧ segment = (index n).text) ∧
    (2 ^ 64 ≤ Path.digitsValue segment.toList → Path.index? segment = none) :=
  ⟨Path.index?_eq_some_iff, fun _ => Path.index?_inj, covers_index_iff, Path.index?_of_le⟩

end PatternPart

/-! ### Patterns below a place -/

namespace Pattern

variable {head : List String} {p q : Pattern}

/-- Patterns below one place are in the order that they are in without it. -/
theorem compare_below : compare (p.below head) (q.below head) = compare p q := by
  unfold below
  induction head with
  | nil => rfl
  | cons name head ih =>
    have hname : compare (PatternPart.key name) (.key name) = .eq := Std.ReflCmp.compare_self
    rw [List.compare_eq_compareLex] at ih ⊢
    rw [List.map_cons, List.cons_append, List.cons_append, List.compareLex_cons_cons, hname]
    exact ih

/-- Below a place, a pattern that begins with `rest` covers what leads further than the place. -/
theorem covers_below_rest_iff {parts : Pattern} {segments : List String} :
    (Pattern.below head (.rest :: parts)).covers segments = true ↔
      ∃ rest, segments = head ++ rest ∧ rest ≠ [] := by
  rw [covers_below_iff]
  simp [covers]

end Pattern

namespace PatternSet

variable {head : List String} {set : PatternSet}

/-- Moving a set of patterns below a place moves each of them and keeps their order. -/
theorem toList_below (head : List String) (set : PatternSet) :
    (set.below head).toList = set.toList.map (Pattern.below head) := by
  apply SortedSet.toList_ofList
  rw [Increasing, List.pairwise_map]
  exact set.increasing.imp fun h => Pattern.compare_below.trans h

/-- A set of patterns below a place covers a path if and only if its segments are those of the place
and segments behind them that a pattern of the set covers, at least one segment if the pattern begins
with `rest`.  The set has as many patterns as before, in the same order. -/
theorem contains_below (set : PatternSet) (head : List String) :
    (∀ path, (set.below head).contains path = true ↔
      ∃ rest, Path.segments path = head ++ rest ∧ ∃ p ∈ set, p.covers rest = true) ∧
    (∀ (parts : Pattern) (segments : List String),
      (Pattern.below head (.rest :: parts)).covers segments = true ↔
        ∃ rest, segments = head ++ rest ∧ rest ≠ []) ∧
    (set.below head).toList = set.toList.map (Pattern.below head) ∧
    (set.below head).size = set.size := by
  refine ⟨fun path => ?_, fun _ _ => Pattern.covers_below_rest_iff, toList_below head set, ?_⟩
  · rw [contains, covers_below_iff]
    simp only [covers_iff]
  · rw [SortedSet.size, toList_below, List.length_map, SortedSet.size]

end PatternSet

end TypedPaths

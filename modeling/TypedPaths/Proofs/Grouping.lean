/-
TypedPaths/Proofs/Grouping.lean

Unions inside unions.

Design.  A member of a union may be a union itself, written in place or named by a reference.
What the outer union finds is what it would find with the members of the inner one in its place,
but for one case.  A member in which a path cannot be resolved is dropped and adds no mark, and
this is so for an inner union as a whole.  If one of its members has the first segment and another
one lacks it, then the inner union has the segment, and the mark that the other member would leave
is dropped with it (`Discards`).  Everything else is the same on both sides by the equation for a
union that is read (`reaches_union_reading`), applied to the inner union and to the outer one.

Main results: `reaches_ungroup_iff`, `shapeBelow_ungrouped`.
-/
import TypedPaths.Proofs.Lacking
import TypedPaths.Proofs.Leaves

namespace TypedPaths.Schema

open Shape

variable {S : Schema} {A : Shape → Prop} {b : Nat} {segment : String} {rest : List String}
  {N s : Shape} {ns xs ys : List Shape}

/-- The path cannot be resolved in the union of the members, although one of them has the first
segment; and another one has values but lacks it. -/
def Discards (S : Schema) (b : Budget) (segments : List String) (members : List Shape) : Prop :=
  S.resolve .reading b segments (.union members) = none ∧
  (∃ m ∈ members, S.resolve .reading b (segments.take 1) m ≠ none) ∧
  ∃ m ∈ members, S.kind m ≠ .never ∧ S.resolve .reading b (segments.take 1) m = none

/-! ### Marks that are dropped -/

/-- A single segment leads somewhere exactly if there is something below a branch. -/
theorem resolve_singleton_ne_none_iff (hS : S.Valid) :
    S.resolve .reading (b + 1) [segment] s ≠ none ↔ S.Below segment (fun _ => True) s := by
  rw [← Option.isSome_iff_ne_none, isSome_resolve_singleton hS, defines_iff hS]

/-- What it takes for marks to be dropped with a nested union, asked branch by branch. -/
theorem discards_iff (hS : S.Valid) : S.Discards (b + 1) (segment :: rest) ns ↔
    ¬ S.Reaches .reading (b + 1) (segment :: rest) (fun _ => True) (.union ns) ∧
    (∃ n ∈ ns, S.Below segment (fun _ => True) n) ∧ ∃ n ∈ ns, S.Lacks segment n := by
  unfold Discards Lacks
  simp only [List.take_succ_cons, List.take_zero, ← resolve_singleton_ne_none_iff hS (b := b),
    not_not, reaches_true, ← Option.isSome_iff_exists, Option.not_isSome_iff_eq_none]

/-! ### The members in its place -/

section

variable {P : Shape → Prop}

theorem exists_mem_group_iff :
    (∃ s ∈ xs ++ N :: ys, P s) ↔ (∃ s ∈ xs ++ ys, P s) ∨ P N := by
  simp only [List.mem_append, List.mem_cons, or_and_right, exists_or, exists_eq_left]
  rw [or_assoc, or_comm (a := P N)]

theorem exists_mem_ungroup_iff :
    (∃ s ∈ xs ++ ns ++ ys, P s) ↔ (∃ s ∈ xs ++ ys, P s) ∨ ∃ n ∈ ns, P n := by
  simp only [List.mem_append, or_and_right, exists_or]
  rw [or_right_comm]

end

/-- Something is found in both unions or in neither. -/
theorem reaches_true_ungroup_iff (hS : S.Valid) (hN : S.deref N = .ok (.union ns)) :
    S.Reaches .reading (b + 1) (segment :: rest) (fun _ => True) (.union (xs ++ ns ++ ys)) ↔
      S.Reaches .reading (b + 1) (segment :: rest) (fun _ => True) (.union (xs ++ N :: ys)) := by
  rw [reaches_true_union hS, reaches_true_union hS, exists_mem_ungroup_iff, exists_mem_group_iff,
    reaches_of_deref hS hN, reaches_true_union hS]

/-- With the members of the inner union in its place the same is found, and `undefined` where its
mark was dropped. -/
theorem reaches_ungroup_iff (hS : S.Valid) (hA : Memberwise A) (hN : S.deref N = .ok (.union ns)) :
    S.Reaches .reading (b + 1) (segment :: rest) A (.union (xs ++ ns ++ ys)) ↔
      S.Reaches .reading (b + 1) (segment :: rest) A (.union (xs ++ N :: ys)) ∨
        S.Discards (b + 1) (segment :: rest) ns ∧ A .undefined ∧
          S.Reaches .reading (b + 1) (segment :: rest) (fun _ => True) (.union (xs ++ N :: ys)) := by
  rw [reaches_union_reading hS hA, reaches_union_reading hS hA, reaches_true_ungroup_iff hS hN,
    exists_mem_ungroup_iff, exists_mem_group_iff, exists_mem_ungroup_iff, exists_mem_group_iff,
    reaches_of_deref hS hN, reaches_union_reading hS hA, lacks_of_deref hS hN, lacks_union_iff hS,
    discards_iff hS]
  constructor
  · rintro ((h | h) | ⟨hundefined, h | hlacks, hsome⟩)
    · exact .inl (.inl (.inl h))
    · exact .inl (.inl (.inr (.inl h)))
    · exact .inl (.inr ⟨hundefined, .inl h, hsome⟩)
    · -- a member of the inner union leaves the mark
      by_cases hhas : ∃ n ∈ ns, S.Below segment (fun _ => True) n
      swap
      · exact .inl (.inr ⟨hundefined, .inr ⟨hlacks, hhas⟩, hsome⟩)
      by_cases hinner : S.Reaches .reading (b + 1) (segment :: rest) (fun _ => True) (.union ns)
      · exact .inl (.inl (.inr (.inr ⟨hundefined, hlacks, hinner⟩)))
      · exact .inr ⟨⟨hinner, hhas, hlacks⟩, hundefined, hsome⟩
  · rintro (((h | h | ⟨hundefined, hlacks, hinner⟩) | ⟨hundefined, h | ⟨hlacks, -⟩, hsome⟩) |
      ⟨⟨-, -, hlacks⟩, hundefined, hsome⟩)
    · exact .inl (.inl h)
    · exact .inl (.inr h)
    · refine .inr ⟨hundefined, .inr hlacks, ?_⟩
      rw [reaches_true_union hS, exists_mem_group_iff, reaches_of_deref hS hN]
      exact .inr hinner
    · exact .inr ⟨hundefined, .inl h, hsome⟩
    · exact .inr ⟨hundefined, .inr hlacks, hsome⟩
    · exact .inr ⟨hundefined, .inr hlacks, hsome⟩

/-- Nesting or naming a union does not change the type found when it is read, unless the inner union
loses a mark as it is dropped; this mark is found then with its members in its place. -/
theorem shapeBelow_ungrouped (hS : S.Valid) (hN : S.deref N = .ok (.union ns)) (xs ys : List Shape)
    (b : Budget) {path : String} (hpath : path ≠ "") :
    ((∃ t, S.shapeBelow .reading b (.union (xs ++ N :: ys)) path = .ok t) ↔
      ∃ u, S.shapeBelow .reading b (.union (xs ++ ns ++ ys)) path = .ok u) ∧
    ∀ t u, S.shapeBelow .reading b (.union (xs ++ N :: ys)) path = .ok t →
      S.shapeBelow .reading b (.union (xs ++ ns ++ ys)) path = .ok u →
      (¬ S.Discards b (Path.segments path) ns → t.SameLeaves u) ∧
      (S.Discards b (Path.segments path) ns → t.orUndefined.SameLeaves u) := by
  obtain ⟨segment, rest, hsegments⟩ := Path.exists_segments_eq_cons hpath
  simp only [shapeBelow_eq_ok, hsegments]
  cases b with
  | zero =>
    simp only [resolve_zero, Option.some.injEq]
    refine ⟨trivial, ?_⟩
    rintro t u rfl rfl
    exact ⟨fun _ => sameLeaves_iff.mpr fun B _ => Iff.rfl, fun h => absurd h.1 nofun⟩
  | succ b =>
    refine ⟨?_, fun t u ht hu => ?_⟩
    · simp only [← reaches_true]
      exact (reaches_true_ungroup_iff hS hN).symm
    have hsome : S.Reaches .reading (b + 1) (segment :: rest) (fun _ => True)
        (.union (xs ++ N :: ys)) := ⟨t, ht, trivial⟩
    have hholds : ∀ B : Shape → Prop, (∀ {v w}, v.Same w → B v → B w) →
        (Holds B u.leaves ↔ Holds B t.leaves ∨
          S.Discards (b + 1) (segment :: rest) ns ∧ Holds B Shape.undefined.leaves) := by
      intro B same
      have hA : Memberwise fun v => Holds B v.leaves := memberwise_holds same
      rw [← reaches_of_resolve (A := fun v => Holds B v.leaves) hu,
        ← reaches_of_resolve (A := fun v => Holds B v.leaves) ht, reaches_ungroup_iff hS hA hN,
        and_iff_left hsome]
    constructor
    · intro hkept
      exact sameLeaves_iff.mpr fun B same => by simp only [hholds B same, hkept, false_and, or_false]
    · intro hdiscards
      refine sameLeaves_iff.mpr fun B same => ?_
      rw [hholds B same, (memberwise_holds same).orUndefined_iff, and_iff_right hdiscards]

/-- A text, or nothing at all. -/
def note : List Shape := [.struct [⟨"entry", .primitive .string, false, false, false⟩] none, .null]

/-- An entry with a title. -/
def titled : Shape :=
  .struct [⟨"entry", .struct [⟨"title", .primitive .string, false, false, false⟩] none,
    false, false, false⟩] none

/-- Notes and entries with a title. -/
def entries : Schema where
  root := .union [.ref "note", titled]
  definitions := .ofList [("note", .union note)]

theorem shapeBelow_ungrouped_entry :
    entries.Valid ∧ entries.deref (.ref "note") = .ok (.union note) ∧ "entry" ≠ "" ∧
    entries.shapeBelow .reading 1 (.union ([] ++ .ref "note" :: [titled])) "entry" =
      .ok (.union [.primitive .string, .undefined,
        .struct [⟨"title", .primitive .string, false, false, false⟩] none]) ∧
    entries.shapeBelow .reading 1 (.union ([] ++ note ++ [titled])) "entry" =
      .ok (.union [.primitive .string,
        .struct [⟨"title", .primitive .string, false, false, false⟩] none, .undefined]) ∧
    ¬ entries.Discards 1 (Path.segments "entry") note ∧
    SameLeaves
      (.union [.primitive .string, .undefined,
        .struct [⟨"title", .primitive .string, false, false, false⟩] none])
      (.union [.primitive .string,
        .struct [⟨"title", .primitive .string, false, false, false⟩] none, .undefined]) := by
  have hvalid : entries.Valid := by decide
  have hnote : entries.deref (.ref "note") = .ok (.union note) := by decide +kernel
  have hpath : "entry" ≠ "" := by decide
  have hgrouped : entries.shapeBelow .reading 1 (.union ([] ++ .ref "note" :: [titled])) "entry" =
      .ok (.union [.primitive .string, .undefined,
        .struct [⟨"title", .primitive .string, false, false, false⟩] none]) := by decide +kernel
  have hungrouped : entries.shapeBelow .reading 1 (.union ([] ++ note ++ [titled])) "entry" =
      .ok (.union [.primitive .string,
        .struct [⟨"title", .primitive .string, false, false, false⟩] none, .undefined]) := by
    decide +kernel
  have hkept : ¬ entries.Discards 1 (Path.segments "entry") note := by
    rintro ⟨hnone, -⟩
    exact absurd hnone (by decide +kernel)
  exact ⟨hvalid, hnote, hpath, hgrouped, hungrouped, hkept,
    ((shapeBelow_ungrouped hvalid hnote [] [titled] 1 hpath).2 _ _ hgrouped hungrouped).1 hkept⟩

/-- A note has no title, so it is dropped with the mark for what may be missing in its place. -/
theorem not_sameLeaves_of_ungrouped :
    entries.Valid ∧ entries.deref (.ref "note") = .ok (.union note) ∧ "entry.title" ≠ "" ∧
    (Path.segments "entry.title").length ≤ 2 ∧
    entries.shapeBelow .reading 2 (.union [.ref "note", titled]) "entry.title" =
      .ok (.primitive .string) ∧
    entries.shapeBelow .reading 2 (.union (note ++ [titled])) "entry.title" =
      .ok (.union [.primitive .string, .undefined]) ∧
    ¬ SameLeaves (.primitive .string) (.union [.primitive .string, .undefined]) := by
  refine ⟨by decide, by decide +kernel, by decide, by decide, by decide +kernel, by decide +kernel, ?_⟩
  -- `undefined` is among the leaves on one side only
  rintro ⟨-, heverything | ⟨-, hall⟩⟩
  · simp [Everything, leaves] at heverything
  · obtain ⟨m, hm, hsame⟩ := hall .undefined (by simp [leaves, leavesOfMembers])
    obtain rfl := List.mem_singleton.mp hm
    cases same_primitive hsame

end TypedPaths.Schema

/-
TypedPaths/Proofs/Leaves.lean

Leaves of shapes.

Design.  The leaves of a shape are its members once unions inside unions are opened up; references
stay closed.  How a union is nested depends on the order in which it was built, and whether a member
is repeated does too, so results that are built in different ways are compared by their leaves.
`never` has no values and is no leaf.  `any` and `unknown` take the place of the other members where
a union is normalised, so they stand for everything: a shape with one of them among its leaves has
all leaves.

That a leaf has a property is decided member by member (`memberwise_holds`), and the leaves of one
shape are among those of another if and only if each such property is handed on (`among_iff`).  So
what is known of properties of results is known of their leaves.

Main results: `memberwise_holds`, `among_iff`.
-/
import TypedPaths.Proofs.Memberwise

namespace TypedPaths.Shape

/-! ### Leaves -/

mutual

/-- The shapes that the shape is a union of, where unions inside unions are opened up. -/
def leaves : Shape → List Shape
  | never => []
  | union members => leavesOfMembers members
  | s => [s]

/-- The leaves of the members of a union. -/
def leavesOfMembers : List Shape → List Shape
  | [] => []
  | s :: ss => leaves s ++ leavesOfMembers ss

end

/-- One of the leaves stands for everything. -/
def Everything (leaves : List Shape) : Prop := any ∈ leaves ∨ unknown ∈ leaves

/-- The leaves are among the others, or the others are everything. -/
def Among (leaves others : List Shape) : Prop :=
  Everything others ∨ ¬ Everything leaves ∧ ∀ l ∈ leaves, ∃ m ∈ others, m.Same l

/-- The shapes have the same leaves. -/
def SameLeaves (s t : Shape) : Prop := Among s.leaves t.leaves ∧ Among t.leaves s.leaves

theorem leavesOfMembers_eq_flatMap (ss : List Shape) : leavesOfMembers ss = ss.flatMap leaves := by
  induction ss with
  | nil => rfl
  | cons s ss ih => rw [leavesOfMembers, ih, List.flatMap_cons]

theorem leaves_of_ne {s : Shape} (hunion : ∀ ss, s ≠ union ss) (hnever : s ≠ never) :
    s.leaves = [s] := by
  cases s with
  | union ss => exact absurd rfl (hunion ss)
  | never => exact absurd rfl hnever
  | _ => rfl

/-- The leaves of a union are those of its members. -/
theorem mem_leaves_union_iff {ss : List Shape} {l : Shape} :
    l ∈ (union ss).leaves ↔ ∃ s ∈ ss, l ∈ s.leaves := by
  rw [leaves, leavesOfMembers_eq_flatMap, List.mem_flatMap]

/-- Shapes that are the same have the same leaves, one by one. -/
theorem Same.exists_mem_leaves {s t l : Shape} (h : s.Same t) (hl : l ∈ s.leaves) :
    ∃ m ∈ t.leaves, l.Same m := by
  induction s using headInduction generalizing t with
  | concrete s hs =>
    by_cases hnever : s = never
    · subst hnever
      cases hl
    · have ht : t.leaves = [t] := by
        refine leaves_of_ne ?_ ?_
        · rintro ss rfl
          exact h.isConcrete hs
        · rintro rfl
          exact hnever (same_never h.symm)
      have hleaves : s.leaves = [s] := leaves_of_ne (fun ss hss => by rw [hss] at hs; exact hs) hnever
      rw [hleaves, List.mem_singleton] at hl
      exact ⟨t, by simp [ht], hl ▸ h⟩
  | ref n =>
    rw [same_ref h]
    exact ⟨l, hl, same_refl l⟩
  | union ss ih =>
    obtain ⟨ts, rfl, hts⟩ := same_union h
    obtain ⟨s, hs, hl⟩ := mem_leaves_union_iff.mp hl
    obtain ⟨t, ht, hst⟩ := exists_mem_of_forall₂ hts hs
    obtain ⟨m, hm, hlm⟩ := ih s hs hst hl
    exact ⟨m, mem_leaves_union_iff.mpr ⟨t, ht, hm⟩, hlm⟩

/-! ### Properties of leaves -/

variable {B : Shape → Prop} {ls ms : List Shape}

/-- One of the leaves has the property, or stands for everything. -/
def Holds (B : Shape → Prop) (leaves : List Shape) : Prop :=
  ∃ l ∈ leaves, l = any ∨ l = unknown ∨ B l

theorem Everything.holds (h : Everything ls) : Holds B ls := by
  rcases h with h | h
  · exact ⟨any, h, .inl rfl⟩
  · exact ⟨unknown, h, .inr (.inl rfl)⟩

theorem holds_iff : Holds B ls ↔ Everything ls ∨ ∃ l ∈ ls, B l := by
  constructor
  · rintro ⟨l, hl, rfl | rfl | hB⟩
    · exact .inl (.inl hl)
    · exact .inl (.inr hl)
    · exact .inr ⟨l, hl, hB⟩
  · rintro (h | ⟨l, hl, hB⟩)
    · exact h.holds
    · exact ⟨l, hl, .inr (.inr hB)⟩

/-- Leaves are among others if and only if the others have each property that the leaves have. -/
theorem among_iff : Among ls ms ↔
    ∀ B : Shape → Prop, (∀ {s t}, s.Same t → B s → B t) → Holds B ls → Holds B ms := by
  constructor
  · rintro (h | ⟨hnot, hall⟩) B same hls
    · exact h.holds
    · obtain ⟨l, hl, hB⟩ := (holds_iff.mp hls).resolve_left hnot
      obtain ⟨m, hm, hml⟩ := hall l hl
      exact ⟨m, hm, .inr (.inr (same hml.symm hB))⟩
  · intro h
    by_cases hms : Everything ms
    · exact .inl hms
    refine .inr ⟨fun hls => hms ?_, fun l hl => ?_⟩
    · -- without a property to have, only what stands for everything is left
      simpa [holds_iff] using h (fun _ => False) (fun _ hfalse => hfalse) hls.holds
    · have hl : Holds (·.Same l) ls := ⟨l, hl, .inr (.inr (same_refl l))⟩
      exact (holds_iff.mp (h (·.Same l) (fun hst hs => hst.symm.trans hs) hl)).resolve_left hms

/-- Shapes have the same leaves if and only if the properties of these are the same. -/
theorem sameLeaves_iff {s t : Shape} : s.SameLeaves t ↔
    ∀ B : Shape → Prop, (∀ {u v}, u.Same v → B u → B v) → (Holds B s.leaves ↔ Holds B t.leaves) := by
  unfold SameLeaves
  rw [among_iff, among_iff]
  exact ⟨fun h B same => ⟨h.1 B same, h.2 B same⟩,
    fun h => ⟨fun B same => (h B same).mp, fun B same => (h B same).mpr⟩⟩

/-- Whether a leaf has a property is decided member by member. -/
theorem memberwise_holds (same : ∀ {s t}, s.Same t → B s → B t) :
    Memberwise fun s => Holds B s.leaves where
  any := ⟨any, List.mem_singleton_self any, .inl rfl⟩
  unknown := ⟨unknown, List.mem_singleton_self unknown, .inr (.inl rfl)⟩
  never := by
    rintro ⟨l, hl, -⟩
    cases hl
  same := by
    rintro s t hst ⟨l, hl, h⟩
    obtain ⟨m, hm, hlm⟩ := hst.exists_mem_leaves hl
    refine ⟨m, hm, ?_⟩
    rcases h with rfl | rfl | h
    · exact .inl (same_any hlm)
    · exact .inr (.inl (same_unknown hlm))
    · exact .inr (.inr (same hlm h))
  union := by
    intro ss
    constructor
    · rintro ⟨l, hl, h⟩
      obtain ⟨s, hs, hl⟩ := mem_leaves_union_iff.mp hl
      exact ⟨s, hs, l, hl, h⟩
    · rintro ⟨s, hs, l, hl, h⟩
      exact ⟨l, mem_leaves_union_iff.mpr ⟨s, hs, hl⟩, h⟩

/-- A property that `undefined` does not have is not noticed where `undefined` is added. -/
theorem distributive_holds (same : ∀ {s t}, s.Same t → B s → B t) (hundefined : ¬ B undefined) :
    Distributive fun s => Holds B s.leaves := by
  refine (memberwise_holds same).distributive ?_
  rintro ⟨l, hl, h⟩
  obtain rfl := List.mem_singleton.mp hl
  rcases h with h | h | h
  · cases h
  · cases h
  · exact hundefined h

end TypedPaths.Shape

/-
TypedPaths/Proofs/Memberwise.lean

Properties of shapes that are decided member by member.

Design.  A union is normalised as it is built: members are spread, `never` and repetitions drop
out, and `any` or `unknown` takes the place of everything.  Most of what is asked of a shape does
not notice: whether it admits a value, whether a segment finds something in it.  Such a property
holds of `any` and `unknown`, does not hold of `never`, agrees on shapes that are the same, and
holds of a union if and only if it holds of a member.  This is `Memberwise`, and it implies that
the property holds of a normalised union if and only if it holds of one of the shapes the union
was built from (`Memberwise.unionOf_iff`).

What is asked of the result of a path may notice the marks that are added on the way; where it does
not, or where there are none, it is `Unmarked`.

`Schema.Branchwise` adds that references count as what they stand for.  Stripping a shape of its
nullish members does not change such a property, as long as nullish shapes do not have it
(`Branchwise.strip_iff`).

Main results: `Memberwise.unionOf_iff`, `Branchwise.strip_iff`, `flat_strip`.
-/
import TypedPaths.Proofs.Kind
import TypedPaths.ValueType

namespace TypedPaths

namespace Shape

/-! ### Properties and normalised unions -/

/-- A normalised union is made of some of the members it was built from. -/
theorem exists_unionOf_eq (ss : List Shape) :
    ∃ kept, unionOf ss = ofDistinct kept ∧ ∀ t ∈ kept, ∃ s ∈ ss, t ∈ s.spread := by
  have hsingle : ∀ t ∈ ss.flatMap spread, ∀ u ∈ [t], ∃ s ∈ ss, u ∈ s.spread := by
    intro t ht u hu
    rw [List.mem_singleton.mp hu]
    exact List.mem_flatMap.mp ht
  unfold Shape.unionOf
  dsimp only
  split
  · next hany => exact ⟨[any], rfl, hsingle any hany⟩
  · split
    · next hunknown => exact ⟨[unknown], rfl, hsingle unknown hunknown⟩
    · refine ⟨_, rfl, fun t ht => ?_⟩
      exact List.mem_flatMap.mp (List.mem_filter.mp (mem_of_mem_distinct ht)).1

/-- A property that holds of a normalised union of one shape or more if and only if it holds of
one of them, and does not notice that `undefined` is added to a shape. -/
structure Distributive (A : Shape → Prop) : Prop where
  any : A any
  unknown : A unknown
  same : ∀ {s t}, s.Same t → A s → A t
  unionOf : ∀ {ss}, ss ≠ [] → (A (unionOf ss) ↔ ∃ s ∈ ss, A s)
  orUndefined : ∀ {s}, A s.orUndefined ↔ A s

/-- A property of the same kind that does not notice `undefined` where it is marked: the property
agrees with it, or nothing is marked. -/
structure Unmarked (marks : AbsenceMarks) (A : Shape → Prop) : Prop where
  any : A any
  unknown : A unknown
  same : ∀ {s t}, s.Same t → A s → A t
  unionOf : ∀ {ss}, ss ≠ [] → (A (unionOf ss) ↔ ∃ s ∈ ss, A s)
  orUndefined : marks ≠ .writing → ∀ {s}, A s.orUndefined ↔ A s

/-- A property that is decided member by member. -/
structure Memberwise (A : Shape → Prop) : Prop where
  any : A any
  unknown : A unknown
  never : ¬ A never
  same : ∀ {s t}, s.Same t → A s → A t
  union : ∀ {ss}, A (union ss) ↔ ∃ s ∈ ss, A s

variable {A : Shape → Prop}

theorem Memberwise.spread_iff (hA : Memberwise A) {s : Shape} : (∃ t ∈ s.spread, A t) ↔ A s := by
  cases s with
  | union ss => exact hA.union.symm
  | _ => simp [spread]

/-- Members that are left out as repeated are not noticed. -/
theorem Memberwise.distinct_iff (hA : Memberwise A) {ss : List Shape} :
    (∃ s ∈ distinct ss, A s) ↔ ∃ s ∈ ss, A s := by
  constructor
  · rintro ⟨s, hs, h⟩
    exact ⟨s, mem_of_mem_distinct hs, h⟩
  · rintro ⟨s, hs, h⟩
    obtain ⟨t, ht, hsame⟩ := exists_same_mem_distinct hs
    exact ⟨t, ht, hA.same hsame.symm h⟩

theorem Memberwise.ofDistinct_iff (hA : Memberwise A) {ss : List Shape} :
    A (ofDistinct ss) ↔ ∃ s ∈ ss, A s := by
  rcases ss with - | ⟨s, - | ⟨t, ss⟩⟩
  · simp [ofDistinct, hA.never]
  · simp [ofDistinct]
  · exact hA.union

/-- A property that is decided member by member does not notice that a union is normalised. -/
theorem Memberwise.unionOf_iff (hA : Memberwise A) {ss : List Shape} :
    A (unionOf ss) ↔ ∃ s ∈ ss, A s := by
  have hflat : (∃ t ∈ ss.flatMap spread, A t) ↔ ∃ s ∈ ss, A s := by
    constructor
    · rintro ⟨t, ht, h⟩
      obtain ⟨s, hs, hts⟩ := List.mem_flatMap.mp ht
      exact ⟨s, hs, hA.spread_iff.mp ⟨t, hts, h⟩⟩
    · rintro ⟨s, hs, h⟩
      obtain ⟨t, hts, h⟩ := hA.spread_iff.mpr h
      exact ⟨t, List.mem_flatMap.mpr ⟨s, hs, hts⟩, h⟩
  rw [← hflat]
  unfold Shape.unionOf
  dsimp only
  -- `any` and `unknown` absorb the other members, and have the property themselves
  split
  · next h => exact ⟨fun _ => ⟨_, h, hA.any⟩, fun _ => hA.any⟩
  · split
    · next h => exact ⟨fun _ => ⟨_, h, hA.unknown⟩, fun _ => hA.unknown⟩
    · rw [hA.ofDistinct_iff, hA.distinct_iff]
      constructor
      · rintro ⟨t, ht, h⟩
        exact ⟨t, (List.mem_filter.mp ht).1, h⟩
      · rintro ⟨t, ht, h⟩
        refine ⟨t, List.mem_filter.mpr ⟨ht, ?_⟩, h⟩
        have hne : t ≠ Shape.never := fun e => hA.never (e ▸ h)
        simpa using hne

theorem Memberwise.orUndefined_iff (hA : Memberwise A) {s : Shape} :
    A s.orUndefined ↔ A s ∨ A undefined := by
  unfold orUndefined
  rw [hA.unionOf_iff]
  simp

/-- A property that is decided member by member is distributive if `undefined` does not have it. -/
theorem Memberwise.distributive (hA : Memberwise A) (hundefined : ¬ A undefined) :
    Distributive A where
  any := hA.any
  unknown := hA.unknown
  same := hA.same
  unionOf := fun _ => hA.unionOf_iff
  orUndefined := by
    intro s
    rw [hA.orUndefined_iff]
    exact or_iff_left hundefined

/-- That there is a result at all is asked in the same way as what it is like. -/
theorem distributive_true : Distributive fun _ => True where
  any := trivial
  unknown := trivial
  same := fun _ _ => trivial
  unionOf := by
    intro ss hne
    obtain ⟨s, hs⟩ := List.exists_mem_of_ne_nil ss hne
    exact ⟨fun _ => ⟨s, hs, trivial⟩, fun _ => trivial⟩
  orUndefined := Iff.rfl

/-! ### Properties and marks -/

variable {marks : AbsenceMarks} {mark : Bool}

theorem Distributive.unmarked (hA : Distributive A) : Unmarked marks A where
  any := hA.any
  unknown := hA.unknown
  same := hA.same
  unionOf := hA.unionOf
  orUndefined := fun _ => hA.orUndefined

/-- Without marks, every property that is decided member by member is unmarked. -/
theorem Memberwise.unmarked (hA : Memberwise A) : Unmarked .writing A where
  any := hA.any
  unknown := hA.unknown
  same := hA.same
  unionOf := fun _ => hA.unionOf_iff
  orUndefined := fun hne => absurd rfl hne

theorem Unmarked.orUndefined_iff (hA : Unmarked marks A) {s : Shape} :
    A s.orUndefined ↔ A s ∨ A .undefined := by
  unfold Shape.orUndefined
  rw [hA.unionOf (List.cons_ne_nil _ _)]
  simp

theorem Unmarked.markIf (hA : Unmarked marks A)
    (hmark : mark = true → marks.union = true ∨ marks.index = true ∨ marks.optional = true)
    {s : Shape} : A (s.markIf mark) ↔ A s := by
  cases mark with
  | false => exact Iff.rfl
  | true =>
    refine hA.orUndefined ?_
    rintro rfl
    rcases hmark rfl with h | h | h <;> cases h

theorem Unmarked.map_markIf (hA : Unmarked marks A)
    (hmark : mark = true → marks.union = true ∨ marks.index = true ∨ marks.optional = true)
    {found : Option Shape} :
    (∃ t, found.map (Shape.markIf mark) = some t ∧ A t) ↔ ∃ s, found = some s ∧ A s := by
  cases found with
  | none => simp
  | some s => simp [hA.markIf hmark]

end Shape

namespace Schema

open Shape

variable {S : Schema} {A : Shape → Prop}

/-! ### Properties and references -/

/-- A property that is decided branch by branch. -/
structure Branchwise (S : Schema) (A : Shape → Prop) : Prop extends Memberwise A where
  ref : ∀ {n s}, S.definitions.find? n = some s → (A (.ref n) ↔ A s)
  dangling : ∀ {n}, S.definitions.find? n = none → ¬ A (.ref n)

/-- A shape has a property that is decided branch by branch if and only if a branch has it. -/
theorem Branchwise.branch_iff (hS : S.Valid) (hA : S.Branchwise A) {s : Shape} :
    A s ↔ ∃ t, S.Branch s t ∧ A t := by
  induction s using hS.induction with
  | concrete s hs => simp [branch_concrete_iff hs]
  | union ss ih =>
    rw [hA.union, exists_branch_union_iff]
    exact exists_congr fun s => and_congr_right fun hs => ih s hs
  | ref n s hn ih => simp only [hA.ref hn, ih, branch_ref_iff hn]
  | dangling n hn => simp [hA.dangling hn, not_branch_dangling hn]

/-- What is asked of branches alone is decided branch by branch. -/
theorem branchwise_of_branches {B : Shape → Prop} (any : B .any) (unknown : B .unknown)
    (never : ¬ B .never) (same : ∀ {s t}, s.Same t → B s → B t) :
    S.Branchwise fun s => ∃ t, S.Branch s t ∧ B t where
  any := ⟨_, .concrete trivial, any⟩
  unknown := ⟨_, .concrete trivial, unknown⟩
  never := by
    rintro ⟨t, ht, h⟩
    obtain rfl := (branch_concrete_iff (s := .never) trivial).mp ht
    exact never h
  same := by
    rintro s u hsame ⟨t, hst, h⟩
    obtain ⟨v, huv, htv⟩ := hst.same hsame
    exact ⟨v, huv, same htv h⟩
  union := exists_branch_union_iff
  ref := fun hn => by simp only [branch_ref_iff hn]
  dangling := fun hn ⟨_, ht, _⟩ => not_branch_dangling hn ht

/-! ### Stripping -/

theorem strip_concrete {s : Shape} (hs : s.IsConcrete) :
    S.strip s = if s.isNullish then .never else s := by
  unfold strip
  rw [expand_concrete hs, Expansion.strip]

theorem stripMembers_eq_map (members : List (Shape × Expansion)) :
    Expansion.stripMembers members =
      (members.filter fun m => !m.2.isNullish).map fun m => m.2.strip m.1 := by
  induction members with
  | nil => rfl
  | cons m members ih =>
    obtain ⟨s, e⟩ := m
    rw [Expansion.stripMembers, ih]
    cases h : e.isNullish <;> simp [h]

/-- A union is stripped member by member, and the nullish members are left out. -/
theorem strip_union (ss : List Shape) :
    S.strip (.union ss) = .unionOf ((ss.filter fun s => !S.isNullish s).map S.strip) := by
  unfold strip
  rw [expand_union, Expansion.strip, stripMembers_eq_map, List.filter_map, List.map_map]
  rfl

/-- A reference to a concrete shape is kept, or dropped with what it stands for; one to a union
is replaced by the stripped union. -/
theorem strip_ref (hS : S.Valid) {n : String} {s : Shape} (hn : S.definitions.find? n = some s) :
    S.strip (.ref n) = .ref n ∨ S.strip (.ref n) = S.strip s := by
  unfold strip
  rw [expand_ref hS hn]
  cases S.expand s with
  | leaf t =>
    -- the leaf tells what the reference stands for, but the reference is what is kept
    rw [Expansion.strip, Expansion.strip]
    split
    · exact .inr rfl
    · exact .inl rfl
  | union members => exact .inr rfl

theorem strip_dangling {n : String} (hn : S.definitions.find? n = none) :
    S.strip (.ref n) = .ref n := by
  unfold strip
  rw [expand_dangling hn, Expansion.strip]
  exact if_neg (by simp [Shape.isNullish])

/-- A nullish shape has no other branches than `null` and `undefined`. -/
theorem branch_of_isNullish (hS : S.Valid) {s t : Shape} (h : S.isNullish s = true)
    (ht : S.Branch s t) : t = .null ∨ t = .undefined := by
  induction ht with
  | concrete ht =>
    unfold isNullish at h
    rw [expand_concrete ht] at h
    simpa [Expansion.isNullish, Shape.isNullish] using h
  | member =>
    unfold isNullish at h
    rw [expand_union] at h
    cases h
  | ref hn _ ih =>
    unfold isNullish at h
    rw [expand_ref hS hn] at h
    exact ih h

section

variable (hS : S.Valid) (hA : S.Branchwise A) (hnull : ¬ A .null) (hundefined : ¬ A .undefined)

include hS hA hnull hundefined

/-- A property that neither `null` nor `undefined` has is no property of nullish shapes. -/
theorem Branchwise.not_of_isNullish {s : Shape} (hs : S.isNullish s = true) : ¬ A s := by
  intro h
  obtain ⟨t, ht, h⟩ := (hA.branch_iff hS).mp h
  rcases branch_of_isNullish hS hs ht with rfl | rfl
  · exact hnull h
  · exact hundefined h

/-- Stripping is not noticed by a property that nullish shapes do not have. -/
theorem Branchwise.strip_iff {s : Shape} : A (S.strip s) ↔ A s := by
  have hnullish : ∀ s, S.isNullish s = true → ¬ A s :=
    fun _ => hA.not_of_isNullish hS hnull hundefined
  induction s using hS.induction with
  | concrete s hs =>
    rw [strip_concrete hs]
    split
    · -- neither the nullish shape nor the `never` in its place has the property
      next h =>
      have hs : S.isNullish s = true := by
        unfold isNullish
        rw [expand_concrete hs]
        exact h
      exact ⟨fun hn => absurd hn hA.never, fun ha => absurd ha (hnullish s hs)⟩
    · exact Iff.rfl
  | union ss ih =>
    rw [strip_union, hA.unionOf_iff, hA.union]
    constructor
    · rintro ⟨t, ht, h⟩
      obtain ⟨s, hs, rfl⟩ := List.mem_map.mp ht
      have hs := (List.mem_filter.mp hs).1
      exact ⟨s, hs, (ih s hs).mp h⟩
    · rintro ⟨s, hs, h⟩
      have hkept : S.isNullish s = false := by
        rw [← Bool.not_eq_true]
        exact fun hn => hnullish s hn h
      -- a member with the property is not nullish, so it is kept
      refine ⟨S.strip s, List.mem_map_of_mem (List.mem_filter.mpr ⟨hs, ?_⟩), (ih s hs).mpr h⟩
      rw [hkept]
      rfl
  | ref n s hn ih =>
    rcases strip_ref hS hn with h | h
    · rw [h]
    · rw [h, hA.ref hn]
      exact ih
  | dangling n hn => rw [strip_dangling hn]

end

/-! ### Flat shapes -/

/-- A shape that is concrete, or a union of such shapes, where references count as what they stand
for. -/
def Flat (S : Schema) (s : Shape) : Prop := ∀ t ∈ s.spread, ∃ u, S.expand t = .leaf u

theorem spread_of_expand {s u : Shape} (h : S.expand s = .leaf u) : s.spread = [s] := by
  cases s with
  | union ss =>
    rw [expand_union] at h
    cases h
  | _ => rfl

theorem flat_of_expand {s u : Shape} (h : S.expand s = .leaf u) : S.Flat s := by
  unfold Flat
  rw [spread_of_expand h]
  intro t ht
  rw [List.mem_singleton.mp ht]
  exact ⟨u, h⟩

/-- The members of a normalised union of flat shapes are members of these. -/
theorem mem_spread_unionOf {ss : List Shape} (h : ∀ s ∈ ss, S.Flat s) {t : Shape}
    (ht : t ∈ (unionOf ss).spread) : t = .never ∨ ∃ s ∈ ss, t ∈ s.spread := by
  obtain ⟨kept, hunion, hkept⟩ := exists_unionOf_eq ss
  rw [hunion] at ht
  rcases kept with - | ⟨m, - | ⟨n, rest⟩⟩
  · exact .inl (List.mem_singleton.mp ht)
  · -- a single member is no union, since it comes out of a flat shape
    obtain ⟨s, hs, hms⟩ := hkept m List.mem_cons_self
    obtain ⟨u, hu⟩ := h s hs m hms
    rw [ofDistinct, spread_of_expand hu] at ht
    rw [List.mem_singleton.mp ht]
    exact .inr ⟨s, hs, hms⟩
  · exact .inr (hkept t ht)

/-- A normalised union of flat shapes is flat. -/
theorem flat_unionOf {ss : List Shape} (h : ∀ s ∈ ss, S.Flat s) : S.Flat (unionOf ss) := by
  intro t ht
  rcases mem_spread_unionOf h ht with rfl | ⟨s, hs, hts⟩
  · exact ⟨_, expand_concrete trivial⟩
  · exact h s hs t hts

/-- What is left of a shape without its nullish members is flat. -/
theorem flat_strip (hS : S.Valid) (s : Shape) : S.Flat (S.strip s) := by
  induction s using hS.induction with
  | concrete s hs =>
    rw [strip_concrete hs]
    split
    · exact flat_of_expand (expand_concrete trivial)
    · exact flat_of_expand (expand_concrete hs)
  | union ss ih =>
    rw [strip_union]
    refine flat_unionOf fun t ht => ?_
    obtain ⟨s, hs, rfl⟩ := List.mem_map.mp ht
    exact ih s (List.mem_filter.mp hs).1
  | ref n s hn ih =>
    rcases hs : S.expand s with u | members
    · rcases strip_ref hS hn with h | h
      · rw [h]
        exact flat_of_expand ((expand_ref hS hn).trans hs)
      · rw [h]
        exact ih
    · -- a reference to a union is replaced by the union
      have h : S.strip (.ref n) = S.strip s := by
        unfold strip
        rw [expand_ref hS hn, hs]
        rfl
      rw [h]
      exact ih
  | dangling n hn =>
    rw [strip_dangling hn]
    exact flat_of_expand (expand_dangling hn)

end Schema

end TypedPaths

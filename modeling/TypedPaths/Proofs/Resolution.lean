/-
TypedPaths/Proofs/Resolution.lean

What paths lead to, asked branch by branch.

Design.  A path is resolved on expansions, with normalised unions, stripped nullable shapes and
marks on the way, over a limited number of levels.  For what is asked of the result these do not
matter, as long as the question does not notice marks: a first segment leads to a shape with a
property if and only if one of the branches has a slot for it from which the rest of the path leads
there (`reaches_opens`).  Before the end of the path the slot is no more than its shape
(`reaches_cons_of_ne`); at the end an optional field adds `undefined` to its shape, and whoever does
not notice that may take the shape there as well (`reaches_cons`).  Marks have disappeared from these
equations, and so has the union.  What follows from them by induction on the path holds for all
marks, all references and all unions at once: results do not depend on marks (`reaches_marks`), nor on
levels that are not needed (`resolve_of_length_le`), and a path can be resolved in two parts
(`reaches_append`).

Main results: `reaches_opens`, `reaches_cons`, `reaches_append`, `resolve_of_length_le`,
`exists_resolve_concat_iff`.
-/
import TypedPaths.Proofs.Memberwise

namespace TypedPaths

open Shape

variable {A : Shape → Prop} {marks : AbsenceMarks} {segment : String} {rest : List String}
  {b c : Nat}

namespace Expansion

variable {enter : Slot → Option Shape}

/-! ### What a union finds -/

/-- A union finds the union of what its members find, if one of them finds anything. -/
theorem combine_eq_some_iff {found : List (Expansion × Option Shape)} {t : Shape} :
    combine marks segment found = some t ↔ found.filterMap Prod.snd ≠ [] ∧
      (unionOf (found.filterMap Prod.snd)).markIf
        (marks.union && found.any fun p => p.1.lacks segment) = t := by
  unfold combine
  split
  · next h => exact ⟨fun hn => (nomatch hn), fun ⟨hne, _⟩ => absurd h hne⟩
  · next hne => exact ⟨fun ht => ⟨hne, Option.some.inj ht⟩, fun ⟨_, ht⟩ => congrArg some ht⟩

theorem exists_found_iff {found : List (Expansion × Option Shape)} :
    (∃ u ∈ found.filterMap Prod.snd, A u) ↔ ∃ p ∈ found, ∃ u, p.2 = some u ∧ A u := by
  constructor
  · rintro ⟨u, hu, h⟩
    obtain ⟨p, hp, hpu⟩ := List.mem_filterMap.mp hu
    exact ⟨p, hp, u, hpu, h⟩
  · rintro ⟨p, hp, u, hpu, h⟩
    exact ⟨u, List.mem_filterMap.mpr ⟨p, hp, hpu⟩, h⟩

/-- A union finds a shape with a property if and only if one of its members does. -/
theorem combine_iff (hA : Unmarked marks A) {found : List (Expansion × Option Shape)} :
    (∃ u, combine marks segment found = some u ∧ A u) ↔
      ∃ p ∈ found, ∃ u, p.2 = some u ∧ A u := by
  rw [← exists_found_iff]
  simp only [combine_eq_some_iff]
  have hmark : (marks.union && found.any fun p => p.1.lacks segment) = true →
      marks.union = true ∨ marks.index = true ∨ marks.optional = true :=
    fun h => .inl (Bool.and_eq_true_iff.mp h).1
  constructor
  · rintro ⟨t, ⟨hne, rfl⟩, h⟩
    exact (hA.unionOf hne).mp ((hA.markIf hmark).mp h)
  · rintro ⟨u, hu, h⟩
    have hne := List.ne_nil_of_mem hu
    exact ⟨_, ⟨hne, rfl⟩, (hA.markIf hmark).mpr ((hA.unionOf hne).mpr ⟨u, hu, h⟩)⟩

theorem selectMembers_eq_map (expand : Shape → Expansion) (members : List (Shape × Expansion)) :
    selectMembers marks expand enter segment members =
      members.map fun m => (m.2, m.2.select marks expand enter segment m.1) := by
  induction members with
  | nil => rfl
  | cons m members ih =>
    obtain ⟨s, e⟩ := m
    rw [selectMembers, ih, List.map_cons]

/-- What a segment finds depends on the expansion alone. -/
theorem select_congr (expand : Shape → Expansion) (e : Expansion) (s t : Shape) :
    e.select marks expand enter segment s = e.select marks expand enter segment t := by
  cases e with
  | leaf u => rfl
  | union members => rw [select, select, strip, strip]

end Expansion

namespace Schema

variable {S : Schema} {s : Shape}

/-! ### Equations -/

/-- What the rest of a path leads to from a slot. -/
def enter (S : Schema) (marks : AbsenceMarks) (b : Budget) (rest : List String) (slot : Slot) :
    Option Shape :=
  match slot.presence with
  | .certain => S.resolve marks b rest slot.shape
  | .unchecked => (S.resolve marks b rest slot.shape).map (Shape.markIf marks.index)
  | .optional =>
    if rest = [] then some slot.shape.orUndefined
    else (S.resolve marks b rest (S.strip slot.shape)).map (Shape.markIf marks.optional)

/-- The path without segments leads to the shape itself, over any number of levels. -/
theorem resolve_nil (b : Budget) : S.resolve marks b [] s = some s := by
  cases b <;> rfl

/-- Without levels, nothing is known of where a segment leads. -/
theorem resolve_zero : S.resolve marks 0 (segment :: rest) s = some .unknown := rfl

theorem resolve_cons : S.resolve marks (b + 1) (segment :: rest) s =
    (S.expand s).select marks S.expand (S.enter marks b rest) segment s := rfl

theorem resolve_concrete (hs : s.IsConcrete) : S.resolve marks (b + 1) (segment :: rest) s =
    s.select (S.enter marks b rest) segment := by
  rw [resolve_cons, expand_concrete hs, Expansion.select]

/-- In a valid schema, a path leads from a reference to where it leads from its definition. -/
theorem resolve_ref (hS : S.Valid) {n : String} (hn : S.definitions.find? n = some s) :
    S.resolve marks (b + 1) (segment :: rest) (.ref n) =
      S.resolve marks (b + 1) (segment :: rest) s := by
  rw [resolve_cons, resolve_cons, expand_ref hS hn]
  exact Expansion.select_congr _ _ _ _

theorem resolve_dangling {n : String} (hn : S.definitions.find? n = none) :
    S.resolve marks (b + 1) (segment :: rest) (.ref n) = none := by
  rw [resolve_cons, expand_dangling hn]
  rfl

/-- A shape that stands for anything at all finds itself below itself, be it alone or a union that
has become one by absorption. -/
theorem resolve_of_kind_eq {t : Shape} (ht : t = .any ∨ t = .unknown)
    (hk : S.kind s = .ofConcrete t) : S.resolve marks (b + 1) (segment :: rest) s = some t := by
  unfold kind at hk
  rw [resolve_cons]
  cases hs : S.expand s with
  | leaf u =>
    rw [hs, Expansion.kind] at hk
    rw [Expansion.select, (Kind.ofConcrete_eq_iff ht).mp hk]
    rcases ht with rfl | rfl <;> rfl
  | union members =>
    rw [hs] at hk
    rw [Expansion.select, hk]
    rcases ht with rfl | rfl <;> rfl

theorem resolve_of_any (hk : S.kind s = .any) :
    S.resolve marks (b + 1) (segment :: rest) s = some .any := resolve_of_kind_eq (.inl rfl) hk

theorem resolve_of_unknown (hk : S.kind s = .unknown) :
    S.resolve marks (b + 1) (segment :: rest) s = some .unknown := resolve_of_kind_eq (.inr rfl) hk

/-- The kinds of unions whose members are traversed side by side. -/
def SideBySide (S : Schema) (s : Shape) : Prop :=
  S.kind s ≠ .any ∧ S.kind s ≠ .unknown ∧ ∀ ss, S.kind s ≠ .nullable ss

/-- By its kind a shape stands for anything at all, is nullable, or is traversed side by side. -/
theorem kind_cases (S : Schema) (s : Shape) :
    S.kind s = .any ∨ S.kind s = .unknown ∨ (∃ ss, S.kind s = .nullable ss) ∨ S.SideBySide s := by
  by_cases hany : S.kind s = .any
  · exact .inl hany
  by_cases hunknown : S.kind s = .unknown
  · exact .inr (.inl hunknown)
  by_cases hnullable : ∃ ss, S.kind s = .nullable ss
  · exact .inr (.inr (.inl hnullable))
  · exact .inr (.inr (.inr ⟨hany, hunknown, fun ss h => hnullable ⟨ss, h⟩⟩))

/-- Side by side, all members are asked for the path, and what they find is united. -/
theorem resolve_union {ss : List Shape} (hk : S.SideBySide (.union ss)) :
    S.resolve marks (b + 1) (segment :: rest) (.union ss) =
      Expansion.combine marks segment
        (ss.map fun s => (S.expand s, S.resolve marks (b + 1) (segment :: rest) s)) := by
  obtain ⟨hany, hunknown, hnullable⟩ := hk
  unfold kind at hany hunknown hnullable
  rw [resolve_cons]
  rw [expand_union] at hany hunknown hnullable ⊢
  rw [Expansion.select]
  -- the first three kinds are the ones that are not traversed side by side
  split
  · next h => exact absurd h hany
  · next h => exact absurd h hunknown
  · next h => exact absurd h (hnullable _)
  · rw [Expansion.selectMembers_eq_map, List.map_map]
    rfl

/-- A nullable union is stripped, and the result is marked. -/
theorem resolve_union_nullable {ss ts : List Shape} (hk : S.kind (.union ss) = .nullable ts) :
    S.resolve marks (b + 1) (segment :: rest) (.union ss) =
      ((S.expand (S.strip (.union ss))).selectFlat marks (S.enter marks b rest) segment).map
        (Shape.markIf marks.optional) := by
  unfold kind at hk
  rw [resolve_cons, strip]
  rw [expand_union] at hk ⊢
  rw [Expansion.select, hk]

/-! ### What a segment finds -/

/-- The shape has a branch in which the segment stands for a slot with the property, or for
anything at all. -/
def Opens (S : Schema) (segment : String) (Q : Slot → Prop) (s : Shape) : Prop :=
  ∃ t, S.Branch s t ∧ (t = .any ∨ t = .unknown ∨ ∃ slot, t.slot? segment = some slot ∧ Q slot)

/-- The shape has a branch in which the segment stands for a shape with the property, or for
anything at all. -/
def Below (S : Schema) (segment : String) (A : Shape → Prop) (s : Shape) : Prop :=
  ∃ t, S.Branch s t ∧
    (t = .any ∨ t = .unknown ∨ ∃ slot, t.slot? segment = some slot ∧ A slot.shape)

/-- The segments lead to a shape with the property. -/
def Reaches (S : Schema) (marks : AbsenceMarks) (b : Budget) (segments : List String)
    (A : Shape → Prop) (s : Shape) : Prop :=
  ∃ t, S.resolve marks b segments s = some t ∧ A t

/-- The rest of a path leads from the slot to a shape with the property. -/
def Enters (S : Schema) (marks : AbsenceMarks) (b : Budget) (rest : List String)
    (A : Shape → Prop) (slot : Slot) : Prop :=
  ∃ t, S.enter marks b rest slot = some t ∧ A t

variable {Q : Slot → Prop}

theorem Opens.mono {R : Slot → Prop} (h : ∀ slot, Q slot → R slot) (hs : S.Opens segment Q s) :
    S.Opens segment R s := by
  obtain ⟨t, ht, rfl | rfl | ⟨slot, hslot, hq⟩⟩ := hs
  · exact ⟨_, ht, .inl rfl⟩
  · exact ⟨_, ht, .inr (.inl rfl)⟩
  · exact ⟨t, ht, .inr (.inr ⟨slot, hslot, h _ hq⟩)⟩

theorem opens_congr {R : Slot → Prop} (h : ∀ slot, Q slot ↔ R slot) :
    S.Opens segment Q s ↔ S.Opens segment R s :=
  ⟨.mono fun slot => (h slot).mp, .mono fun slot => (h slot).mpr⟩

/-- A segment stands for something in a union if it does in a member. -/
theorem opens_union_iff {ss : List Shape} :
    S.Opens segment Q (.union ss) ↔ ∃ s ∈ ss, S.Opens segment Q s :=
  exists_branch_union_iff

theorem opens_ref_iff {n : String} (hn : S.definitions.find? n = some s) :
    S.Opens segment Q (.ref n) ↔ S.Opens segment Q s := by
  unfold Opens
  simp only [branch_ref_iff hn]

theorem not_opens_dangling {n : String} (hn : S.definitions.find? n = none) :
    ¬ S.Opens segment Q (.ref n) := fun ⟨_, ht, _⟩ => not_branch_dangling hn ht

/-- Whether a segment stands for something is asked branch by branch, if shapes that are the same
agree on it. -/
theorem branchwise_opens (same : ∀ {p q : Slot}, p.Same q → Q p → Q q) :
    S.Branchwise (S.Opens segment Q) := by
  refine branchwise_of_branches (.inl rfl) (.inr (.inl rfl)) ?_ ?_
  · rintro (h | h | ⟨slot, hslot, -⟩)
    · cases h
    · cases h
    · cases hslot
  · rintro s t hsame (rfl | rfl | ⟨slot, hslot, hq⟩)
    · exact .inl (same_any hsame)
    · exact .inr (.inl (same_unknown hsame))
    · obtain ⟨slot', hslot', hs⟩ := hsame.slot? hslot
      exact .inr (.inr ⟨slot', hslot', same hs hq⟩)

theorem not_opens_concrete (hs : s.IsConcrete) (hany : s ≠ .any) (hunknown : s ≠ .unknown)
    (hslot : s.slot? segment = none) : ¬ S.Opens segment Q s := by
  rintro ⟨t, ht, h⟩
  obtain rfl := (branch_concrete_iff hs).mp ht
  rcases h with h | h | ⟨slot, hsome, -⟩
  · exact hany h
  · exact hunknown h
  · cases hslot.symm.trans hsome

/-- Values of primitive types have no parts. -/
theorem not_opens_primitive {p : Primitive} : ¬ S.Opens segment Q (.primitive p) :=
  not_opens_concrete trivial nofun nofun rfl

theorem Below.mono {B : Shape → Prop} (h : ∀ s, A s → B s) (hs : S.Below segment A s) :
    S.Below segment B s := Opens.mono (fun slot => h slot.shape) hs

theorem below_congr {B : Shape → Prop} (h : ∀ s, A s ↔ B s) :
    S.Below segment A s ↔ S.Below segment B s := opens_congr fun slot => h slot.shape

theorem below_union_iff {ss : List Shape} :
    S.Below segment A (.union ss) ↔ ∃ s ∈ ss, S.Below segment A s := opens_union_iff

theorem below_ref_iff {n : String} (hn : S.definitions.find? n = some s) :
    S.Below segment A (.ref n) ↔ S.Below segment A s := opens_ref_iff hn

theorem not_below_dangling {n : String} (hn : S.definitions.find? n = none) :
    ¬ S.Below segment A (.ref n) := not_opens_dangling hn

/-- Without segments, the shape itself is asked. -/
theorem reaches_nil : S.Reaches marks b [] A s ↔ A s := by
  unfold Reaches
  rw [resolve_nil]
  simp

theorem reaches_of_resolve {segments : List String} {t : Shape}
    (h : S.resolve marks b segments s = some t) : S.Reaches marks b segments A s ↔ A t := by
  unfold Reaches
  rw [h]
  simp

theorem reaches_zero (hunknown : A .unknown) : S.Reaches marks 0 (segment :: rest) A s :=
  ⟨_, resolve_zero, hunknown⟩

theorem select_of_ne {enter : Slot → Option Shape} (hany : s ≠ .any) (hunknown : s ≠ .unknown) :
    s.select enter segment = (s.slot? segment).bind enter := by
  unfold Shape.select
  split
  · exact absurd rfl hany
  · exact absurd rfl hunknown
  · rfl

section

variable (hany : A .any) (hunknown : A .unknown)

include hany hunknown

/-- What a segment finds in a concrete shape. -/
theorem select_iff (hs : s.IsConcrete) :
    (∃ u, s.select (S.enter marks b rest) segment = some u ∧ A u) ↔
      S.Opens segment (S.Enters marks b rest A) s := by
  unfold Opens
  simp only [branch_concrete_iff hs, exists_eq_left]
  by_cases heq : s = .any
  · subst heq
    exact ⟨fun _ => .inl rfl, fun _ => ⟨_, rfl, hany⟩⟩
  · by_cases heq' : s = .unknown
    · subst heq'
      exact ⟨fun _ => .inr (.inl rfl), fun _ => ⟨_, rfl, hunknown⟩⟩
    · rw [select_of_ne heq heq', or_iff_right heq, or_iff_right heq']
      unfold Enters
      cases s.slot? segment <;> simp

/-- What a segment finds in an expansion that has a single shape. -/
theorem select_expand_iff (hS : S.Valid) {u : Shape} (hu : S.expand s = .leaf u) :
    (∃ v, u.select (S.enter marks b rest) segment = some v ∧ A v) ↔
      S.Opens segment (S.Enters marks b rest A) s := by
  induction s using hS.induction with
  | concrete s hs =>
    obtain rfl := Expansion.leaf.inj ((expand_concrete hs).symm.trans hu)
    exact select_iff hany hunknown hs
  | union ss =>
    rw [expand_union] at hu
    cases hu
  | ref n s hn ih =>
    rw [expand_ref hS hn] at hu
    rw [opens_ref_iff hn]
    exact ih hu
  | dangling n hn =>
    obtain rfl := Expansion.leaf.inj ((expand_dangling hn).symm.trans hu)
    exact ⟨fun ⟨v, hv, _⟩ => (nomatch hv), fun h => absurd h (not_opens_dangling hn)⟩

end

/-- What a segment finds in a shape without unions inside a union. -/
theorem selectFlat_iff (hS : S.Valid) (hA : Unmarked marks A) (hs : S.Flat s) :
    (∃ u, (S.expand s).selectFlat marks (S.enter marks b rest) segment = some u ∧ A u) ↔
      S.Opens segment (S.Enters marks b rest A) s := by
  cases s with
  | union ss =>
    rw [expand_union, Expansion.selectFlat, Expansion.combine_iff hA, List.map_map,
      opens_union_iff]
    simp only [List.mem_map, exists_exists_and_eq_and]
    refine exists_congr fun t => and_congr_right fun ht => ?_
    obtain ⟨u, hu⟩ := hs t ht
    simp only [Function.comp_apply, hu]
    exact select_expand_iff hA.any hA.unknown hS hu
  | _ =>
    obtain ⟨u, hu⟩ := hs _ (List.mem_singleton_self _)
    rw [hu, Expansion.selectFlat]
    exact select_expand_iff hA.any hA.unknown hS hu

section

variable (hS : S.Valid) (hA : Unmarked marks A)
  (same : ∀ {p q : Slot}, p.Same q → S.Enters marks b rest A p → S.Enters marks b rest A q)

include hS hA same

/-- What a segment finds in a nullable union, which is traversed without its nullish members. -/
theorem resolve_nullable_iff {ss ts : List Shape} (hk : S.kind (.union ss) = .nullable ts) :
    S.Reaches marks (b + 1) (segment :: rest) A (.union ss) ↔
      S.Opens segment (S.Enters marks b rest A) (.union ss) := by
  have hstrip : S.Opens segment (S.Enters marks b rest A) (S.strip (.union ss)) ↔
      S.Opens segment (S.Enters marks b rest A) (.union ss) :=
    (branchwise_opens same).strip_iff hS not_opens_primitive not_opens_primitive
  unfold Reaches
  rw [resolve_union_nullable hk, hA.map_markIf fun h => .inr (.inr h), ← hstrip]
  exact selectFlat_iff hS hA (flat_strip hS (.union ss))

/-- A segment finds what is found from the slot that it stands for in one of the branches. -/
theorem resolve_cons_iff :
    S.Reaches marks (b + 1) (segment :: rest) A s ↔
      S.Opens segment (S.Enters marks b rest A) s := by
  induction s using hS.induction with
  | concrete s hs =>
    unfold Reaches
    rw [resolve_concrete hs]
    exact select_iff hA.any hA.unknown hs
  | union ss ih =>
    -- only unions of the last kind are traversed member by member
    rcases S.kind_cases (.union ss) with hany | hunknown | ⟨ts, hnullable⟩ | hk
    · have hbranch : S.Branch (.union ss) .any := (kind_eq_any_iff hS).mp hany
      exact iff_of_true ⟨.any, resolve_of_any hany, hA.any⟩ ⟨.any, hbranch, .inl rfl⟩
    · have hbranch : S.Branch (.union ss) .unknown := ((kind_eq_unknown_iff hS).mp hunknown).2
      exact iff_of_true ⟨.unknown, resolve_of_unknown hunknown, hA.unknown⟩
        ⟨.unknown, hbranch, .inr (.inl rfl)⟩
    · exact resolve_nullable_iff hS hA same hnullable
    · unfold Reaches
      rw [resolve_union hk, Expansion.combine_iff hA, opens_union_iff]
      simp only [List.mem_map, exists_exists_and_eq_and]
      exact exists_congr fun s => and_congr_right fun hs => ih s hs
  | ref n s hn ih =>
    unfold Reaches
    rw [resolve_ref hS hn, opens_ref_iff hn]
    exact ih
  | dangling n hn =>
    unfold Reaches
    rw [resolve_dangling hn]
    exact ⟨fun ⟨v, hv, _⟩ => (nomatch hv), fun h => absurd h (not_opens_dangling hn)⟩

end

/-! ### Paths -/

/-- What the rest of a path leads to from a slot is what it leads to from its shape, unless the path
ends there. -/
theorem enters_iff (hA : Unmarked marks A) (hrest : rest ≠ [])
    (hstrip : ∀ s, S.Reaches marks b rest A (S.strip s) ↔ S.Reaches marks b rest A s)
    (slot : Slot) : S.Enters marks b rest A slot ↔ S.Reaches marks b rest A slot.shape := by
  unfold Enters enter
  split
  · exact Iff.rfl
  · exact hA.map_markIf fun h => .inr (.inl h)
  · rw [if_neg hrest]
    exact (hA.map_markIf fun h => .inr (.inr h)).trans (hstrip _)

/-- At the end of a path, an optional field adds `undefined` to its shape. -/
theorem enters_nil_iff (hA : Unmarked marks A) (slot : Slot) :
    S.Enters marks b [] A slot ↔ A slot.shape ∨ slot.presence = .optional ∧ A .undefined := by
  unfold Enters enter
  split
  · next h => simp [resolve_nil, h]
  · next h =>
    rw [hA.map_markIf fun h => .inr (.inl h), resolve_nil]
    simp [h]
  · next h => simp [h, hA.orUndefined_iff]

/-- Slots that are the same lead to the same, if shapes do. -/
theorem Enters.same (hA : Unmarked marks A)
    (hsame : ∀ {s t : Shape}, s.Same t → S.Reaches marks b rest A s → S.Reaches marks b rest A t)
    (hstrip : rest ≠ [] → ∀ s, S.Reaches marks b rest A (S.strip s) ↔ S.Reaches marks b rest A s)
    {p q : Slot} (hpq : p.Same q) (h : S.Enters marks b rest A p) : S.Enters marks b rest A q := by
  by_cases hrest : rest = []
  · subst hrest
    rw [enters_nil_iff hA] at h ⊢
    rw [← hpq.presence]
    exact h.imp_left (hA.same hpq.shape)
  · rw [enters_iff hA hrest (hstrip hrest)] at h ⊢
    exact hsame hpq.shape h

/-- Reaching a shape with the property agrees on shapes that are the same, and for a path that is
not empty also on shapes that differ in nullish members alone. -/
theorem reaches_stable (hS : S.Valid) (hA : Unmarked marks A) (segments : List String) (b : Nat) :
    (∀ {s t : Shape}, s.Same t → S.Reaches marks b segments A s → S.Reaches marks b segments A t) ∧
    (segments ≠ [] → ∀ s, S.Reaches marks b segments A (S.strip s) ↔
      S.Reaches marks b segments A s) := by
  -- both are needed of the rest of the path to open up its first segment
  induction segments generalizing b with
  | nil =>
    refine ⟨fun hsame h => ?_, fun h => absurd rfl h⟩
    rw [reaches_nil] at h ⊢
    exact hA.same hsame h
  | cons segment rest ih =>
    cases b with
    | zero =>
      exact ⟨fun _ _ => reaches_zero hA.unknown,
        fun _ _ => iff_of_true (reaches_zero hA.unknown) (reaches_zero hA.unknown)⟩
    | succ b =>
      obtain ⟨hsame, hstrip⟩ := ih b
      have hcons : ∀ s, S.Reaches marks (b + 1) (segment :: rest) A s ↔
          S.Opens segment (S.Enters marks b rest A) s :=
        fun s => resolve_cons_iff hS hA (Enters.same hA hsame hstrip)
      have hopens : S.Branchwise (S.Opens segment (S.Enters marks b rest A)) :=
        branchwise_opens (Enters.same hA hsame hstrip)
      refine ⟨fun h => ?_, fun _ s => ?_⟩
      · rw [hcons, hcons]
        exact hopens.same h
      · rw [hcons, hcons]
        exact hopens.strip_iff hS not_opens_primitive not_opens_primitive

theorem Reaches.same (hS : S.Valid) (hA : Unmarked marks A) {segments : List String} {t : Shape}
    (hsame : s.Same t) (h : S.Reaches marks b segments A s) : S.Reaches marks b segments A t :=
  (reaches_stable hS hA segments b).1 hsame h

/-- A path that has segments does not notice that a shape has been stripped. -/
theorem reaches_strip_iff (hS : S.Valid) (hA : Unmarked marks A) {segments : List String}
    (hne : segments ≠ []) :
    S.Reaches marks b segments A (S.strip s) ↔ S.Reaches marks b segments A s :=
  (reaches_stable hS hA segments b).2 hne s

theorem Enters.of_same (hS : S.Valid) (hA : Unmarked marks A) {p q : Slot} (hpq : p.Same q)
    (h : S.Enters marks b rest A p) : S.Enters marks b rest A q :=
  Enters.same hA (Reaches.same hS hA) (fun hne _ => reaches_strip_iff hS hA hne) hpq h

theorem branchwise_enters (hS : S.Valid) (hA : Unmarked marks A) :
    S.Branchwise (S.Opens segment (S.Enters marks b rest A)) :=
  branchwise_opens (Enters.of_same hS hA)

/-- A path leads to a shape with a property if and only if one of the branches has a slot for its
first segment from which the rest does. -/
theorem reaches_opens (hS : S.Valid) (hA : Unmarked marks A) :
    S.Reaches marks (b + 1) (segment :: rest) A s ↔
      S.Opens segment (S.Enters marks b rest A) s :=
  resolve_cons_iff hS hA (Enters.of_same hS hA)

/-- Before the end of the path, the rest of it may start from the shape of the slot. -/
theorem reaches_cons_of_ne (hS : S.Valid) (hA : Unmarked marks A) (hrest : rest ≠ []) :
    S.Reaches marks (b + 1) (segment :: rest) A s ↔
      S.Below segment (S.Reaches marks b rest A) s :=
  (reaches_opens hS hA).trans
    (opens_congr (enters_iff hA hrest fun _ => reaches_strip_iff hS hA hrest))

/-- For a property that does not notice that `undefined` is added, this is so at the end of the path
as well. -/
theorem reaches_cons (hS : S.Valid) (hA : Distributive A) :
    S.Reaches marks (b + 1) (segment :: rest) A s ↔
      S.Below segment (S.Reaches marks b rest A) s := by
  by_cases hrest : rest = []
  · subst hrest
    refine (reaches_opens hS hA.unmarked).trans (opens_congr fun slot => ?_)
    have hunmarked : Unmarked marks A := hA.unmarked
    -- `undefined` may have the property itself, but then every shape has it
    have hadd : A slot.shape ∨ A .undefined ↔ A slot.shape :=
      hunmarked.orUndefined_iff.symm.trans hA.orUndefined
    rw [enters_nil_iff hunmarked, reaches_nil]
    exact ⟨fun h => hadd.mp (h.imp_right And.right), .inl⟩
  · exact reaches_cons_of_ne hS hA.unmarked hrest

/-- Where a path leads can be asked of a normalised union as of its members. -/
theorem distributive_reaches (hS : S.Valid) (hA : Unmarked marks A) :
    Distributive (S.Reaches marks (b + 1) (segment :: rest) A) := by
  have hcons : S.Reaches marks (b + 1) (segment :: rest) A =
      S.Opens segment (S.Enters marks b rest A) := funext fun s => propext (reaches_opens hS hA)
  rw [hcons]
  exact (branchwise_enters hS hA).distributive not_opens_primitive

/-- No mark changes which shapes are reached. -/
theorem reaches_marks (hS : S.Valid) (hA : Distributive A) {segments : List String}
    (m n : AbsenceMarks) : S.Reaches m b segments A s ↔ S.Reaches n b segments A s := by
  induction segments generalizing b s with
  | nil => rw [reaches_nil, reaches_nil]
  | cons segment rest ih =>
    cases b with
    | zero => exact iff_of_true (reaches_zero hA.unknown) (reaches_zero hA.unknown)
    | succ b =>
      rw [reaches_cons hS hA, reaches_cons hS hA]
      exact below_congr fun s => ih

/-- With less levels more is reached: what lies below them is unknown. -/
theorem Reaches.of_le (hS : S.Valid) (hA : Distributive A) {segments : List String} (hb : b ≤ c)
    (h : S.Reaches marks c segments A s) : S.Reaches marks b segments A s := by
  induction segments generalizing b c s with
  | nil =>
    rw [reaches_nil] at h ⊢
    exact h
  | cons segment rest ih =>
    cases b with
    | zero => exact reaches_zero hA.unknown
    | succ b =>
      obtain ⟨c, rfl⟩ : ∃ k, c = k + 1 := ⟨c - 1, by omega⟩
      rw [reaches_cons hS hA] at h ⊢
      exact h.mono fun s => ih (by omega)

/-- Levels beyond the length of the path are not needed. -/
theorem resolve_of_length_le {segments : List String} (hb : segments.length ≤ b)
    (hc : segments.length ≤ c) :
    S.resolve marks b segments s = S.resolve marks c segments s := by
  induction segments generalizing b c s with
  | nil => rw [resolve_nil, resolve_nil]
  | cons segment rest ih =>
    obtain ⟨b, rfl⟩ : ∃ k, b = k + 1 := ⟨b - 1, by simp at hb; omega⟩
    obtain ⟨c, rfl⟩ : ∃ k, c = k + 1 := ⟨c - 1, by simp at hc; omega⟩
    have henter : S.enter marks b rest = S.enter marks c rest := by
      have hrest : S.resolve marks b rest = S.resolve marks c rest :=
        funext fun s => ih (by simpa using hb) (by simpa using hc)
      unfold enter
      rw [hrest]
    rw [resolve_cons, resolve_cons, henter]

theorem reaches_of_length_le {segments : List String} (hb : segments.length ≤ b)
    (hc : segments.length ≤ c) :
    S.Reaches marks b segments A s ↔ S.Reaches marks c segments A s := by
  unfold Reaches
  rw [resolve_of_length_le hb hc]

/-- A path is resolved by resolving its first part and from there the rest of it. -/
theorem reaches_append (hS : S.Valid) {m n : AbsenceMarks} (hA : Unmarked m A)
    {xs ys : List String} (hy : ys ≠ []) {d : Nat} (hb : xs.length + ys.length ≤ b)
    (hc : ys.length ≤ c) (hd : xs.length ≤ d) :
    S.Reaches m b (xs ++ ys) A s ↔ S.Reaches n d xs (S.Reaches m c ys A) s := by
  have hys : Distributive (S.Reaches m c ys A) := by
    obtain ⟨y, ys, rfl⟩ := List.exists_cons_of_ne_nil hy
    obtain ⟨c, rfl⟩ : ∃ k, c = k + 1 := ⟨c - 1, by simp at hc; omega⟩
    exact distributive_reaches hS hA
  -- along the first part both sides open up the same branches
  induction xs generalizing b d s with
  | nil =>
    rw [reaches_nil]
    exact reaches_of_length_le (by simpa using hb) hc
  | cons x xs ih =>
    simp only [List.length_cons] at hb hd
    obtain ⟨b, rfl⟩ : ∃ k, b = k + 1 := ⟨b - 1, by omega⟩
    obtain ⟨d, rfl⟩ : ∃ k, d = k + 1 := ⟨d - 1, by omega⟩
    have hne : xs ++ ys ≠ [] := List.append_ne_nil_of_right_ne_nil xs hy
    rw [List.cons_append, reaches_cons_of_ne hS hA hne, reaches_cons hS hys]
    exact below_congr fun s => ih (by omega) (by omega)

/-! ### Possible paths -/

/-- The shape at the text of a path is where its segments lead. -/
theorem shapeBelow_eq_ok {path : String} {t : Shape} :
    S.shapeBelow marks b s path = .ok t ↔ S.resolve marks b (Path.segments path) s = some t := by
  unfold shapeBelow
  cases S.resolve marks b (Path.segments path) s <;> simp

theorem reaches_true {segments : List String} :
    S.Reaches marks b segments (fun _ => True) s ↔ ∃ t, S.resolve marks b segments s = some t := by
  unfold Reaches
  simp

/-- A path is possible if and only if a branch of the shape of its parent has a slot for the last
segment. -/
theorem exists_resolve_concat_iff (hS : S.Valid) {xs : List String} (m n : AbsenceMarks)
    (hb : xs.length + 1 ≤ b) :
    (∃ t, S.resolve m b (xs ++ [segment]) s = some t) ↔
      ∃ t, S.resolve n b xs s = some t ∧ S.Below segment (fun _ => True) t := by
  have happend : S.Reaches m b (xs ++ [segment]) (fun _ => True) s ↔
      S.Reaches n b xs (S.Reaches m 1 [segment] fun _ => True) s :=
    reaches_append hS distributive_true.unmarked (List.cons_ne_nil segment []) hb (Nat.le_refl 1)
      (by omega)
  rw [← reaches_true, happend]
  unfold Reaches
  refine exists_congr fun t => and_congr_right fun _ => ?_
  refine (reaches_cons hS distributive_true).trans (below_congr fun u => ?_)
  exact reaches_nil

end Schema

end TypedPaths

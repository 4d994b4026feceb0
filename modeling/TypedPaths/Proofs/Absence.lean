/-
TypedPaths/Proofs/Absence.lean

The shape of what is read where there is nothing.

Design.  A shape for reading is marked with `undefined` wherever a step may find nothing.  One
step is not marked although the rest of the path may lead nowhere from it: a union drops the
members that define the next segment but not the rest of the path.  `Schema.Loses` says that a
value is in dropped members alone, on steps that add no mark: the slots that always hold a value,
and unions whose members all define the segment.  Everywhere else a value that has nothing at a
path makes the shape of the path admit `undefined` (`admitsUndefined_of_get?_none`).

The value is followed as an optional one, which is nothing from the step on that does not find
it; nothing fits the shapes that admit `undefined`.

Main results: `admitsUndefined_of_get?_none`, `not_admitsUndefined_of_dropped`.
-/
import TypedPaths.Proofs.Reading

namespace TypedPaths

namespace Schema

open Shape

variable {S : Schema} {segment : String} {rest segments : List String} {b : Nat} {s t : Shape}
  {x : Option Json}

/-! ### Values that may be absent -/

/-- What a place of the shape can hold, if anything. -/
def Fits (S : Schema) (s : Shape) : Option Json → Prop
  | some v => S.Conforms s v
  | none => S.AdmitsUndefined s

theorem branchwise_fits : S.Branchwise (S.Fits · x) := by
  cases x with
  | none => exact branchwise_admitsUndefined
  | some v => exact branchwise_conforms

/-- What is at a segment of something that fits a shape, fits the slot of the segment if that
always holds a value. -/
theorem Fits.child (h : S.Fits t x) (ht : t.IsConcrete) (hsegment : Path.IsSegment segment)
    {slot : Slot} (hslot : t.slot? segment = some slot) (hcertain : slot.presence = .certain) :
    S.Fits slot.shape (x.bind (Json.child? segment)) := by
  cases x with
  | none =>
    obtain ⟨u, hu, h⟩ := h
    obtain rfl := (branch_concrete_iff ht).mp hu
    rcases h with rfl | rfl | rfl <;> cases hslot
  | some v =>
    rw [Option.bind_some]
    cases hw : v.child? segment with
    | none => exact Conforms.missing h ht hslot hcertain hw
    | some w =>
      rcases Conforms.child h ht hsegment hw with rfl | rfl | ⟨slot', hslot', h⟩
      · cases hslot
      · cases hslot
      · obtain rfl := Option.some.inj (hslot.symm.trans hslot')
        exact h

/-! ### Dropped members -/

/-- A union that is traversed member by member, each of which holds nothing or defines the
segment. -/
structure Shared (S : Schema) (segment : String) (members : List Shape) : Prop where
  sideBySide : S.SideBySide (.union members)
  defined : ∀ s ∈ members, (S.expand s).lacks segment = false

/-- On its way along the segments, over steps that add no mark, the value comes to a union all of
whose members that it is in do not define the rest of the path, or lose it further on. -/
inductive Loses (S : Schema) : Budget → List String → Shape → Option Json → Prop
  | union {b : Budget} {segment : String} {rest : List String} {ss : List Shape}
      {x : Option Json} :
      S.Shared segment ss →
      (∀ s ∈ ss, S.Fits s x → ∀ t, S.resolve .reading b (segment :: rest) s = some t →
        Loses S b (segment :: rest) s x) →
      Loses S b (segment :: rest) (.union ss) x
  | ref {b : Budget} {segments : List String} {n : String} {s : Shape} {x : Option Json} :
      S.definitions.find? n = some s → Loses S b segments s x → Loses S b segments (.ref n) x
  | slot {b : Budget} {segment : String} {rest : List String} {s : Shape} {slot : Slot}
      {x : Option Json} :
      s.slot? segment = some slot → slot.presence = .certain →
      Loses S b rest slot.shape (x.bind (Json.child? segment)) →
      Loses S (b + 1) (segment :: rest) s x

/-! ### Marks -/

theorem admitsUndefined_any : S.AdmitsUndefined .any := ⟨.any, .concrete trivial, .inr (.inl rfl)⟩

theorem admitsUndefined_unknown : S.AdmitsUndefined .unknown :=
  ⟨.unknown, .concrete trivial, .inr (.inr rfl)⟩

/-- Where `undefined` has been added it is admitted, be it as a member or absorbed. -/
theorem admitsUndefined_orUndefined : S.AdmitsUndefined s.orUndefined := by
  rw [branchwise_admitsUndefined.toMemberwise.orUndefined_iff]
  exact .inr ⟨_, .concrete trivial, .inl rfl⟩

theorem admitsUndefined_of_map_markIf {found : Option Shape}
    (h : found.map (Shape.markIf true) = some t) : S.AdmitsUndefined t := by
  obtain ⟨u, -, rfl⟩ := Option.map_eq_some_iff.mp h
  exact admitsUndefined_orUndefined

theorem admitsUndefined_markIf {mark : Bool} (h : S.AdmitsUndefined s) :
    S.AdmitsUndefined (s.markIf mark) := by
  cases mark
  · exact h
  · exact admitsUndefined_orUndefined

/-- What is entered without a mark is a slot that always holds a value. -/
theorem admitsUndefined_of_enter {slot : Slot} (h : S.enter .reading b rest slot = some t)
    (hpresence : slot.presence ≠ .certain) : S.AdmitsUndefined t := by
  unfold enter at h
  split at h
  · next hc => exact absurd hc hpresence
  · exact admitsUndefined_of_map_markIf h
  · split at h
    · obtain rfl := Option.some.inj h
      exact admitsUndefined_orUndefined
    · exact admitsUndefined_of_map_markIf h

/-- A union adds a mark if a member lacks the segment. -/
theorem admitsUndefined_of_lacks {found : List (Expansion × Option Shape)}
    (h : Expansion.combine .reading segment found = some t)
    (hlacks : ∃ p ∈ found, p.1.lacks segment = true) : S.AdmitsUndefined t := by
  obtain ⟨-, rfl⟩ := Expansion.combine_eq_some_iff.mp h
  have hmark : (found.any fun p => p.1.lacks segment) = true := List.any_eq_true.mpr hlacks
  rw [hmark]
  exact admitsUndefined_orUndefined

/-- A union admits `undefined` if what one of its members finds does. -/
theorem admitsUndefined_of_member {found : List (Expansion × Option Shape)}
    (h : Expansion.combine .reading segment found = some t) {p : Expansion × Option Shape}
    (hp : p ∈ found) {u : Shape} (hu : p.2 = some u) (ha : S.AdmitsUndefined u) :
    S.AdmitsUndefined t := by
  obtain ⟨-, rfl⟩ := Expansion.combine_eq_some_iff.mp h
  refine admitsUndefined_markIf (branchwise_admitsUndefined.unionOf_iff.mpr ⟨u, ?_, ha⟩)
  exact List.mem_filterMap.mpr ⟨p, hp, hu⟩

/-! ### One segment -/

section

variable (hx : S.Fits s x) (ht : S.resolve .reading (b + 1) (segment :: rest) s = some t)

include hx ht

/-- Below a concrete shape, where `ih` is the statement for the rest of the path. -/
theorem admitsUndefined_of_concrete (hs : s.IsConcrete) (hsegment : Path.IsSegment segment)
    (hnone : (x.bind (Json.child? segment)).bind (Json.lookup? rest) = none)
    (ih : ∀ {s t x}, S.Fits s x → x.bind (Json.lookup? rest) = none →
      S.resolve .reading b rest s = some t → S.AdmitsUndefined t ∨ S.Loses b rest s x) :
    S.AdmitsUndefined t ∨ S.Loses (b + 1) (segment :: rest) s x := by
  rw [resolve_concrete hs] at ht
  by_cases hany : s = .any
  · subst hany
    obtain rfl := Option.some.inj ht
    exact .inl admitsUndefined_any
  by_cases hunknown : s = .unknown
  · subst hunknown
    obtain rfl := Option.some.inj ht
    exact .inl admitsUndefined_unknown
  rw [select_of_ne hany hunknown] at ht
  obtain ⟨slot, hslot, ht⟩ := Option.bind_eq_some_iff.mp ht
  by_cases hcertain : slot.presence = .certain
  · -- no mark is added, and what is in the slot fits it
    have henter : S.enter .reading b rest slot = S.resolve .reading b rest slot.shape := by
      unfold enter
      rw [hcertain]
    rcases ih (hx.child hs hsegment hslot hcertain) hnone (henter ▸ ht) with h | h
    · exact .inl h
    · exact .inr (.slot hslot hcertain h)
  · exact .inl (admitsUndefined_of_enter ht hcertain)

/-- Below a union, where `ih` is the statement for its members. -/
theorem admitsUndefined_of_union {ss : List Shape} (hs : s = .union ss)
    (ih : ∀ m ∈ ss, ∀ {t}, S.Fits m x → S.resolve .reading (b + 1) (segment :: rest) m = some t →
      S.AdmitsUndefined t ∨ S.Loses (b + 1) (segment :: rest) m x) :
    S.AdmitsUndefined t ∨ S.Loses (b + 1) (segment :: rest) s x := by
  subst hs
  rcases S.kind_cases (.union ss) with hany | hunknown | ⟨ts, hnullable⟩ | hk
  · rw [resolve_of_any hany] at ht
    obtain rfl := Option.some.inj ht
    exact .inl admitsUndefined_any
  · rw [resolve_of_unknown hunknown] at ht
    obtain rfl := Option.some.inj ht
    exact .inl admitsUndefined_unknown
  · rw [resolve_union_nullable hnullable] at ht
    exact .inl (admitsUndefined_of_map_markIf ht)
  rw [resolve_union hk] at ht
  by_cases hlacks : ∃ m ∈ ss, (S.expand m).lacks segment = true
  · obtain ⟨m, hm, h⟩ := hlacks
    exact .inl (admitsUndefined_of_lacks ht ⟨_, List.mem_map_of_mem hm, h⟩)
  -- no mark is added, so it is up to the members that the value is in
  have hshared : S.Shared segment ss :=
    ⟨hk, fun m hm => Bool.eq_false_iff.mpr fun h => hlacks ⟨m, hm, h⟩⟩
  by_cases hkept : ∃ m ∈ ss, S.Fits m x ∧
      ∃ u, S.resolve .reading (b + 1) (segment :: rest) m = some u ∧
        ¬ S.Loses (b + 1) (segment :: rest) m x
  · obtain ⟨m, hm, hmx, u, hu, hmloses⟩ := hkept
    have hadmits : S.AdmitsUndefined u := (ih m hm hmx hu).resolve_right hmloses
    exact .inl (admitsUndefined_of_member ht (List.mem_map_of_mem hm) hu hadmits)
  · refine .inr (.union hshared fun m hm hmx u hu => ?_)
    by_contra hmloses
    exact hkept ⟨m, hm, hmx, u, hu, hmloses⟩

end

/-! ### Paths -/

/-- By induction on the segments: where a value has nothing at the path, the shape found there
admits `undefined`, or the value is lost on the way. -/
theorem admitsUndefined_or_loses (hS : S.Valid)
    (hsegments : ∀ segment ∈ segments, Path.IsSegment segment) (hx : S.Fits s x)
    (hnone : x.bind (Json.lookup? segments) = none)
    (ht : S.resolve .reading b segments s = some t) :
    S.AdmitsUndefined t ∨ S.Loses b segments s x := by
  induction segments generalizing b s t x with
  | nil =>
    rw [resolve_nil] at ht
    obtain rfl := Option.some.inj ht
    cases x with
    | none => exact .inl hx
    | some v => cases hnone
  | cons segment rest ih =>
    rw [List.forall_mem_cons] at hsegments
    cases b with
    | zero =>
      -- the levels are used up
      obtain rfl := Option.some.inj ht
      exact .inl admitsUndefined_unknown
    | succ b =>
      have hnone : (x.bind (Json.child? segment)).bind (Json.lookup? rest) = none := by
        rw [Option.bind_assoc]
        exact hnone
      induction s using hS.induction generalizing t with
      | concrete s hs =>
        exact admitsUndefined_of_concrete hx ht hs hsegments.1 hnone (ih hsegments.2)
      | union ss ihs => exact admitsUndefined_of_union hx ht rfl fun m hm _ => ihs m hm
      | ref n s hn ihs =>
        rw [resolve_ref hS hn] at ht
        rcases ihs ((branchwise_fits.ref hn).mp hx) ht with h | h
        · exact .inl h
        · exact .inr (.ref hn h)
      | dangling n hn => exact absurd hx (branchwise_fits.dangling hn)

/-- Reading is pessimistic: where a conforming value has nothing at a path, the shape of the path
admits `undefined`, unless the value is only in members of a union that do not define the rest of
the path. -/
theorem admitsUndefined_of_get?_none (hS : S.Valid) {v : Json} {path : String}
    (hv : S.Conforms S.root v) (hs : S.valueType .reading path = .ok s)
    (hnone : v.get? path = none)
    (hkept : ¬ S.Loses resolveDepth (Path.segments path) S.root (some v)) :
    S.AdmitsUndefined s := by
  have hresolve : S.resolve .reading resolveDepth (Path.segments path) S.root = some s :=
    shapeBelow_eq_ok.mp hs
  have hfits : S.Fits S.root (some v) := hv
  rcases admitsUndefined_or_loses hS (fun _ => Path.isSegment_of_mem) hfits hnone hresolve
    with h | h
  · exact h
  · exact absurd h hkept

/-- An object with one of two fields. -/
def eitherField : Schema where
  root := .union [.struct [⟨"a", .primitive .string, false, false, false⟩] none,
    .struct [⟨"b", .primitive .string, false, false, false⟩] none]

theorem admitsUndefined_of_other_field :
    eitherField.Valid ∧
    eitherField.Conforms eitherField.root (.object [("b", .string "t")]) ∧
    eitherField.valueType .reading "a" = .ok (.union [.primitive .string, .undefined]) ∧
    Json.get? (.object [("b", .string "t")]) "a" = none ∧
    eitherField.AdmitsUndefined (.union [.primitive .string, .undefined]) := by
  have hvalid : eitherField.Valid := by decide
  have hconforms : eitherField.Conforms eitherField.root (.object [("b", .string "t")]) := by
    have hb : eitherField.Conforms (.struct [⟨"b", .primitive .string, false, false, false⟩] none)
        (.object [("b", .string "t")]) := conforms_single rfl (.primitive trivial)
    exact .union (by simp) hb
  have htype : eitherField.valueType .reading "a" =
      .ok (.union [.primitive .string, .undefined]) := by decide +kernel
  have hnone : Json.get? (.object [("b", .string "t")]) "a" = none := by decide
  refine ⟨hvalid, hconforms, htype, hnone,
    admitsUndefined_of_get?_none hvalid hconforms htype hnone fun hloses => ?_⟩
  -- the second member lacks the segment
  have hshared : ¬ eitherField.Shared "a"
      [.struct [⟨"a", .primitive .string, false, false, false⟩] none,
        .struct [⟨"b", .primitive .string, false, false, false⟩] none] := by
    intro h
    have hb := h.defined _ (List.mem_cons_of_mem _ List.mem_cons_self)
    exact absurd hb (by decide)
  have hsegments : Path.segments "a" = ["a"] := by decide
  rw [hsegments] at hloses
  cases hloses with
  | union h => exact hshared h
  | slot hslot => cases hslot

/-- An object of which one field is another object or a text. -/
def nestedOrText : Schema where
  root := .union
    [.struct [⟨"a", .struct [⟨"x", .primitive .string, false, false, false⟩] none,
        false, false, false⟩] none,
      .struct [⟨"a", .primitive .string, false, false, false⟩] none]

/-- A member that does not define the rest of the path is dropped, and adds no mark. -/
theorem not_admitsUndefined_of_dropped :
    nestedOrText.Valid ∧
    nestedOrText.Conforms nestedOrText.root (.object [("a", .string "t")]) ∧
    nestedOrText.valueType .reading "a.x" = .ok (.primitive .string) ∧
    Json.get? (.object [("a", .string "t")]) "a.x" = none ∧
    ¬ nestedOrText.AdmitsUndefined (.primitive .string) := by
  refine ⟨by decide, ?_, by decide +kernel, by decide, ?_⟩
  · have ha : nestedOrText.Conforms (.struct [⟨"a", .primitive .string, false, false, false⟩] none)
        (.object [("a", .string "t")]) := conforms_single rfl (.primitive trivial)
    exact .union (by simp) ha
  · rintro ⟨t, ht, h⟩
    obtain rfl := (branch_concrete_iff (s := .primitive .string) trivial).mp ht
    rcases h with h | h | h <;> cases h

end Schema

end TypedPaths

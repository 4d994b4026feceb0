/-
TypedPaths/Proofs/Rearranging.lean

The members of a union as a set.

Design.  The kind of a union, the patterns listed below it and what is found in it are computed
from the list of its members.  They are the same for every list with the same members with values,
in whatever order, however often and with whatever members without values between them
(`SameValues`).  For kinds and for listings this can be read off their equations by members and by
branches.

For what is found there is one thing in the way.  Where members are the same but for the sign of a
zero, the first one is kept, and so it depends on the order which of them is traversed.  So shapes
that are the same have to find the same, and this is proved for all marks by induction on the path
and, inside of it, on the unions that a segment goes through (`reaches_same`).  Both the members
of the same union in another order and the members of another union, one by one the same, are
lists that no property tells apart (`Indistinct`), so it is one step for both
(`reaches_of_indistinct`).

Main results: `reaches_of_indistinct`, `reaches_same`, `rearranging_members`.
-/
import TypedPaths.Proofs.Lacking
import TypedPaths.Proofs.Leaves
import TypedPaths.Proofs.Listing

namespace TypedPaths.Schema

open Shape

variable {S : Schema} {A : Shape → Prop} {marks : AbsenceMarks} {b : Nat} {segment : String}
  {rest : List String} {s t : Shape} {ss ts us : List Shape}

/-! ### Shapes with values -/

/-- A shape in which a segment stands for something has values. -/
theorem HasValues.of_opens {Q : Slot → Prop} (h : S.Opens segment Q s) : S.HasValues s := by
  obtain ⟨t, ht, rfl | rfl | ⟨slot, hslot, -⟩⟩ := h
  · exact ⟨_, ht, nofun⟩
  · exact ⟨_, ht, nofun⟩
  · refine ⟨t, ht, ?_⟩
    rintro rfl
    cases hslot

theorem HasValues.of_vague (h : S.Vague s) : S.HasValues s := by
  obtain ⟨t, ht, rfl | rfl⟩ := h <;> exact ⟨_, ht, nofun⟩

theorem HasValues.of_lacksWithin (h : S.LacksWithin segment s) : S.HasValues s := by
  obtain ⟨t, ht, rfl | rfl | ⟨hnever, -⟩⟩ := h
  · exact ⟨_, ht, nofun⟩
  · exact ⟨_, ht, nofun⟩
  · exact ⟨t, ht, hnever⟩

theorem HasValues.of_reaches (hS : S.Valid) (h : S.Reaches marks (b + 1) (segment :: rest) A s) :
    S.HasValues s :=
  .of_opens ((reaches_cons hS distributive_true).mp h.possible)

theorem HasValues.of_isNullish (hS : S.Valid) (h : S.isNullish s = true) : S.HasValues s := by
  rw [hasValues_iff hS, kind_of_isNullish h]
  exact nofun

theorem isNullish_of_same (hsame : s.Same t) (h : S.isNullish s = true) : S.isNullish t = true := by
  induction s using headInduction with
  | concrete s hs =>
    rcases expand_of_isNullish h with hnull | hundefined
    · obtain rfl := Expansion.leaf.inj ((expand_concrete hs).symm.trans hnull)
      rwa [same_primitive hsame]
    · obtain rfl := Expansion.leaf.inj ((expand_concrete hs).symm.trans hundefined)
      rwa [same_primitive hsame]
  | ref n => rwa [same_ref hsame]
  | union ss =>
    unfold isNullish at h
    rw [expand_union] at h
    cases h

theorem Lacks.same (hS : S.Valid) (hsame : s.Same t) (h : S.Lacks segment s) :
    S.Lacks segment t := by
  unfold Lacks at h ⊢
  rw [← hasValues_iff hS] at h ⊢
  exact ⟨branchwise_hasValues.same hsame h.1, fun ht => h.2 (branchwise_below.same hsame.symm ht)⟩

/-! ### Lists that no property tells apart -/

/-- If shapes with values have a property that agrees on shapes that are the same, then it is found in
both lists or in neither. -/
def Indistinct (S : Schema) (ss ts : List Shape) : Prop :=
  ∀ P : Shape → Prop, (∀ {s}, P s → S.HasValues s) → (∀ {s t}, s.Same t → P s → P t) →
    ((∃ s ∈ ss, P s) ↔ ∃ t ∈ ts, P t)

/-- Lists that are the same one by one cannot be told apart. -/
theorem Indistinct.of_same (h : List.Forall₂ Same ss ts) : S.Indistinct ss ts := by
  intro P _ same
  constructor
  · rintro ⟨s, hs, hP⟩
    obtain ⟨t, ht, hst⟩ := exists_mem_of_forall₂ h hs
    exact ⟨t, ht, same hst hP⟩
  · rintro ⟨t, ht, hP⟩
    obtain ⟨s, hs, hst⟩ := exists_mem_of_forall₂ h.flip ht
    exact ⟨s, hs, same hst.symm hP⟩

theorem Indistinct.vague_iff (h : S.Indistinct ss ts) :
    S.Vague (.union ss) ↔ S.Vague (.union ts) := by
  rw [branchwise_vague.union, branchwise_vague.union]
  exact h _ .of_vague branchwise_vague.same

/-- Both unions are nullable or neither of them is. -/
theorem Indistinct.nullable_iff (hS : S.Valid) (h : S.Indistinct ss ts) :
    (∃ us, S.kind (.union ss) = .nullable us) ↔ ∃ us, S.kind (.union ts) = .nullable us := by
  have hnullish := h (fun s => S.isNullish s = true) (.of_isNullish hS) isNullish_of_same
  have hvalues := h (fun s => S.kind s ≠ .never ∧ S.isNullish s = false)
    (fun hs => (hasValues_iff hS).mpr hs.1) ?_
  · rw [Schema.nullable_iff hS, Schema.nullable_iff hS, h.vague_iff, hnullish, hvalues]
  · intro s t hsame hs
    rw [← hasValues_iff hS, ← Bool.not_eq_true] at hs ⊢
    exact ⟨branchwise_hasValues.same hsame hs.1, fun ht => hs.2 (isNullish_of_same hsame.symm ht)⟩

/-- What is found in a union is found in another one with members that no property tells apart. -/
theorem reaches_of_indistinct (hS : S.Valid) (hA : Memberwise A)
    (hopens : S.Branchwise (S.Opens segment (S.Enters marks b rest A))) (h : S.Indistinct ss ts)
    (hmembers : (∃ s ∈ ss, S.Reaches marks (b + 1) (segment :: rest) A s) →
      ∃ t ∈ ts, S.Reaches marks (b + 1) (segment :: rest) A t)
    (hss : S.Reaches marks (b + 1) (segment :: rest) A (.union ss)) :
    S.Reaches marks (b + 1) (segment :: rest) A (.union ts) := by
  have hsome : S.Reaches marks (b + 1) (segment :: rest) (fun _ => True) (.union ss) →
      S.Reaches marks (b + 1) (segment :: rest) (fun _ => True) (.union ts) := by
    rw [reaches_true_union hS, reaches_true_union hS]
    exact (h _ (.of_reaches hS) (Reaches.same hS distributive_true.unmarked)).mp
  by_cases hvague : S.Vague (.union ts)
  · exact reaches_of_vague hS hA.any hA.unknown hvague
  have hvague' : ¬ S.Vague (.union ss) := mt h.vague_iff.mp hvague
  -- the same rule applies to both unions, and asks for properties that are found in both lists
  rcases sideBySide_or_nullable hS hvague with hside | ⟨us, hnullable⟩
  · have hside' : S.SideBySide (.union ss) := by
      refine (sideBySide_or_nullable hS hvague').resolve_right fun hnullable => ?_
      obtain ⟨us, hus⟩ := (h.nullable_iff hS).mp hnullable
      exact hside.2.2 us hus
    rw [reaches_union hS hA hside'] at hss
    rw [reaches_union hS hA hside]
    refine hss.imp hmembers ?_
    rintro ⟨hunion, hundefined, hlacks, hfound⟩
    have hvalues : ∀ {s}, S.Lacks segment s → S.HasValues s := fun hs => (hasValues_iff hS).mpr hs.1
    exact ⟨hunion, hundefined, (h _ hvalues (Lacks.same hS)).mp hlacks, hsome hfound⟩
  · obtain ⟨us', hnullable'⟩ := (h.nullable_iff hS).mpr ⟨us, hnullable⟩
    rw [reaches_nullable hS hA hnullable', reaches_strip_of_branchwise hS hA hopens, opens_union_iff,
      branchwise_lacksWithin.union] at hss
    rw [reaches_nullable hS hA hnullable, reaches_strip_of_branchwise hS hA hopens, opens_union_iff,
      branchwise_lacksWithin.union]
    rcases hss with (hslot | ⟨hunion, hundefined, hlacks, hfound⟩) | ⟨hoptional, hundefined, hfound⟩
    · exact .inl (.inl ((h _ .of_opens hopens.same).mp hslot))
    · exact .inl (.inr ⟨hunion, hundefined,
        (h _ .of_lacksWithin branchwise_lacksWithin.same).mp hlacks, hsome hfound⟩)
    · exact .inr ⟨hoptional, hundefined, hsome hfound⟩

/-! ### Shapes that are the same -/

/-- What the rest of a path leads to from slots that are the same is the same, if it is from shapes and
from what is left of them. -/
theorem Enters.same_of_memberwise (hS : S.Valid) (hA : Memberwise A)
    (hsame : ∀ {s t : Shape}, s.Same t → S.Reaches marks b rest A s → S.Reaches marks b rest A t)
    (hstrip : rest ≠ [] → ∀ {s t : Shape}, s.Same t → S.Reaches marks b rest A (S.strip s) →
      S.Reaches marks b rest A (S.strip t))
    {p q : Slot} (hpq : p.Same q) (h : S.Enters marks b rest A p) : S.Enters marks b rest A q := by
  have hsome : ∀ {s t : Shape}, s.Same t → (∃ u, S.resolve marks b rest s = some u) →
      ∃ u, S.resolve marks b rest t = some u := by
    intro s t hst
    rw [← reaches_true, ← reaches_true]
    exact Reaches.same hS distributive_true.unmarked hst
  unfold Enters enter at h ⊢
  rw [← hpq.presence]
  split at h
  · exact hsame hpq.shape h
  · rw [hA.map_markIf_iff] at h ⊢
    exact h.imp (hsame hpq.shape) (.imp_right (.imp_right (hsome hpq.shape)))
  · by_cases hrest : rest = []
    · rw [if_pos hrest] at h ⊢
      simp only [Option.some.injEq, exists_eq_left', hA.orUndefined_iff] at h ⊢
      exact h.imp_left (hA.same hpq.shape)
    · rw [if_neg hrest] at h ⊢
      rw [hA.map_markIf_iff] at h ⊢
      refine h.imp (hstrip hrest hpq.shape) (.imp_right (.imp_right ?_))
      simp only [← reaches_true, reaches_strip_iff hS distributive_true.unmarked hrest]
      exact Reaches.same hS distributive_true.unmarked hpq.shape

/-- From shapes that are the same, and from what is left of them without their nullish members, a path
leads to the same. -/
theorem reaches_same (hS : S.Valid) (hA : Memberwise A) (segments : List String) (b : Nat) :
    (∀ {s t : Shape}, s.Same t → S.Reaches marks b segments A s → S.Reaches marks b segments A t) ∧
    (segments ≠ [] → ∀ {s t : Shape}, s.Same t → S.Reaches marks b segments A (S.strip s) →
      S.Reaches marks b segments A (S.strip t)) := by
  -- the rest of the path starts from slots, or from what is left of optional ones, so both are needed
  induction segments generalizing b with
  | nil =>
    refine ⟨fun hsame h => ?_, fun h => absurd rfl h⟩
    rw [reaches_nil] at h ⊢
    exact hA.same hsame h
  | cons segment rest ih =>
    cases b with
    | zero => exact ⟨fun _ _ => reaches_zero hA.unknown, fun _ _ _ _ _ => reaches_zero hA.unknown⟩
    | succ b =>
      obtain ⟨hsame, hstrip⟩ := ih b
      have hopens : S.Branchwise (S.Opens segment (S.Enters marks b rest A)) :=
        branchwise_opens (Enters.same_of_memberwise hS hA hsame hstrip)
      refine ⟨fun {s t} hst h => ?_, fun _ {s t} hst h => ?_⟩
      · induction s using headInduction generalizing t with
        | concrete s hs =>
          rw [reaches_leaf_iff hS hA (expand_concrete hs)] at h
          rw [reaches_leaf_iff hS hA (expand_concrete (hst.isConcrete hs))]
          exact hopens.same hst h
        | ref n => rwa [same_ref hst]
        | union ss ihs =>
          obtain ⟨ts, rfl, hts⟩ := same_union hst
          refine reaches_of_indistinct hS hA hopens (.of_same hts) ?_ h
          rintro ⟨s, hs, hreaches⟩
          obtain ⟨t, ht, hst⟩ := exists_mem_of_forall₂ hts hs
          exact ⟨t, ht, ihs s hs hst hreaches⟩
      · rw [reaches_strip_of_branchwise hS hA hopens] at h ⊢
        refine h.imp (hopens.same hst) ?_
        rintro ⟨hunion, hundefined, hlacks, hfound⟩
        exact ⟨hunion, hundefined, branchwise_lacksWithin.same hst hlacks,
          Reaches.same hS distributive_true.unmarked hst hfound⟩

theorem branchwise_enters_of_memberwise (hS : S.Valid) (hA : Memberwise A) :
    S.Branchwise (S.Opens segment (S.Enters marks b rest A)) :=
  branchwise_opens (Enters.same_of_memberwise hS hA (reaches_same hS hA rest b).1
    (reaches_same hS hA rest b).2)

/-! ### The same members with values -/

/-- The lists have the same shapes with values. -/
def SameValues (S : Schema) (ss ts : List Shape) : Prop := ∀ s, S.HasValues s → (s ∈ ss ↔ s ∈ ts)

theorem SameValues.symm (h : S.SameValues ss ts) : S.SameValues ts ss :=
  fun s hs => (h s hs).symm

/-- Where only shapes with values count, members without values do not matter. -/
theorem SameValues.exists_iff (h : S.SameValues ss ts) {P : Shape → Prop}
    (hP : ∀ {s}, P s → S.HasValues s) : (∃ s ∈ ss, P s) ↔ ∃ t ∈ ts, P t :=
  exists_congr fun s => and_congr_left fun hs => h s (hP hs)

/-- Lists with the same values cannot be told apart. -/
theorem SameValues.indistinct (h : S.SameValues ss ts) : S.Indistinct ss ts :=
  fun _ hP _ => h.exists_iff hP

/-- Unions of the same values have the same branches, but for `never`. -/
theorem SameValues.branch_iff (h : S.SameValues ss ts) (ht : t ≠ .never) :
    S.Branch (.union ss) t ↔ S.Branch (.union ts) t := by
  rw [branch_union_iff, branch_union_iff]
  exact h.exists_iff fun hs => ⟨t, hs, ht⟩

/-- The same kinds occur among the members, but for that of shapes without values. -/
theorem SameValues.exists_kind_iff (hS : S.Valid) (h : S.SameValues ss ts) {P : Kind → Prop}
    (hnever : ¬ P .never) : (∃ s ∈ ss, P (S.kind s)) ↔ ∃ t ∈ ts, P (S.kind t) :=
  h.exists_iff fun hs => (hasValues_iff hS).mpr fun hk => hnever (hk ▸ hs)

theorem SameValues.forall_kind_iff (hS : S.Valid) (h : S.SameValues ss ts) {P : Kind → Prop}
    (hnever : P .never) : (∀ s ∈ ss, P (S.kind s)) ↔ ∀ t ∈ ts, P (S.kind t) := by
  have hnot := h.exists_kind_iff hS (P := fun k => ¬ P k) (not_not.mpr hnever)
  simpa using hnot.not

/-- Kinds do not depend on anything else. -/
theorem SameValues.bare_kind_eq (hS : S.Valid) (h : S.SameValues ss ts) :
    (S.kind (.union ss)).bare = (S.kind (.union ts)).bare := by
  rw [kind_union, kind_union]
  refine Kind.bare_ofMembers_congr ?_ ?_ ?_ ?_ ?_
  · simpa using h.exists_kind_iff hS (P := (· = .any)) (by simp)
  · simpa using h.exists_kind_iff hS (P := (· = .unknown)) (by simp)
  · simpa using h.forall_kind_iff hS (P := (· = .never)) rfl
  · rw [List.countP_pos_iff, List.countP_pos_iff, countP_isNullish_lt_iff, countP_isNullish_lt_iff,
      h.exists_iff (.of_isNullish hS), h.exists_iff fun hs => (hasValues_iff hS).mpr hs.1]
  · simpa using h.forall_kind_iff hS (P := fun k => k = .primitive ∨ k = .never) (.inr rfl)

/-- Listings do not depend on anything else. -/
theorem SameValues.patterns_eq (hS : S.Valid) (h : S.SameValues ss ts) (w : Bool) (b : Budget) :
    S.patterns w b (.union ss) = S.patterns w b (.union ts) := by
  refine SortedSet.ext_mem fun p => ?_
  rw [mem_patterns, mem_patterns]
  cases b with
  | zero =>
    have hterminal : (S.kind (.union ss)).isTerminal = (S.kind (.union ts)).isTerminal := by
      rw [← Kind.isTerminal_bare, h.bare_kind_eq hS, Kind.isTerminal_bare]
    rw [listing, listing, hterminal]
  | succ b =>
    have hany : S.Branch (.union ss) .any ↔ S.Branch (.union ts) .any :=
      h.branch_iff (by simp)
    have hunknown : S.Branch (.union ss) .unknown ↔ S.Branch (.union ts) .unknown :=
      h.branch_iff (by simp)
    rw [mem_listing_succ_iff hS, mem_listing_succ_iff hS, hany, hunknown]
    refine or_congr_right (and_congr_right fun _ => and_congr_right fun _ => ?_)
    -- only branches with slots are listed
    refine exists_congr fun t => and_congr_left fun hslots => h.branch_iff ?_
    rintro rfl
    obtain ⟨q, hq, -⟩ := hslots
    cases hq

/-- What is found does not depend on anything else. -/
theorem SameValues.reaches (hS : S.Valid) (hA : Memberwise A) (h : S.SameValues ss ts)
    (hss : S.Reaches marks (b + 1) (segment :: rest) A (.union ss)) :
    S.Reaches marks (b + 1) (segment :: rest) A (.union ts) :=
  reaches_of_indistinct hS hA (branchwise_enters_of_memberwise hS hA) h.indistinct
    (h.exists_iff (.of_reaches hS)).mp hss

theorem SameValues.reaches_iff (hS : S.Valid) (hA : Memberwise A) (h : S.SameValues ss ts) :
    S.Reaches marks (b + 1) (segment :: rest) A (.union ss) ↔
      S.Reaches marks (b + 1) (segment :: rest) A (.union ts) :=
  ⟨h.reaches hS hA, h.symm.reaches hS hA⟩

/-! ### Rearranging -/

/-- The second list is the first one in another order, with members repeated, and with members without
values put in. -/
inductive Rearranged (S : Schema) : List Shape → List Shape → Prop where
  | perm {ss ts : List Shape} : ss.Perm ts → Rearranged S ss ts
  | again {s : Shape} {ss : List Shape} : s ∈ ss → Rearranged S ss (s :: ss)
  | never {s : Shape} {ss : List Shape} : S.kind s = .never → Rearranged S ss (s :: ss)
  | trans {ss ts us : List Shape} : Rearranged S ss ts → Rearranged S ts us → Rearranged S ss us

/-- Each step of a rearrangement keeps the shapes with values. -/
theorem Rearranged.sameValues (hS : S.Valid) (h : S.Rearranged ss ts) : S.SameValues ss ts := by
  induction h with
  | perm h => exact fun s _ => h.mem_iff
  | again hs =>
    intro t _
    rw [List.mem_cons, or_iff_right_of_imp]
    rintro rfl
    exact hs
  | never hk =>
    intro t ht
    rw [List.mem_cons, or_iff_right]
    rintro rfl
    exact (hasValues_iff hS).mp ht hk
  | trans _ _ ihs iht => exact fun s hs => (ihs s hs).trans (iht s hs)

/-- The members of a union form a set in which those without values do not count: to permute or repeat
members or to put in some without values changes neither the kind nor the patterns that are listed,
and every path leads to the same, whichever steps are marked. -/
theorem rearranging_members (hS : S.Valid) (h : S.Rearranged ss ts) :
    (S.kind (.union ss)).bare = (S.kind (.union ts)).bare ∧
    (∀ w b, S.patterns w b (.union ss) = S.patterns w b (.union ts)) ∧
    ∀ marks b path, path ≠ "" →
      ((∃ t, S.shapeBelow marks b (.union ss) path = .ok t) ↔
        ∃ u, S.shapeBelow marks b (.union ts) path = .ok u) ∧
      ∀ t u, S.shapeBelow marks b (.union ss) path = .ok t →
        S.shapeBelow marks b (.union ts) path = .ok u → t.SameLeaves u := by
  have hvalues : S.SameValues ss ts := h.sameValues hS
  refine ⟨hvalues.bare_kind_eq hS, hvalues.patterns_eq hS, fun marks b path hpath => ?_⟩
  obtain ⟨segment, rest, hsegments⟩ := Path.exists_segments_eq_cons hpath
  simp only [shapeBelow_eq_ok, hsegments]
  cases b with
  | zero =>
    simp only [resolve_zero, Option.some.injEq]
    refine ⟨trivial, ?_⟩
    rintro t u rfl rfl
    exact sameLeaves_iff.mpr fun B _ => Iff.rfl
  | succ b =>
    refine ⟨?_, fun t u ht hu => sameLeaves_iff.mpr fun B same => ?_⟩
    · rw [← reaches_true, ← reaches_true, reaches_true_union hS, reaches_true_union hS]
      exact hvalues.exists_iff (.of_reaches hS)
    · have hA : Memberwise fun v => Holds B v.leaves := memberwise_holds same
      rw [← reaches_of_resolve (A := fun v => Holds B v.leaves) ht,
        ← reaches_of_resolve (A := fun v => Holds B v.leaves) hu]
      exact hvalues.reaches_iff hS hA

/-- A thing with a name of the given shape. -/
def named (name : Shape) : Shape := .struct [⟨"name", name, false, false, false⟩] none

/-- Things with a name or with a number, and a name for what does not exist. -/
def things : Schema where
  root := .union [named (.primitive .string), named (.primitive .number)]
  definitions := .ofList [("nothing", .union [.never])]

theorem rearranging_members_things :
    things.Valid ∧
    things.Rearranged [named (.primitive .string), named (.primitive .number)]
      [named (.primitive .number), .ref "nothing", named (.primitive .string),
        named (.primitive .number)] ∧
    things.shapeBelow .reading 1
        (.union [named (.primitive .string), named (.primitive .number)]) "name" =
      .ok (.union [.primitive .string, .primitive .number]) ∧
    things.shapeBelow .reading 1
        (.union [named (.primitive .number), .ref "nothing", named (.primitive .string),
          named (.primitive .number)]) "name" =
      .ok (.union [.primitive .number, .primitive .string]) ∧
    SameLeaves (.union [.primitive .string, .primitive .number])
      (.union [.primitive .number, .primitive .string]) := by
  have hvalid : things.Valid := by decide
  have hnever : things.kind (.ref "nothing") = .never := by decide +kernel
  have hrearranged : things.Rearranged [named (.primitive .string), named (.primitive .number)]
      [named (.primitive .number), .ref "nothing", named (.primitive .string),
        named (.primitive .number)] :=
    .trans (.again (by simp)) (.trans (.never hnever) (.perm (.swap _ _ _)))
  have hfirst : things.shapeBelow .reading 1
      (.union [named (.primitive .string), named (.primitive .number)]) "name" =
      .ok (.union [.primitive .string, .primitive .number]) := by decide +kernel
  have hsecond : things.shapeBelow .reading 1
      (.union [named (.primitive .number), .ref "nothing", named (.primitive .string),
        named (.primitive .number)]) "name" =
      .ok (.union [.primitive .number, .primitive .string]) := by decide +kernel
  exact ⟨hvalid, hrearranged, hfirst, hsecond, ((rearranging_members hvalid hrearranged).2.2
    .reading 1 "name" (by decide)).2 _ _ hfirst hsecond⟩

end TypedPaths.Schema

/-
TypedPaths/Proofs/Anchoring.lean

Listings that start where a path leads.

Design.  What continues a path is listed from the shape that its parent leads to, with levels of
its own.  Here it is shown to be listed from the root as well, if the levels of the parent are
added.  The shape of the parent is built on the way to it, of normalised unions, stripped nullable
shapes and marks.  What is shown below such a shape is shown below one of the shapes that it is
built of (`Schema.Discerning`): `any` can only come from one of them, and where one of them is
`unknown` the whole is, and nothing is listed below it.  So the segments of the parent can be put
in front one by one (`covers_append`).

Properties that hold of `unknown` are carried along a path by `reaches_cons`.  That a listing
covers something is none of them, so it needs a way of its own, and only in the one direction.

Main results: `Discerning.resolve_cons`, `covers_append`, `completions_listed`.
-/
import TypedPaths.Proofs.Checking

namespace TypedPaths

namespace Schema

open Shape

variable {S : Schema} {A P Q : Shape → Prop} {s t u : Shape} {ss : List Shape}

/-! ### Branches of built shapes -/

/-- The branches of a member are branches of the shape. -/
theorem branch_of_spread (hs : s ∈ u.spread) (h : S.Branch s t) : S.Branch u t := by
  cases u with
  | union us => exact .member hs h
  | _ =>
    obtain rfl := List.mem_singleton.mp hs
    exact h

theorem branch_of_ofDistinct (h : S.Branch (ofDistinct ss) t) :
    t = .never ∨ ∃ s ∈ ss, S.Branch s t := by
  rcases ss with - | ⟨s, - | ⟨u, ss⟩⟩
  · exact .inl ((branch_concrete_iff (s := .never) trivial).mp h)
  · exact .inr ⟨s, List.mem_cons_self, h⟩
  · exact .inr (branch_union_iff.mp h)

/-- A branch of a normalised union is one of a member, but for the shape of none. -/
theorem branch_of_unionOf (h : S.Branch (unionOf ss) t) :
    t = .never ∨ ∃ s ∈ ss, S.Branch s t := by
  obtain ⟨kept, hunion, hkept⟩ := exists_unionOf_eq ss
  rw [hunion] at h
  refine (branch_of_ofDistinct h).imp_right ?_
  rintro ⟨m, hm, hmt⟩
  obtain ⟨s, hs, hms⟩ := hkept m hm
  exact ⟨s, hs, branch_of_spread hms hmt⟩

/-- A branch of a stripped shape is one of the shape, but for the shape of none. -/
theorem branch_of_strip (hS : S.Valid) (h : S.Branch (S.strip s) t) :
    t = .never ∨ S.Branch s t := by
  induction s using hS.induction with
  | concrete s hs =>
    rw [strip_concrete hs] at h
    split at h
    · exact .inl ((branch_concrete_iff (s := .never) trivial).mp h)
    · exact .inr h
  | union ss ih =>
    rw [strip_union] at h
    rcases branch_of_unionOf h with hnever | ⟨m, hm, hmt⟩
    · exact .inl hnever
    · obtain ⟨s, hs, rfl⟩ := List.mem_map.mp hm
      have hs : s ∈ ss := (List.mem_filter.mp hs).1
      exact (ih s hs hmt).imp_right fun hst => .member hs hst
  | ref n s hn ih =>
    rcases strip_ref hS hn with hkept | hfollowed
    · rw [hkept] at h
      exact .inr h
    · rw [hfollowed] at h
      exact (ih h).imp_right fun hst => .ref hn hst
  | dangling n hn =>
    rw [strip_dangling hn] at h
    exact .inr h

/-! ### What built shapes show -/

/-- One of the branches stands for anything, as `any` or as `unknown`. -/
def Vague (S : Schema) (s : Shape) : Prop := ∃ t, S.Branch s t ∧ (t = .any ∨ t = .unknown)

theorem vague_iff : S.Vague s ↔ S.Branch s .any ∨ S.Branch s .unknown := by
  simp only [Vague, and_or_left, exists_or, exists_eq_right]

theorem branchwise_vague : S.Branchwise S.Vague := by
  refine branchwise_of_branches (.inl rfl) (.inr rfl) ?_ ?_
  · rintro (h | h) <;> cases h
  · rintro s t hsame (rfl | rfl)
    · exact .inl (same_any hsame)
    · exact .inr (same_unknown hsame)

theorem not_vague_concrete (hs : s.IsConcrete) (hany : s ≠ .any) (hunknown : s ≠ .unknown) :
    ¬ S.Vague s := by
  rintro ⟨t, ht, h⟩
  obtain rfl := (branch_concrete_iff hs).mp ht
  exact h.elim hany hunknown

theorem not_shows_unknown : ¬ S.Shows P .unknown := by
  have hconcrete : Shape.IsConcrete .unknown := trivial
  rintro (hany | ⟨hunknown, -⟩)
  · have h := (branch_concrete_iff hconcrete).mp hany
    cases h
  · exact hunknown (.concrete hconcrete)

theorem vague_iff_kind (hS : S.Valid) : S.Vague s ↔ S.kind s = .any ∨ S.kind s = .unknown := by
  rw [vague_iff, kind_eq_any_iff hS, kind_eq_unknown_iff hS]
  by_cases hany : S.Branch s .any
  · exact iff_of_true (.inl hany) (.inl hany)
  · simp [hany]

/-- Stripping leaves open what was left open, and no more. -/
theorem vague_strip_iff (hS : S.Valid) : S.Vague (S.strip s) ↔ S.Vague s := by
  have hnull : ¬ S.Vague .null := not_vague_concrete trivial nofun nofun
  have hundefined : ¬ S.Vague .undefined := not_vague_concrete trivial nofun nofun
  exact branchwise_vague.strip_iff hS hnull hundefined

/-- What is shown by a shape that is built of others, and has no branches but theirs, is shown by one
of them; a branch that is `unknown` does not get lost. -/
theorem Shows.of_built {B : Shape → Prop} (hnever : ¬ P .never)
    (hbranch : ∀ t, S.Branch u t → t = .never ∨ ∃ s, B s ∧ S.Branch s t)
    (hvague : ∀ s, B s → S.Vague s → S.Vague u) (h : S.Shows P u) : ∃ s, B s ∧ S.Shows P s := by
  by_cases hany : S.Branch u .any
  · rcases hbranch _ hany with hne | ⟨s, hs, hst⟩
    · cases hne
    · exact ⟨s, hs, .inl hst⟩
  · obtain ⟨hunknown, t, ht, hP⟩ := h.resolve_left hany
    rcases hbranch t ht with rfl | ⟨s, hs, hst⟩
    · exact absurd hP hnever
    · refine ⟨s, hs, .inr ⟨?_, t, hst, hP⟩⟩
      intro hus
      exact (vague_iff.mp (hvague s hs (vague_iff.mpr (.inr hus)))).elim hany hunknown

/-- A property of shapes that a shape which is built of others can only have from one of them. -/
structure Discerning (S : Schema) (A : Shape → Prop) : Prop where
  unknown : ¬ A .unknown
  undefined : ¬ A .undefined
  unionOf : ∀ {ss}, A (unionOf ss) → ∃ s ∈ ss, A s
  strip : ∀ {s}, A (S.strip s) → A s

theorem discerning_shows (hS : S.Valid) (hnever : ¬ P .never) (hundefined : ¬ P .undefined) :
    S.Discerning (S.Shows P) where
  unknown := not_shows_unknown
  undefined := by
    have hconcrete : Shape.IsConcrete .undefined := trivial
    rintro (hany | ⟨-, t, ht, hP⟩)
    · have h := (branch_concrete_iff hconcrete).mp hany
      cases h
    · rw [(branch_concrete_iff hconcrete).mp ht] at hP
      exact hundefined hP
  unionOf := by
    intro ss h
    have hvague : ∀ s, s ∈ ss → S.Vague s → S.Vague (Shape.unionOf ss) :=
      fun s hs hv => branchwise_vague.unionOf_iff.mpr ⟨s, hs, hv⟩
    exact h.of_built hnever (fun t ht => branch_of_unionOf ht) hvague
  strip := by
    intro s h
    have hbranch : ∀ t, S.Branch (S.strip s) t → t = .never ∨ ∃ u, u = s ∧ S.Branch u t :=
      fun t ht => (branch_of_strip hS ht).imp_right fun hst => ⟨s, rfl, hst⟩
    have hvague : ∀ u, u = s → S.Vague u → S.Vague (S.strip s) := by
      rintro u rfl hu
      exact (vague_strip_iff hS).mpr hu
    obtain ⟨u, rfl, hu⟩ := h.of_built hnever hbranch hvague
    exact hu

/-! ### What a segment finds -/

/-- A mark brings in nothing that is discerned. -/
theorem Discerning.markIf (hA : S.Discerning A) {mark : Bool} (h : A (s.markIf mark)) : A s := by
  cases mark with
  | false => exact h
  | true =>
    obtain ⟨t, ht, hA'⟩ := hA.unionOf h
    rcases List.mem_pair.mp ht with rfl | rfl
    · exact hA'
    · exact absurd hA' hA.undefined

section

variable {marks : AbsenceMarks} {segment : String} {rest : List String} {b : Nat}
  {enter : Slot → Option Shape}

/-- The segment stands for a slot from where a shape with the property is found. -/
def Finds (enter : Slot → Option Shape) (segment : String) (A : Shape → Prop) (t : Shape) : Prop :=
  ∃ slot, t.slot? segment = some slot ∧ ∃ u, enter slot = some u ∧ A u

theorem not_finds_never : ¬ Finds enter segment A .never := by
  rintro ⟨slot, hslot, -⟩
  cases hslot

theorem not_finds_undefined : ¬ Finds enter segment A .undefined := by
  rintro ⟨slot, hslot, -⟩
  cases hslot

/-- A union shows what a member shows, unless one of its branches is `unknown`. -/
theorem Shows.of_member (hs : s ∈ ss) (hunknown : ¬ S.Branch (.union ss) .unknown)
    (h : S.Shows P s) : S.Shows P (.union ss) := by
  rcases h with hany | ⟨-, t, ht, hP⟩
  · exact .inl (.member hs hany)
  · exact .inr ⟨hunknown, t, .member hs ht, hP⟩

theorem shows_ref_iff {n : String} (hn : S.definitions.find? n = some s) :
    S.Shows P (.ref n) ↔ S.Shows P s := by
  unfold Shows
  simp only [branch_ref_iff hn]

/-- What is discerned in the union of what members find, one of them has found. -/
theorem Discerning.combine (hA : S.Discerning A) {found : List (Expansion × Option Shape)}
    (h : Expansion.combine marks segment found = some u) (hu : A u) :
    ∃ p ∈ found, ∃ v, p.2 = some v ∧ A v := by
  obtain ⟨-, rfl⟩ := Expansion.combine_eq_some_iff.mp h
  obtain ⟨v, hv, hA'⟩ := hA.unionOf (hA.markIf hu)
  obtain ⟨p, hp, hpv⟩ := List.mem_filterMap.mp hv
  exact ⟨p, hp, v, hpv, hA'⟩

/-- What is discerned behind a segment shows that the segment stands for a slot. -/
theorem Discerning.select (hA : S.Discerning A) (hs : s.IsConcrete)
    (h : s.select enter segment = some u) (hu : A u) : S.Shows (Finds enter segment A) s := by
  by_cases hany : s = .any
  · subst hany
    exact .inl (.concrete hs)
  by_cases hunknown : s = .unknown
  · subst hunknown
    obtain rfl := Option.some.inj h
    exact absurd hu hA.unknown
  · rw [select_of_ne hany hunknown] at h
    obtain ⟨slot, hslot, h⟩ := Option.bind_eq_some_iff.mp h
    refine .inr ⟨?_, s, .concrete hs, slot, hslot, u, h, hu⟩
    rw [branch_concrete_iff hs]
    exact Ne.symm hunknown

theorem Discerning.select_expand (hS : S.Valid) (hA : S.Discerning A)
    (ht : S.expand s = .leaf t) (h : t.select enter segment = some u) (hu : A u) :
    S.Shows (Finds enter segment A) s := by
  induction s using hS.induction with
  | concrete s hs =>
    obtain rfl := Expansion.leaf.inj ((expand_concrete hs).symm.trans ht)
    exact hA.select hs h hu
  | union ss =>
    rw [expand_union] at ht
    cases ht
  | ref n s hn ih =>
    rw [expand_ref hS hn] at ht
    exact (shows_ref_iff hn).mpr (ih ht)
  | dangling n hn =>
    obtain rfl := Expansion.leaf.inj ((expand_dangling hn).symm.trans ht)
    cases h

/-- What is discerned behind a segment in a flat shape, whose members are asked one by one, shows
the same of this shape. -/
theorem Discerning.selectFlat (hS : S.Valid) (hA : S.Discerning A) (hs : S.Flat s)
    (hunknown : ¬ S.Branch s .unknown)
    (h : (S.expand s).selectFlat marks enter segment = some u) (hu : A u) :
    S.Shows (Finds enter segment A) s := by
  cases s with
  | union ss =>
    rw [expand_union, Expansion.selectFlat, List.map_map] at h
    obtain ⟨p, hp, v, hv, hA'⟩ := hA.combine h hu
    obtain ⟨m, hm, rfl⟩ := List.mem_map.mp hp
    obtain ⟨t, ht⟩ := hs m hm
    simp only [Function.comp_apply, ht] at hv
    exact (hA.select_expand hS ht hv hA').of_member hm hunknown
  | _ =>
    obtain ⟨t, ht⟩ := hs _ (List.mem_singleton_self _)
    rw [ht, Expansion.selectFlat] at h
    exact hA.select_expand hS ht h hu

/-- What a segment finds with the property, it finds in a branch, where none is `unknown`, or below a
shape that stands for everything. -/
theorem Discerning.resolve_cons (hS : S.Valid) (hA : S.Discerning A)
    (h : S.resolve marks (b + 1) (segment :: rest) s = some u) (hu : A u) :
    S.Shows (Finds (S.enter marks b rest) segment A) s := by
  induction s using hS.induction generalizing u with
  | concrete s hs =>
    rw [resolve_concrete hs] at h
    exact hA.select hs h hu
  | union ss ih =>
    rcases S.kind_cases (.union ss) with hany | hunknown | ⟨ts, hnullable⟩ | hk
    · exact .inl ((kind_eq_any_iff hS).mp hany)
    · rw [resolve_of_unknown hunknown] at h
      obtain rfl := Option.some.inj h
      exact absurd hu hA.unknown
    · -- without the nullish members, no member stands for anything either
      have hclear : ¬ S.Vague (S.strip (.union ss)) := by
        rw [vague_strip_iff hS, vague_iff_kind hS, hnullable]
        rintro (h | h) <;> cases h
      rw [resolve_union_nullable hnullable] at h
      obtain ⟨v, hv, rfl⟩ := Option.map_eq_some_iff.mp h
      have hshows := hA.selectFlat hS (flat_strip hS _) (fun h => hclear (vague_iff.mpr (.inr h)))
        hv (hA.markIf hu)
      exact (discerning_shows hS not_finds_never not_finds_undefined).strip hshows
    · have hclear : ¬ S.Vague (.union ss) := by
        rw [vague_iff_kind hS]
        exact fun h => h.elim hk.1 hk.2.1
      rw [resolve_union hk] at h
      obtain ⟨p, hp, v, hv, hA'⟩ := hA.combine h hu
      obtain ⟨m, hm, rfl⟩ := List.mem_map.mp hp
      exact (ih m hm hv hA').of_member hm fun h => hclear (vague_iff.mpr (.inr h))
  | ref n s hn ih =>
    rw [resolve_ref hS hn] at h
    exact (shows_ref_iff hn).mpr (ih h hu)
  | dangling n hn =>
    rw [resolve_dangling hn] at h
    cases h

end

/-! ### Listings from the root -/

section

variable {marks : AbsenceMarks} {w : Bool} {b d n : Nat} {segments head rest : List String}

/-- That a listing over one level or more covers a path is shown by the shape. -/
theorem discerning_covers (hS : S.Valid) :
    S.Discerning fun s => (S.patterns w (b + 1) s).covers segments = true := by
  cases segments with
  | nil =>
    have hnone : ∀ s, ¬ (S.patterns w (b + 1) s).covers [] = true := fun s => not_covers_nil hS
    exact ⟨hnone _, hnone _, fun h => absurd h (hnone _), fun h => absurd h (hnone _)⟩
  | cons segment rest =>
    have hshows : (fun s => (S.patterns w (b + 1) s).covers (segment :: rest) = true) =
        S.Shows fun t => ∃ q ∈ t.slots, q.1.covers segment = true ∧ S.SlotCovers w b rest q.2 :=
      funext fun s => propext (covers_cons_iff hS)
    rw [hshows]
    apply discerning_shows hS
    · rintro ⟨q, hq, -⟩
      cases hq
    · rintro ⟨q, hq, -⟩
      cases hq

/-- What is covered where the rest of a path leads to from a slot, is covered from the shape of the
slot. -/
theorem covers_of_enter (hS : S.Valid) {slot : Slot} (h : S.enter marks n head slot = some u)
    (hA : S.Discerning A) (hu : A u)
    (hbelow : ∀ s v, S.resolve marks n head s = some v → A v →
      (S.patterns w (b + 1) s).covers segments = true) :
    (S.patterns w (b + 1) slot.shape).covers segments = true := by
  unfold enter at h
  split at h
  · exact hbelow _ _ h hu
  · obtain ⟨v, hv, rfl⟩ := Option.map_eq_some_iff.mp h
    exact hbelow _ _ hv (hA.markIf hu)
  · split at h
    · -- at the end of the path, the shape of the slot is what is found
      next hhead =>
      subst hhead
      obtain rfl := Option.some.inj h
      have hmark : A (slot.shape.markIf true) := hu
      exact hbelow _ _ (resolve_nil n) (hA.markIf hmark)
    · obtain ⟨v, hv, rfl⟩ := Option.map_eq_some_iff.mp h
      exact (discerning_covers hS).strip (hbelow _ _ hv (hA.markIf hu))

/-- What is covered where segments lead to is covered with the segments in front, over as many more
levels. -/
theorem covers_append (hS : S.Valid) (hn : head.length ≤ n)
    (h : S.resolve marks n head s = some u)
    (hcovers : (S.patterns w (d + 1) u).covers rest = true) :
    (S.patterns w (head.length + (d + 1)) s).covers (head ++ rest) = true := by
  -- one segment of the head after the other, together with its level
  induction head generalizing n s u with
  | nil =>
    rw [resolve_nil] at h
    obtain rfl := Option.some.inj h
    simpa using hcovers
  | cons segment head ih =>
    rw [List.length_cons] at hn
    obtain ⟨n, rfl⟩ : ∃ k, n = k + 1 := ⟨n - 1, by omega⟩
    have hlength : (segment :: head).length + (d + 1) = (head.length + d + 1) + 1 := by
      simp
      omega
    rw [hlength, List.cons_append, covers_cons_iff hS]
    have hA : S.Discerning fun s => (S.patterns w (d + 1) s).covers rest = true :=
      discerning_covers hS
    apply (hA.resolve_cons hS h hcovers).mono
    rintro t ⟨slot, hslot, v, hv, hrest⟩
    obtain ⟨q, hq, hsegment, rfl⟩ := mem_slots_of_slot? hslot
    refine ⟨q, hq, hsegment, .inr ?_⟩
    apply covers_of_enter hS hv hA hrest
    intro s v hs hrest
    exact ih (Nat.le_of_succ_le_succ hn) hs hrest

end

end Schema

namespace Catalog

open Schema

variable {C : Catalog} {options : ListingOptions} {offset segment : String} {head : List String}
  {s : Shape}

/-- What is covered below the parent is covered from the root, over the levels of both. -/
theorem covers_of_parent {w : Bool} {b : Nat} {rest : List String} (hb : 0 < b)
    (hs : C.schema.resolveParent head = some s)
    (hrest : (C.schema.patterns w b s).covers rest = true) :
    (C.schema.patterns w (head.length + b) C.schema.root).covers (head ++ rest) = true := by
  obtain ⟨d, rfl⟩ : ∃ d, b = d + 1 := ⟨b - 1, by omega⟩
  exact covers_append C.valid (Nat.le_max_right _ _) hs hrest

/-- A path that is allowed is covered from the root, if there are levels enough. -/
theorem covers_of_check (hdepth : 0 < options.depth)
    (hoffset : Path.segments offset = head ++ [segment])
    (hcheck : C.check offset options = .ok ()) :
    (C.schema.patterns options.writableOnly (head.length + options.depth) C.schema.root).contains
      offset = true := by
  obtain ⟨s, hs, hcovers⟩ := (check_eq_ok_iff_covers hdepth hoffset).mp hcheck
  rw [PatternSet.contains, hoffset]
  exact covers_of_parent hdepth hs hcovers

/-- What is offered to continue a path starts with the head of the path, and is listed from the root
over as many more levels as the head has segments; and so is the path itself, if it is allowed. -/
theorem completions_listed (hdepth : 0 < options.depth)
    (hoffset : Path.segments offset = head ++ [segment])
    (hs : C.schema.resolveParent head = some s) :
    ∃ set full, C.schema.completions offset options = .ok set ∧
      C.completions offset options = .ok set ∧
      C.paths { options with depth := head.length + options.depth } = .ok full ∧
      (∀ path, set.contains path = true →
        (∃ rest, Path.segments path = head ++ rest) ∧ full.contains path = true) ∧
      (C.check offset options = .ok () → full.contains offset = true) := by
  obtain ⟨set, hset, hcovers⟩ := completions_eq_ok hdepth hoffset hs
  have hdepths : 0 < head.length + options.depth := by omega
  refine ⟨set, _, hset, completions_eq.trans hset, paths_of_depth hdepths, ?_,
    covers_of_check hdepth hoffset⟩
  intro path hpath
  obtain ⟨rest, hrest, hcovered⟩ := (hcovers _).mp hpath
  refine ⟨⟨rest, hrest⟩, ?_⟩
  rw [PatternSet.contains, hrest]
  exact covers_of_parent hdepth hs hcovered

theorem completions_first_item :
    Path.segments "items.0.na" = ["items", "0"] ++ ["na"] ∧
    namedItems.schema.resolveParent ["items", "0"] = some (.ref "item") ∧
    ∃ set full, namedItems.completions "items.0.na" { depth := 1 } = .ok set ∧
      namedItems.paths { depth := 3 } = .ok full ∧ set.contains "items.0.name" = true ∧
      full.contains "items.0.name" = true := by
  have hoffset : Path.segments "items.0.na" = ["items", "0"] ++ ["na"] := by decide
  have hparent : namedItems.schema.resolveParent ["items", "0"] = some (.ref "item") := by
    decide +kernel
  have hdepth : 0 < ({ depth := 1 } : ListingOptions).depth := by decide
  obtain ⟨set, full, -, hset, hfull, hlisted, -⟩ := completions_listed hdepth hoffset hparent
  have hcompletions : namedItems.completions "items.0.na" { depth := 1 } =
      .ok (.ofList [[.key "items", .key "0", .key "name"]]) := by decide +kernel
  obtain rfl := Except.ok.inj (hset.symm.trans hcompletions)
  have hname : PatternSet.contains (.ofList [[.key "items", .key "0", .key "name"]])
      "items.0.name" = true := by decide +kernel
  exact ⟨hoffset, hparent, _, full, hset, hfull, hname, (hlisted _ hname).2⟩

end Catalog

end TypedPaths

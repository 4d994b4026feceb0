/-
TypedPaths/Proofs/Depth.lean

Listings over different numbers of levels.

Design.  Where its levels end, a listing covers everything below a shape that can be traversed.  A
listing over further levels goes on from there only if the shape has a slot, so it covers nothing
that is not covered already.  With more levels a listing gets more precise, and never covers more.

Which patterns a listing holds depends on its levels only where they end.  A pattern that does not
end with the part for everything below is as long as the way down to its slot, so a listing over
more levels has it as well, and has no other pattern of that length (`mem_listing_iff_of_le`).

Main results: `mem_listing_iff_of_le`, `covers_of_le`, `patterns_refine`.
-/
import TypedPaths.Proofs.Listing

namespace TypedPaths.Schema

variable {S : Schema} {s : Shape} {w : Bool} {b c : Nat} {segment : String} {rest : List String}
  {p : Pattern}

/-! ### Patterns -/

/-- Without levels, only the pattern of everything below is listed. -/
theorem getLast?_of_mem_listing_zero (hp : p ∈ S.listing w 0 s) : p.getLast? = some .rest := by
  rw [listing] at hp
  split at hp
  · cases hp
  · rw [List.mem_singleton.mp hp]
    rfl

/-- The patterns of a slot agree as far as those below it do. -/
theorem mem_slotListing_iff_of_le {part : PatternPart} {slot : Slot}
    (hbelow : ∀ {parts : Pattern}, parts.getLast? ≠ some .rest →
      (parts ∈ S.listing w b slot.shape ↔ parts ∈ S.listing w c slot.shape ∧ parts.length ≤ b))
    (hrest : p.getLast? ≠ some .rest) :
    p ∈ slotListing w (S.listing w b) part slot ↔
      p ∈ slotListing w (S.listing w c) part slot ∧ p.length ≤ b + 1 := by
  rw [mem_slotListing_iff, mem_slotListing_iff]
  have hparts : ∀ {parts : Pattern}, p = part :: parts → parts.getLast? ≠ some .rest := by
    rintro parts rfl hlast
    simp [List.getLast?_cons, hlast] at hrest
  constructor
  · rintro (⟨hkept, rfl⟩ | ⟨parts, hmem, rfl⟩)
    · exact ⟨.inl ⟨hkept, rfl⟩, by simp⟩
    · obtain ⟨hmem, hlength⟩ := (hbelow (hparts rfl)).mp hmem
      exact ⟨.inr ⟨parts, hmem, rfl⟩, Nat.succ_le_succ hlength⟩
  · rintro ⟨⟨hkept, rfl⟩ | ⟨parts, hmem, rfl⟩, hlength⟩
    · exact .inl ⟨hkept, rfl⟩
    · exact .inr ⟨parts, (hbelow (hparts rfl)).mpr ⟨hmem, Nat.le_of_succ_le_succ hlength⟩, rfl⟩

/-- Of the patterns that do not end with everything below, a listing has those of a listing over more
levels that are no longer than it has levels. -/
theorem mem_listing_iff_of_le (hS : S.Valid) (hbc : b ≤ c) (hrest : p.getLast? ≠ some .rest) :
    p ∈ S.listing w b s ↔ p ∈ S.listing w c s ∧ p.length ≤ b := by
  -- both listings go down the same slots, one level with each part
  induction b generalizing c p s with
  | zero =>
    refine ⟨fun hp => absurd (getLast?_of_mem_listing_zero hp) hrest, fun ⟨hp, hlength⟩ => ?_⟩
    exact absurd (List.length_eq_zero_iff.mp (Nat.le_zero.mp hlength)) (ne_nil_of_mem_listing hS hp)
  | succ b ih =>
    obtain ⟨c, rfl⟩ : ∃ k, c = k + 1 := ⟨c - 1, by omega⟩
    have hne : p ≠ [.rest] := by
      rintro rfl
      exact hrest rfl
    have hslot : ∀ q : PatternPart × Slot, p ∈ slotListing w (S.listing w b) q.1 q.2 ↔
        p ∈ slotListing w (S.listing w c) q.1 q.2 ∧ p.length ≤ b + 1 := by
      intro q
      exact mem_slotListing_iff_of_le (fun hparts => ih (by omega) hparts) hrest
    rw [mem_listing_succ_iff hS, mem_listing_succ_iff hS, or_iff_right fun h => hne h.2,
      or_iff_right fun h => hne h.2]
    constructor
    · rintro ⟨hany, hunknown, t, ht, q, hq, hp⟩
      obtain ⟨hp, hlength⟩ := (hslot q).mp hp
      exact ⟨⟨hany, hunknown, t, ht, q, hq, hp⟩, hlength⟩
    · rintro ⟨⟨hany, hunknown, t, ht, q, hq, hp⟩, hlength⟩
      exact ⟨hany, hunknown, t, ht, q, hq, (hslot q).mpr ⟨hp, hlength⟩⟩

/-! ### Covered paths -/

/-- Where a listing goes on, the shape can be traversed, so without levels all is covered. -/
theorem covers_zero_of_cons (hS : S.Valid)
    (h : (S.patterns w (b + 1) s).covers (segment :: rest) = true) :
    (S.patterns w 0 s).covers (segment :: rest) = true := by
  rw [covers_zero_iff]
  refine ⟨List.cons_ne_nil _ _, not_isTerminal hS ?_⟩
  apply ((covers_cons_iff hS).mp h).mono
  rintro t ⟨q, hq, -⟩
  exact List.ne_nil_of_mem hq

theorem SlotCovers.mono {slot : Slot}
    (hbelow : (S.patterns w c slot.shape).covers rest = true →
      (S.patterns w b slot.shape).covers rest = true)
    (h : S.SlotCovers w c rest slot) : S.SlotCovers w b rest slot := by
  rcases h with hend | hrest
  · exact .inl hend
  · exact .inr (hbelow hrest)

/-- What a listing covers is covered over fewer levels as well. -/
theorem covers_of_le (hS : S.Valid) {segments : List String} (hbc : b ≤ c)
    (h : (S.patterns w c s).covers segments = true) :
    (S.patterns w b s).covers segments = true := by
  -- both listings go down one level with each segment
  induction segments generalizing b c s with
  | nil => exact absurd h (not_covers_nil hS)
  | cons segment rest ih =>
    cases c with
    | zero =>
      obtain rfl : b = 0 := by omega
      exact h
    | succ c =>
      cases b with
      | zero => exact covers_zero_of_cons hS h
      | succ b =>
        have hle : b ≤ c := by omega
        rw [covers_cons_iff hS] at h ⊢
        apply h.mono
        rintro t ⟨q, hq, hsegment, hrest⟩
        exact ⟨q, hq, hsegment, hrest.mono fun h => ih hle h⟩

/-- With more levels a listing is refined: its patterns stay, but for those that end with everything
below, and what comes in their place covers nothing else. -/
theorem patterns_refine (hS : S.Valid) (s : Shape) (w : Bool) (hbc : b ≤ c) :
    (∀ p : Pattern, p.getLast? ≠ some .rest →
      (p ∈ S.patterns w b s ↔ p ∈ S.patterns w c s ∧ p.length ≤ b)) ∧
    ∀ path, (S.patterns w c s).contains path = true → (S.patterns w b s).contains path = true := by
  refine ⟨fun p hrest => ?_, fun path hpath => covers_of_le hS hbc hpath⟩
  rw [mem_patterns, mem_patterns]
  exact mem_listing_iff_of_le hS hbc hrest

/-- Persons, who have a name and may have a partner. -/
def persons : Schema where
  root := .ref "person"
  definitions := .ofList
    [("person", .struct [⟨"name", .primitive .string, false, false, false⟩,
      ⟨"partner", .union [.null, .ref "person"], false, false, false⟩] none)]

theorem patterns_refine_persons :
    persons.Valid ∧ 1 ≤ 2 ∧
    persons.patterns false 1 persons.root =
      .ofList [[.key "name"], [.key "partner"], [.key "partner", .rest]] ∧
    (persons.patterns false 2 persons.root).contains "partner.name" = true ∧
    (persons.patterns false 1 persons.root).contains "partner.name" = true ∧
    [.key "partner"] ∈ persons.patterns false 2 persons.root := by
  have hvalid : persons.Valid := by decide +kernel
  have hle : 1 ≤ 2 := by decide
  obtain ⟨hpatterns, hcontains⟩ := patterns_refine hvalid persons.root false hle
  have hone : persons.patterns false 1 persons.root =
      .ofList [[.key "name"], [.key "partner"], [.key "partner", .rest]] := by decide +kernel
  have hname : (persons.patterns false 2 persons.root).contains "partner.name" = true := by
    decide +kernel
  have hpartner : [PatternPart.key "partner"] ∈ persons.patterns false 1 persons.root := by
    rw [hone]
    exact SortedSet.mem_ofList.mpr (by simp)
  exact ⟨hvalid, hle, hone, hname, hcontains _ hname,
    ((hpatterns [.key "partner"] (by decide)).mp hpartner).1⟩

end TypedPaths.Schema

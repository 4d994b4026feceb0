/-
TypedPaths/Proofs/Assignable.lean

What a listing of assignable places leaves out.

Design.  Whether a slot is readonly is asked in one place of a listing: where the slot would be
the end of a pattern.  On the way down, and where the levels run out, it is not asked.  So the
pattern is taken apart before its last part, as in `mem_listing_append_iff`.  The parts in front
lead to places, by some choice of branches and of slots with the same part, and never mind the
flags on the way (`Schema.LeadsTo`).  The last part is either that of everything below, which
every listing has there (`rest_mem_listing_iff`), or that of a slot of such a place, whose own
flag decides (`singleton_mem_listing_iff`).

Main results: `mem_listing_iff_endsIn`, `writable_patterns`.
-/
import TypedPaths.Proofs.Truncation

namespace TypedPaths.Schema

variable {S : Schema} {w : Bool} {b : Nat} {p q : Pattern} {s t : Shape} {part : PatternPart}

/-! ### The last part -/

/-- A slot of a branch that is shown: no branch stands for everything. -/
def ShowsSlot (S : Schema) (part : PatternPart) (slot : Slot) (s : Shape) : Prop :=
  ¬ S.Branch s .any ∧ ¬ S.Branch s .unknown ∧ ∃ t, S.Branch s t ∧ (part, slot) ∈ t.slots

/-- By some choice of branches and slots, the pattern leads from the shape to the slot. -/
def EndsIn (S : Schema) (p : Pattern) (s : Shape) (slot : Slot) : Prop :=
  ∃ q part t, p = q ++ [part] ∧ S.LeadsTo q s t ∧ S.ShowsSlot part slot t

/-- Over one level or more, a part is listed alone if it is that of a slot which is not left out. -/
theorem singleton_mem_listing_iff (hS : S.Valid) (hpart : part ≠ .rest) :
    [part] ∈ S.listing w (b + 1) s ↔
      ∃ slot, S.ShowsSlot part slot s ∧ (w && slot.readonly) = false := by
  have hne : [part] ≠ [PatternPart.rest] := fun h => hpart (List.cons.inj h).1
  rw [mem_listing_succ_iff hS, or_iff_right fun h => hne h.2]
  constructor
  · rintro ⟨hany, hunknown, t, ht, ⟨part', slot⟩, hslot, h⟩
    rcases mem_slotListing_iff.mp h with ⟨hkept, h⟩ | ⟨parts, hparts, h⟩
    · obtain rfl := (List.cons.inj h).1
      exact ⟨slot, ⟨hany, hunknown, t, ht, hslot⟩, hkept⟩
    · -- every pattern below the slot has a part of its own
      exact absurd (List.cons.inj h).2.symm (ne_nil_of_mem_listing hS hparts)
  · rintro ⟨slot, ⟨hany, hunknown, t, ht, hslot⟩, hkept⟩
    exact ⟨hany, hunknown, t, ht, (part, slot), hslot, mem_slotListing_iff.mpr (.inl ⟨hkept, rfl⟩)⟩

/-- Where a listing is cut off does not depend on what it leaves out. -/
theorem rest_mem_listing_iff (hS : S.Valid) (w w' : Bool) :
    [.rest] ∈ S.listing w b s ↔ [.rest] ∈ S.listing w' b s := by
  cases b with
  | zero => rw [listing, listing]
  | succ b =>
    have hany : ∀ w, [.rest] ∈ S.listing w (b + 1) s ↔ S.Branch s .any := fun w =>
      ⟨branch_any_of_rest hS, fun h => (mem_listing_succ_iff hS).mpr (.inl ⟨h, rfl⟩)⟩
    rw [hany, hany]

/-! ### Whole patterns -/

/-- A pattern with an end of its own is listed if and only if there are levels for its parts, and those
in front of the last lead to a place with a slot for the last which is not left out. -/
theorem concat_mem_listing_iff (hS : S.Valid) (hpart : part ≠ .rest) :
    q ++ [part] ∈ S.listing w b s ↔ q.length < b ∧
      ∃ t, S.LeadsTo q s t ∧ ∃ slot, S.ShowsSlot part slot t ∧ (w && slot.readonly) = false := by
  by_cases hlevels : q.length < b
  · obtain ⟨c, rfl⟩ : ∃ c, b = q.length + (c + 1) := ⟨b - q.length - 1, by omega⟩
    rw [and_iff_right hlevels, mem_listing_append_iff hS (List.cons_ne_nil _ _)]
    exact exists_congr fun t => and_congr_right fun _ => singleton_mem_listing_iff hS hpart
  · refine iff_of_false (fun h => hlevels ?_) fun h => hlevels h.1
    have hrest : (q ++ [part]).getLast? ≠ some .rest := by
      rw [List.getLast?_concat]
      exact fun h => hpart (Option.some.inj h)
    have hle := ((mem_listing_iff_of_le hS (Nat.le_refl b) hrest).mp h).2
    rwa [List.length_append, List.length_singleton] at hle

theorem mem_listing_iff_endsIn (hS : S.Valid) (hrest : p.getLast? ≠ some .rest) :
    p ∈ S.listing w b s ↔
      p.length ≤ b ∧ ∃ slot, S.EndsIn p s slot ∧ (w && slot.readonly) = false := by
  rcases List.eq_nil_or_concat' p with rfl | ⟨q, part, rfl⟩
  · refine iff_of_false (fun h => ne_nil_of_mem_listing hS h rfl) ?_
    rintro ⟨-, slot, ⟨q, part, t, hp, -⟩, -⟩
    exact absurd hp.symm (List.append_ne_nil_of_right_ne_nil q (List.cons_ne_nil _ _))
  · have hpart : part ≠ .rest := by
      rintro rfl
      exact hrest List.getLast?_concat
    rw [concat_mem_listing_iff hS hpart, List.length_append, List.length_singleton,
      Nat.succ_le_iff]
    refine and_congr_right fun _ => ⟨?_, ?_⟩
    · rintro ⟨t, hlead, slot, hslot, hkept⟩
      exact ⟨slot, ⟨q, part, t, rfl, hlead, hslot⟩, hkept⟩
    · rintro ⟨slot, ⟨q', part', t, hp, hlead, hslot⟩, hkept⟩
      obtain ⟨rfl, hlast⟩ := List.append_inj' hp rfl
      obtain rfl := (List.cons.inj hlast).1
      exact ⟨t, hlead, slot, hslot, hkept⟩

/-- A pattern that is cut off is listed whatever is left out. -/
theorem mem_listing_of_cut_off (hS : S.Valid) (w' : Bool) (hrest : p.getLast? = some .rest)
    (h : p ∈ S.listing w b s) : p ∈ S.listing w' b s := by
  obtain ⟨q, rfl⟩ := List.getLast?_eq_some_iff.mp hrest
  have hle := length_le_of_mem_listing hS h
  rw [List.length_append, List.length_singleton] at hle
  obtain ⟨c, rfl⟩ : ∃ c, b = q.length + c := ⟨b - q.length, by omega⟩
  rw [mem_listing_append_iff hS (List.cons_ne_nil _ _)] at h ⊢
  obtain ⟨t, hlead, ht⟩ := h
  exact ⟨t, hlead, (rest_mem_listing_iff hS w w').mp ht⟩

/-- A listing of what can be assigned to has the patterns of the whole listing that are cut off, and
of the others those that lead to a slot which is not readonly, by at least one choice of branches and
slots.  So flags in front of the last part remove nothing: the whole listing has every pattern that
leads to a slot, and there is no other condition. -/
theorem writable_patterns (hS : S.Valid) (b : Budget) (s : Shape) :
    (∀ p, p ∈ S.patterns true b s → p ∈ S.patterns false b s) ∧
    (∀ p : Pattern, p.getLast? = some .rest →
      (p ∈ S.patterns true b s ↔ p ∈ S.patterns false b s)) ∧
    ∀ p : Pattern, p.getLast? ≠ some .rest →
      (p ∈ S.patterns false b s ↔ p.length ≤ b ∧ ∃ slot, S.EndsIn p s slot) ∧
      (p ∈ S.patterns true b s ↔
        p ∈ S.patterns false b s ∧ ∃ slot, S.EndsIn p s slot ∧ slot.readonly = false) := by
  simp only [mem_patterns]
  have hall : ∀ p : Pattern, p.getLast? ≠ some .rest →
      (p ∈ S.listing false b s ↔ p.length ≤ b ∧ ∃ slot, S.EndsIn p s slot) := by
    intro p hrest
    simpa using mem_listing_iff_endsIn (w := false) hS hrest
  have hwritable : ∀ p : Pattern, p.getLast? ≠ some .rest → (p ∈ S.listing true b s ↔
      p ∈ S.listing false b s ∧ ∃ slot, S.EndsIn p s slot ∧ slot.readonly = false) := by
    intro p hrest
    rw [mem_listing_iff_endsIn hS hrest, hall p hrest, and_assoc]
    refine and_congr_right fun _ => ⟨?_, fun h => h.2⟩
    rintro ⟨slot, hends, hkept⟩
    exact ⟨⟨slot, hends⟩, slot, hends, hkept⟩
  have hcut : ∀ p : Pattern, p.getLast? = some .rest →
      (p ∈ S.listing true b s ↔ p ∈ S.listing false b s) := fun p hrest =>
    ⟨mem_listing_of_cut_off hS false hrest, mem_listing_of_cut_off hS true hrest⟩
  refine ⟨fun p hp => ?_, hcut, fun p hrest => ⟨hall p hrest, hwritable p hrest⟩⟩
  by_cases hrest : p.getLast? = some .rest
  · exact (hcut p hrest).mp hp
  · exact ((hwritable p hrest).mp hp).1

/-- Accounts of two forms: the number of the first cannot be changed, nor who owns it, but the name of
the owner can. -/
def accounts : Schema where
  root := .union
    [.struct [⟨"number", .primitive .number, false, true, false⟩,
        ⟨"owner", .struct [⟨"name", .primitive .string, false, false, false⟩] none,
          false, true, false⟩] none,
      .struct [⟨"number", .primitive .string, false, false, false⟩] none]

theorem writable_patterns_accounts :
    accounts.Valid ∧
    accounts.patterns false 2 accounts.root =
      .ofList [[.key "number"], [.key "owner"], [.key "owner", .key "name"]] ∧
    accounts.patterns true 2 accounts.root =
      .ofList [[.key "number"], [.key "owner", .key "name"]] ∧
    (∃ slot, accounts.EndsIn [.key "owner", .key "name"] accounts.root slot ∧
      slot.readonly = false) ∧
    ¬ ∃ slot, accounts.EndsIn [.key "owner"] accounts.root slot ∧ slot.readonly = false := by
  have hvalid : accounts.Valid := by decide
  have hall : accounts.patterns false 2 accounts.root =
      .ofList [[.key "number"], [.key "owner"], [.key "owner", .key "name"]] := by decide +kernel
  have hwritable : accounts.patterns true 2 accounts.root =
      .ofList [[.key "number"], [.key "owner", .key "name"]] := by decide +kernel
  obtain ⟨-, -, hends⟩ := writable_patterns hvalid 2 accounts.root
  rw [hall, hwritable] at hends
  simp only [SortedSet.mem_ofList] at hends
  refine ⟨hvalid, hall, hwritable, ?_, fun hslot => ?_⟩
  · exact ((hends [.key "owner", .key "name"] (by decide)).2.mp (by simp)).2
  · have howner := (hends [.key "owner"] (by decide)).2.mpr ⟨by simp, hslot⟩
    simp at howner

end TypedPaths.Schema

/-
TypedPaths/Proofs/Listing.lean

Which segments a listing covers.

Design.  A listing is a walk over the expansion of a shape, so what it holds can be asked of the
branches: unless one of them is `any` or `unknown`, a pattern is listed below a shape if and only
if it is listed below a branch (`mem_listing_iff`).  So a path is covered if and only if a slot of
a branch covers its first segment and the rest is covered from there (`covers_cons_iff`); of a
single segment, this asks for a slot that is not left out (`covers_singleton_iff`).

Main results: `mem_listing_succ_iff`, `covers_cons_iff`, `covers_singleton_iff`,
`PatternSet.covers_below_iff`.
-/
import TypedPaths.Completion
import TypedPaths.Proofs.Kind
import TypedPaths.Proofs.Slot

namespace TypedPaths

/-! ### Patterns -/

namespace Pattern

theorem covers_nil_iff {p : Pattern} : p.covers [] = true ↔ p = [] := by
  rcases p with - | ⟨part, parts⟩
  · simp [covers]
  · cases part <;> simp [covers]

/-- A part in front covers the first segment. -/
theorem covers_cons {part : PatternPart} (hpart : part ≠ .rest) (parts : Pattern)
    (segment : String) (segments : List String) :
    covers (part :: parts) (segment :: segments) =
      (part.covers segment && covers parts segments) := by
  cases part <;> first | rfl | exact absurd rfl hpart

/-- Below a place, a pattern covers the paths that lead through it and on as the pattern says. -/
theorem covers_below_iff {head : List String} {p : Pattern} {segments : List String} :
    (p.below head).covers segments = true ↔
      ∃ rest, segments = head ++ rest ∧ p.covers rest = true := by
  unfold below
  induction head generalizing segments with
  | nil => simp
  | cons name head ih =>
    rw [List.map_cons, List.cons_append]
    cases segments with
    | nil => simp [covers]
    | cons segment segments =>
      rw [covers_cons (by simp), Bool.and_eq_true, ih]
      constructor
      · rintro ⟨hname, rest, rfl, hrest⟩
        obtain rfl := eq_of_beq hname
        exact ⟨rest, rfl, hrest⟩
      · rintro ⟨rest, heq, hrest⟩
        obtain ⟨rfl, rfl⟩ := List.cons.inj heq
        exact ⟨beq_self_eq_true _, rest, rfl, hrest⟩

end Pattern

theorem PatternSet.covers_below_iff {set : PatternSet} {head segments : List String} :
    (set.below head).covers segments = true ↔
      ∃ rest, segments = head ++ rest ∧ set.covers rest = true := by
  unfold below
  rw [covers_ofList]
  simp only [List.mem_map, exists_exists_and_eq_and, Pattern.covers_below_iff, covers_iff]
  constructor
  · rintro ⟨p, hp, rest, hrest, hcovers⟩
    exact ⟨rest, hrest, p, hp, hcovers⟩
  · rintro ⟨rest, hrest, p, hp, hcovers⟩
    exact ⟨p, hp, rest, hrest, hcovers⟩

namespace Shape

/-- A slot of the shape covers the segment and is listed. -/
def Lists (writableOnly : Bool) (segment : String) (s : Shape) : Prop :=
  ∃ p ∈ s.slots, p.1.covers segment = true ∧ (writableOnly && p.2.readonly) = false

end Shape

namespace Expansion

variable {concrete : Shape → List Pattern}

theorem listingMembers_eq_flatMap (members : List (Shape × Expansion)) :
    listingMembers concrete members = members.flatMap fun m => m.2.listing concrete := by
  induction members with
  | nil => rfl
  | cons m members ih =>
    obtain ⟨s, e⟩ := m
    rw [listingMembers, ih, List.flatMap_cons]

theorem listing_leaf {s : Shape} (hs : s ≠ .any) :
    listing concrete (.leaf s) = concrete s := by
  cases s <;> first | rfl | exact absurd rfl hs

end Expansion

namespace Schema

variable {S : Schema} {s : Shape} {w : Bool} {b : Nat}

/-! ### Listings branch by branch -/

section

variable {concrete : Shape → List Pattern} {p : Pattern}

/-- What is listed below the members of a union, each of which is known by its branches. -/
theorem mem_listingMembers_iff {ss : List Shape}
    (hmember : ∀ s ∈ ss, p ∈ (S.expand s).listing concrete ↔
      ∃ t, S.Branch s t ∧ p ∈ concrete t) :
    p ∈ Expansion.listingMembers concrete (ss.map fun s => (s, S.expand s)) ↔
      ∃ t, S.Branch (.union ss) t ∧ p ∈ concrete t := by
  rw [Expansion.listingMembers_eq_flatMap, List.flatMap_map, exists_branch_union_iff,
    List.mem_flatMap]
  exact exists_congr fun s => and_congr_right fun hs => hmember s hs

/-- What is listed below a shape is listed below one of its branches; below `any` there is
everything, and below `unknown` nothing. -/
theorem mem_listing_iff (hS : S.Valid) (hunknown : concrete .unknown = [])
    (hnever : concrete .never = []) :
    p ∈ (S.expand s).listing concrete ↔
      S.Branch s .any ∧ p = [.rest] ∨
        ¬ S.Branch s .any ∧ ¬ S.Branch s .unknown ∧ ∃ t, S.Branch s t ∧ p ∈ concrete t := by
  induction s using hS.induction with
  | concrete s hs =>
    rw [expand_concrete hs]
    simp only [branch_concrete_iff hs, exists_eq_left]
    by_cases h : s = .any
    · subst h
      simp [Expansion.listing]
    · rw [Expansion.listing_leaf h, or_iff_right fun h' => h h'.1.symm, and_iff_right (Ne.symm h)]
      by_cases h' : s = .unknown
      · subst h'
        simp [hunknown]
      · exact (and_iff_right (Ne.symm h')).symm
  | union ss ih =>
    rw [expand_union, Expansion.listing, ← expand_union]
    split
    · next hk =>
      have ha : S.Branch (.union ss) .any := (kind_eq_any_iff hS).mp hk
      simp [ha]
    · next hk =>
      obtain ⟨ha, hu⟩ := (kind_eq_unknown_iff hS).mp hk
      simp [ha, hu]
    · -- no member has a branch that stands for everything
      next hka hku =>
      have ha : ¬ S.Branch (.union ss) .any := fun h => hka ((kind_eq_any_iff hS).mpr h)
      have hu : ¬ S.Branch (.union ss) .unknown :=
        fun h => hku ((kind_eq_unknown_iff hS).mpr ⟨ha, h⟩)
      rw [or_iff_right fun h => ha h.1, and_iff_right ha, and_iff_right hu]
      refine mem_listingMembers_iff fun s hs => ?_
      have has : ¬ S.Branch s .any := fun h => ha (.member hs h)
      have hus : ¬ S.Branch s .unknown := fun h => hu (.member hs h)
      simp [ih s hs, has, hus]
  | ref n s hn ih =>
    rw [expand_ref hS hn]
    simp only [branch_ref_iff hn]
    exact ih
  | dangling n hn =>
    rw [expand_dangling hn, Expansion.listing_leaf (by simp), hnever]
    simp [not_branch_dangling hn]

end

/-- The patterns of a slot are its own part, unless it is left out, and those below it. -/
theorem mem_slotListing_iff {below : Shape → List Pattern} {part : PatternPart} {slot : Slot}
    {p : Pattern} :
    p ∈ slotListing w below part slot ↔
      (w && slot.readonly) = false ∧ p = [part] ∨ ∃ q ∈ below slot.shape, p = part :: q := by
  unfold slotListing
  rw [List.mem_append, List.mem_map]
  cases w && slot.readonly <;> simp [eq_comm]

/-- A listing over one level or more, branch by branch and slot by slot. -/
theorem mem_listing_succ_iff (hS : S.Valid) {p : Pattern} :
    p ∈ S.listing w (b + 1) s ↔
      S.Branch s .any ∧ p = [.rest] ∨
        ¬ S.Branch s .any ∧ ¬ S.Branch s .unknown ∧
          ∃ t, S.Branch s t ∧ ∃ q ∈ t.slots, p ∈ slotListing w (S.listing w b) q.1 q.2 := by
  rw [listing, mem_listing_iff hS rfl rfl]
  simp only [List.mem_flatMap]

/-- Every pattern that is listed has a part. -/
theorem ne_nil_of_mem_listing (hS : S.Valid) {p : Pattern} (h : p ∈ S.listing w b s) : p ≠ [] := by
  cases b with
  | zero =>
    rw [listing] at h
    split at h
    · cases h
    · rw [List.mem_singleton.mp h]
      exact List.cons_ne_nil _ _
  | succ b =>
    rcases (mem_listing_succ_iff hS).mp h with ⟨-, rfl⟩ | ⟨-, -, t, -, q, -, h⟩
    · exact List.cons_ne_nil _ _
    · rcases mem_slotListing_iff.mp h with ⟨-, rfl⟩ | ⟨r, -, rfl⟩
      · exact List.cons_ne_nil _ _
      · exact List.cons_ne_nil _ _

/-! ### What a listing covers -/

theorem covers_patterns_iff {segments : List String} :
    (S.patterns w b s).covers segments = true ↔
      ∃ p ∈ S.listing w b s, p.covers segments = true :=
  PatternSet.covers_ofList

/-- No listing covers the path without segments. -/
theorem not_covers_nil (hS : S.Valid) : ¬ (S.patterns w b s).covers [] = true := by
  rw [covers_patterns_iff]
  rintro ⟨p, hp, hcovers⟩
  exact ne_nil_of_mem_listing hS hp (Pattern.covers_nil_iff.mp hcovers)

/-- Without levels, a listing covers every path below a shape that can be traversed. -/
theorem covers_zero_iff {segments : List String} :
    (S.patterns w 0 s).covers segments = true ↔
      segments ≠ [] ∧ (S.kind s).isTerminal = false := by
  rw [covers_patterns_iff, listing]
  cases (S.kind s).isTerminal <;> simp [Pattern.covers]

/-- From a slot, a listing covers the rest of a path: the slot is the end of it and is listed, or
the listing below the slot covers it. -/
def SlotCovers (S : Schema) (w : Bool) (b : Budget) (rest : List String) (slot : Slot) : Prop :=
  rest = [] ∧ (w && slot.readonly) = false ∨ (S.patterns w b slot.shape).covers rest = true

/-- A pattern of a slot that covers a path starts with the part of the slot, and ends there if the
path does, or goes on below the slot. -/
theorem covers_of_mem_slotListing {part : PatternPart} (hpart : part ≠ .rest) {slot : Slot}
    {p : Pattern} {segment : String} {rest : List String}
    (hp : p ∈ slotListing w (S.listing w b) part slot)
    (hcovers : p.covers (segment :: rest) = true) :
    part.covers segment = true ∧
      (rest = [] ∧ (w && slot.readonly) = false ∧ p = [part] ∨
        ∃ parts ∈ S.listing w b slot.shape, p = part :: parts ∧ parts.covers rest = true) := by
  rcases mem_slotListing_iff.mp hp with ⟨hkept, rfl⟩ | ⟨parts, hparts, rfl⟩
  · rw [Pattern.covers_cons hpart, Bool.and_eq_true] at hcovers
    refine ⟨hcovers.1, .inl ⟨?_, hkept, rfl⟩⟩
    cases rest with
    | nil => rfl
    | cons => simp [Pattern.covers] at hcovers
  · rw [Pattern.covers_cons hpart, Bool.and_eq_true] at hcovers
    exact ⟨hcovers.1, .inr ⟨parts, hparts, rfl, hcovers.2⟩⟩

/-- Of the patterns of a slot, its own part covers a single segment, and those below the slot what
is left of a longer path. -/
theorem exists_mem_slotListing_iff {part : PatternPart} (hpart : part ≠ .rest)
    {slot : Slot} {segment : String} {rest : List String} :
    (∃ p ∈ slotListing w (S.listing w b) part slot, p.covers (segment :: rest) = true) ↔
      part.covers segment = true ∧ S.SlotCovers w b rest slot := by
  unfold SlotCovers
  rw [covers_patterns_iff]
  constructor
  · rintro ⟨p, hp, hcovers⟩
    obtain ⟨hsegment, ⟨hrest, hkept, -⟩ | ⟨q, hq, -, hcovers⟩⟩ :=
      covers_of_mem_slotListing hpart hp hcovers
    · exact ⟨hsegment, .inl ⟨hrest, hkept⟩⟩
    · exact ⟨hsegment, .inr ⟨q, hq, hcovers⟩⟩
  · rintro ⟨hsegment, ⟨rfl, hkept⟩ | ⟨q, hq, hcovers⟩⟩
    · refine ⟨[part], mem_slotListing_iff.mpr (.inl ⟨hkept, rfl⟩), ?_⟩
      rw [Pattern.covers_cons hpart, hsegment]
      rfl
    · refine ⟨part :: q, mem_slotListing_iff.mpr (.inr ⟨q, hq, rfl⟩), ?_⟩
      rw [Pattern.covers_cons hpart, hsegment, hcovers]
      rfl

/-- A listing covers a path if and only if the shape shows a slot that covers the first segment and
from where the listing covers the rest. -/
theorem covers_cons_iff (hS : S.Valid) {segment : String} {rest : List String} :
    (S.patterns w (b + 1) s).covers (segment :: rest) = true ↔
      S.Shows (fun t => ∃ q ∈ t.slots, q.1.covers segment = true ∧ S.SlotCovers w b rest q.2)
        s := by
  rw [covers_patterns_iff]
  simp only [mem_listing_succ_iff hS]
  unfold Shows
  by_cases hany : S.Branch s .any
  · have hrest : Pattern.covers [.rest] (segment :: rest) = true := rfl
    exact iff_of_true ⟨[.rest], .inl ⟨hany, rfl⟩, hrest⟩ (.inl hany)
  · simp only [hany, false_and, false_or, not_false_iff, true_and]
    constructor
    · rintro ⟨p, ⟨hunknown, t, ht, q, hq, hp⟩, hcovers⟩
      have hpart := Shape.ne_rest_of_mem_slots hq
      exact ⟨hunknown, t, ht, q, hq, (exists_mem_slotListing_iff hpart).mp ⟨p, hp, hcovers⟩⟩
    · rintro ⟨hunknown, t, ht, q, hq, h⟩
      have hpart := Shape.ne_rest_of_mem_slots hq
      obtain ⟨p, hp, hcovers⟩ := (exists_mem_slotListing_iff hpart).mpr h
      exact ⟨p, ⟨hunknown, t, ht, q, hq, hp⟩, hcovers⟩

/-- A listing over one level or more covers a segment if and only if the shape shows a slot that is
listed and covers it. -/
theorem covers_singleton_iff (hS : S.Valid) (hb : 0 < b) {segment : String} :
    (S.patterns w b s).covers [segment] = true ↔ S.Shows (Shape.Lists w segment) s := by
  obtain ⟨b, rfl⟩ : ∃ k, b = k + 1 := ⟨b - 1, by omega⟩
  refine (covers_cons_iff hS).trans (shows_congr fun t => ?_)
  simp [SlotCovers, not_covers_nil hS, Shape.Lists]

end Schema

end TypedPaths

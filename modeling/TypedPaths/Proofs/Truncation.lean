/-
TypedPaths/Proofs/Truncation.lean

Where a listing is cut off.

Design.  A listing that runs out of levels ends with the part that covers everything below, wherever
the kind of the shape does not rule out that something is there.  Whether something is there is a
question about the slots of the shape, and the kind does not always know: a nullable text, a struct
without fields and a list of no positions have kinds that can be traversed, and nothing below them.

So a pattern that is cut off is taken apart here.  In front of its end it leads, slot by slot, to
places (`Schema.LeadsTo`), and what a listing over more levels has in its stead is what it lists
below these places (`mem_listing_append_iff`).  If it lists anything there, it covers a path that the
pattern covers as well; else all these places are bare (`Schema.Bare`).

Main results: `mem_listing_append_iff`, `cut_off_continues_or_bare`, `cut_off_at_nullable_text`.
-/
import TypedPaths.Proofs.Acceptance
import TypedPaths.Proofs.Depth

namespace TypedPaths

namespace Schema

open Shape

variable {S : Schema} {w : Bool} {b : Nat} {p q : Pattern} {s t : Shape}

/-! ### Places -/

/-- The pattern leads from one shape to another along slots that are listed. -/
inductive LeadsTo (S : Schema) : Pattern → Shape → Shape → Prop
  | here {s : Shape} : LeadsTo S [] s s
  | slot {part : PatternPart} {parts : Pattern} {slot : Slot} {s t u : Shape} :
      ¬ S.Branch s .any → ¬ S.Branch s .unknown → S.Branch s t → (part, slot) ∈ t.slots →
      LeadsTo S parts slot.shape u → LeadsTo S (part :: parts) s u

/-- A pattern is as long as the levels that it goes down, and one part longer where it is cut off. -/
theorem length_le_of_mem_listing (hS : S.Valid) (hp : p ∈ S.listing w b s) : p.length ≤ b + 1 := by
  induction b generalizing p s with
  | zero =>
    rw [listing] at hp
    split at hp
    · cases hp
    · rw [List.mem_singleton.mp hp]
      exact Nat.le_refl 1
  | succ b ih =>
    rcases (mem_listing_succ_iff hS).mp hp with ⟨-, rfl⟩ | ⟨-, -, t, -, q, -, hp⟩
    · simp
    · rcases mem_slotListing_iff.mp hp with ⟨-, rfl⟩ | ⟨parts, hparts, rfl⟩
      · simp
      · exact Nat.succ_le_succ (ih hparts)

/-- What is listed behind a pattern is what is listed below the places that it leads to. -/
theorem mem_listing_append_iff (hS : S.Valid) (hp : p ≠ []) :
    q ++ p ∈ S.listing w (q.length + b) s ↔ ∃ t, S.LeadsTo q s t ∧ p ∈ S.listing w b t := by
  induction q generalizing s with
  | nil =>
    rw [List.nil_append, List.length_nil, Nat.zero_add]
    constructor
    · intro h
      exact ⟨s, .here, h⟩
    · rintro ⟨t, hlead, h⟩
      cases hlead
      exact h
  | cons part parts ih =>
    have hlength : (part :: parts).length + b = (parts.length + b) + 1 := by
      rw [List.length_cons]
      omega
    have hne : parts ++ p ≠ [] := fun h => hp (List.append_eq_nil_iff.mp h).2
    rw [hlength, List.cons_append, mem_listing_succ_iff hS,
      or_iff_right fun h => hne (List.cons.inj h.2).2]
    constructor
    · rintro ⟨hany, hunknown, t, ht, ⟨part', slot⟩, hslot, h⟩
      rcases mem_slotListing_iff.mp h with ⟨-, h⟩ | ⟨r, hr, h⟩
      · exact absurd (List.cons.inj h).2 hne
      · obtain ⟨rfl, rfl⟩ := List.cons.inj h
        obtain ⟨u, hlead, hu⟩ := ih.mp hr
        exact ⟨u, .slot hany hunknown ht hslot hlead, hu⟩
    · rintro ⟨u, hlead, hu⟩
      cases hlead with
      | @slot _ _ slot _ t _ hany hunknown ht hslot hlead =>
        refine ⟨hany, hunknown, t, ht, (part, slot), hslot, mem_slotListing_iff.mpr (.inr ?_)⟩
        exact ⟨parts ++ p, ih.mpr ⟨u, hlead, hu⟩, rfl⟩

/-- With a level left, a listing is cut off at `any` alone. -/
theorem branch_any_of_rest (hS : S.Valid) (h : [.rest] ∈ S.listing w (b + 1) s) :
    S.Branch s .any := by
  rcases (mem_listing_succ_iff hS).mp h with ⟨hany, -⟩ | ⟨-, -, t, -, q, hq, h⟩
  · exact hany
  · -- the part of a slot covers a single segment
    rcases mem_slotListing_iff.mp h with ⟨-, h⟩ | ⟨r, -, h⟩
    · exact absurd (List.cons.inj h).1.symm (ne_rest_of_mem_slots hq)
    · exact absurd (List.cons.inj h).1.symm (ne_rest_of_mem_slots hq)

/-- Where a listing is cut off, the kind of the shape does not rule out that it goes on. -/
theorem not_isTerminal_of_rest (hS : S.Valid) (h : [.rest] ∈ S.listing w b s) :
    (S.kind s).isTerminal = false := by
  cases b with
  | zero =>
    rw [listing] at h
    split at h
    · cases h
    · next hterminal => exact Bool.eq_false_iff.mpr hterminal
  | succ b =>
    rw [(kind_eq_any_iff hS).mpr (branch_any_of_rest hS h)]
    rfl

/-! ### What is below a place -/

/-- The shape shows no slot that is listed itself. -/
def Bare (S : Schema) (w : Bool) (s : Shape) : Prop :=
  ¬ S.Shows (fun t => ∃ q ∈ t.slots, (w && q.2.readonly) = false) s

/-- Where a listing over one level or more holds nothing, the place is bare. -/
theorem bare_of_listing (hS : S.Valid) (h : S.listing w (b + 1) s = []) : S.Bare w s := by
  have hnone : ∀ p, p ∉ S.listing w (b + 1) s := List.eq_nil_iff_forall_not_mem.mp h
  simp only [mem_listing_succ_iff hS] at hnone
  intro hshows
  by_cases hany : S.Branch s .any
  · exact hnone [.rest] (.inl ⟨hany, rfl⟩)
  · obtain ⟨hunknown, t, ht, q, hq, hkept⟩ := hshows.resolve_left hany
    have hpart : [q.1] ∈ slotListing w (S.listing w b) q.1 q.2 :=
      mem_slotListing_iff.mpr (.inl ⟨hkept, rfl⟩)
    exact hnone [q.1] (.inr ⟨hany, hunknown, t, ht, q, hq, hpart⟩)

/-! ### Paths below a place -/

/-- The samples of a listed pattern with two parts or more are the segments of a path. -/
theorem segments_samples (hS : S.Valid) (hq : q ≠ []) (hp : p ≠ [])
    (h : q ++ p ∈ S.listing w b s) :
    Path.segments (Path.join ((q ++ p).map PatternPart.sample)) =
      (q ++ p).map PatternPart.sample := by
  apply Path.segments_join
  · intro text htext
    obtain ⟨part, hpart, rfl⟩ := List.mem_map.mp htext
    exact isSegment_sample hS h part hpart
  · -- there are two segments, so the text is not empty
    obtain ⟨part, q, rfl⟩ := List.exists_cons_of_ne_nil hq
    obtain ⟨other, p, rfl⟩ := List.exists_cons_of_ne_nil hp
    intro htexts
    simpa using congrArg List.length htexts

/-- If a listing goes on where a shorter one is cut off, it covers a path that the pattern which is
cut off covers as well. -/
theorem exists_path_of_mem (hS : S.Valid) {d : Nat} (hcut : q ++ [.rest] ∈ S.listing w (b + 1) s)
    (hp : p ≠ []) (hmem : q ++ p ∈ S.listing w (d + 1) s) (hindices : (q ++ p).HasIndices) :
    ∃ path, Pattern.covers (q ++ [.rest]) (Path.segments path) = true ∧
      (S.patterns w (d + 1) s).contains path = true := by
  unfold PatternSet.contains
  simp only [covers_patterns_iff]
  by_cases hq : q = []
  · -- the shape is cut off at its top, so it stands for everything
    subst hq
    have hany : S.Branch s .any := branch_any_of_rest hS hcut
    have hlisted : [.rest] ∈ S.listing w (d + 1) s := (mem_listing_succ_iff hS).mpr (.inl ⟨hany, rfl⟩)
    exact ⟨"0", by decide, [.rest], hlisted, by decide⟩
  · have hprefix : q.HasIndices := fun n hn => hindices n (List.mem_append_left _ hn)
    refine ⟨Path.join ((q ++ p).map PatternPart.sample), ?_, q ++ p, hmem, ?_⟩
    · rw [segments_samples hS hq hp hmem, List.map_append]
      apply Pattern.covers_samples hprefix
      obtain ⟨part, p, rfl⟩ := List.exists_cons_of_ne_nil hp
      rfl
    · rw [segments_samples hS hq hp hmem]
      have hnil : Pattern.covers [] [] = true := rfl
      simpa using Pattern.covers_samples hindices hnil

/-! ### Patterns that are cut off -/

/-- A pattern that is cut off leads to a place of a kind that can be traversed.  Over more levels,
either a path is covered that goes on from there, or nothing is listed behind the pattern, and all
the places that it leads to are bare. -/
theorem cut_off_continues_or_bare (hS : S.Valid) {options : ListingOptions} {set : PatternSet}
    (hset : S.paths options = .ok set) (hq : q ++ [.rest] ∈ set) :
    (∃ t, S.LeadsTo q S.root t ∧ (S.kind t).isTerminal = false) ∧
    ∀ d full, options.depth < d → S.paths { options with depth := d } = .ok full →
      (∀ p ∈ full, p.HasIndices) →
      (∃ path, Pattern.covers (q ++ [.rest]) (Path.segments path) = true ∧ full.contains path = true) ∨
      (∀ p, p ≠ [] → q ++ p ∉ full) ∧
        ∀ t, S.LeadsTo q S.root t → S.Bare options.writableOnly t := by
  have hdepth := depth_pos_of_paths hset
  obtain rfl := paths_eq_ok hset
  have hcut := mem_patterns.mp hq
  have hlength : q.length ≤ options.depth := by
    have hle := length_le_of_mem_listing hS hcut
    rw [List.length_append, List.length_singleton] at hle
    omega
  obtain ⟨b, hb⟩ : ∃ b, options.depth = q.length + b := ⟨_, (Nat.add_sub_of_le hlength).symm⟩
  constructor
  · rw [hb] at hcut
    obtain ⟨t, hlead, ht⟩ := (mem_listing_append_iff hS (List.cons_ne_nil _ _)).mp hcut
    exact ⟨t, hlead, not_isTerminal_of_rest hS ht⟩
  intro d full hd hfull hindices
  obtain rfl := paths_eq_ok hfull
  by_cases hgoes : ∃ p, p ≠ [] ∧ q ++ p ∈ S.patterns options.writableOnly d S.root
  · left
    obtain ⟨p, hp, hmem⟩ := hgoes
    obtain ⟨k, hk⟩ : ∃ k, options.depth = k + 1 := ⟨options.depth - 1, by omega⟩
    obtain ⟨n, rfl⟩ : ∃ n, d = n + 1 := ⟨d - 1, by omega⟩
    rw [hk] at hcut
    exact exists_path_of_mem hS hcut hp (mem_patterns.mp hmem) (hindices _ hmem)
  · right
    have hnone : ∀ p, p ≠ [] → q ++ p ∉ S.patterns options.writableOnly d S.root :=
      fun p hp hmem => hgoes ⟨p, hp, hmem⟩
    refine ⟨hnone, fun t hlead => ?_⟩
    obtain ⟨n, rfl⟩ : ∃ n, d = q.length + (n + 1) := ⟨d - q.length - 1, by omega⟩
    apply bare_of_listing hS (b := n)
    rw [List.eq_nil_iff_forall_not_mem]
    intro p hp
    have hne : p ≠ [] := ne_nil_of_mem_listing hS hp
    exact hnone p hne (mem_patterns.mpr ((mem_listing_append_iff hS hne).mpr ⟨t, hlead, hp⟩))

theorem cut_off_partner :
    persons.Valid ∧
    persons.paths { depth := 1 } =
      .ok (.ofList [[.key "name"], [.key "partner"], [.key "partner", .rest]]) ∧
    ∃ full, persons.paths { depth := 2 } = .ok full ∧ (∀ p ∈ full, p.HasIndices) ∧
      ∃ path, Pattern.covers [.key "partner", .rest] (Path.segments path) = true ∧
        full.contains path = true := by
  have hvalid : persons.Valid := by decide +kernel
  have hone : persons.paths { depth := 1 } =
      .ok (.ofList [[.key "name"], [.key "partner"], [.key "partner", .rest]]) := by decide +kernel
  have htwo : persons.paths { depth := 2 } =
      .ok (.ofList [[.key "name"], [.key "partner"], [.key "partner", .key "name"],
        [.key "partner", .key "partner"], [.key "partner", .key "partner", .rest]]) := by
    decide +kernel
  have hcut : [.key "partner"] ++ [.rest] ∈
      SortedSet.ofList [[PatternPart.key "name"], [.key "partner"], [.key "partner", .rest]] :=
    SortedSet.mem_ofList.mpr (by simp)
  have hname : [.key "partner"] ++ [.key "name"] ∈
      SortedSet.ofList [[PatternPart.key "name"], [.key "partner"], [.key "partner", .key "name"],
        [.key "partner", .key "partner"], [.key "partner", .key "partner", .rest]] :=
    SortedSet.mem_ofList.mpr (by simp)
  have hindices : ∀ p ∈ SortedSet.ofList [[PatternPart.key "name"], [.key "partner"],
      [.key "partner", .key "name"], [.key "partner", .key "partner"],
      [.key "partner", .key "partner", .rest]], Pattern.HasIndices p := by
    simp [SortedSet.mem_ofList, Pattern.HasIndices]
  have hgoes := (cut_off_continues_or_bare hvalid hone hcut).2 2 _ (by decide) htwo hindices
  refine ⟨hvalid, hone, _, htwo, hindices, hgoes.resolve_right ?_⟩
  rintro ⟨hnone, -⟩
  exact hnone [.key "name"] (List.cons_ne_nil _ _) hname

/-- Objects with a name, which is a text or nothing. -/
def optionalName : Schema where
  root := .struct [⟨"name", .union [.primitive .string, .null], false, false, false⟩] none

/-- A listing is cut off at a nullable text, and nothing is listed below it over more levels. -/
theorem cut_off_at_nullable_text :
    optionalName.Valid ∧
    optionalName.paths { depth := 1 } = .ok (.ofList [[.key "name"], [.key "name", .rest]]) ∧
    optionalName.paths { depth := 2 } = .ok (.ofList [[.key "name"]]) ∧
    ¬ ∃ path, Pattern.covers [.key "name", .rest] (Path.segments path) = true ∧
      PatternSet.contains (.ofList [[.key "name"]]) path = true := by
  refine ⟨by decide, by decide +kernel, by decide +kernel, ?_⟩
  rintro ⟨path, hbelow, hcontains⟩
  obtain ⟨p, hp, hcovers⟩ := PatternSet.covers_ofList.mp hcontains
  obtain rfl := List.mem_singleton.mp hp
  -- what the one pattern covers has a single segment
  cases hsegments : Path.segments path with
  | nil =>
    rw [hsegments] at hcovers
    cases hcovers
  | cons segment rest =>
    rw [hsegments] at hbelow hcovers
    rw [Pattern.covers_cons (by simp), Bool.and_eq_true] at hbelow hcovers
    cases rest with
    | nil => cases hbelow.2
    | cons => cases hcovers.2

end Schema

end TypedPaths

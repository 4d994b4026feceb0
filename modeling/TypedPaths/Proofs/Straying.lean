/-
TypedPaths/Proofs/Straying.lean

Whether a path that is listed can be resolved.

Design.  A listing goes through all slots of a branch, whereas a segment stands for the first slot
that covers it.  Where a slot is behind a field of the same name, as an index signature or a second
field may be, what is listed below the slot is no place that the path leads to.  Such a pattern
strays from the slots that the segments stand for (`Schema.Strays`).

Along the slots that the segments stand for, a listing and the resolution of a path go down the
same branches with the same number of levels, and where the levels end the one covers everything
and the other knows nothing.  So a pattern that does not stray covers only paths that can be
resolved (`reaches_or_strays`).

Main results: `Strays.names`, `covered_resolves_or_strays`, `not_resolves_of_hidden_slot`.
-/
import TypedPaths.Proofs.Listing
import TypedPaths.Proofs.Resolution
import TypedPaths.Proofs.Slot

namespace TypedPaths.Schema

open Shape

variable {S : Schema} {w : Bool} {b : Nat} {p : Pattern} {segments : List String} {s : Shape}

/-! ### Patterns that stray -/

/-- Along the slots that the segments stand for, the pattern comes to a slot that covers the next
segment without being the one that the segment stands for, and goes on below it. -/
inductive Strays (S : Schema) (w : Bool) : Budget → Pattern → List String → Shape → Prop
  | behind {b : Budget} {part : PatternPart} {parts : Pattern} {segment : String}
      {rest : List String} {s t : Shape} {slot : Slot} :
      S.Branch s t → (part, slot) ∈ t.slots → part.covers segment = true →
      t.slot? segment ≠ some slot → parts ∈ S.listing w b slot.shape →
      Strays S w (b + 1) (part :: parts) (segment :: rest) s
  | along {b : Budget} {part : PatternPart} {parts : Pattern} {segment : String}
      {rest : List String} {s t : Shape} {slot : Slot} :
      S.Branch s t → (part, slot) ∈ t.slots → t.slot? segment = some slot →
      Strays S w b parts rest slot.shape →
      Strays S w (b + 1) (part :: parts) (segment :: rest) s

/-- A pattern strays only where a field is in front of another slot that covers its name. -/
theorem Strays.names (h : S.Strays w b p segments s) :
    ∃ (t : Shape) (fs : List (Field Shape)) (i : Option (IndexSignature Shape)),
      t.objectParts? = some (fs, i) ∧ ∃ f ∈ fs, ∃ segment ∈ segments, f.Names segment ∧
        ∃ q ∈ t.slots, q.1.covers segment = true ∧ t.slot? segment ≠ some q.2 := by
  induction h with
  | @behind b part parts segment rest s t slot ht hslot hcovers hne hparts =>
    obtain ⟨fs, i, hobject, f, hf, hname⟩ := names_of_slot?_ne hslot hcovers hne
    exact ⟨t, fs, i, hobject, f, hf, segment, List.mem_cons_self, hname, _, hslot, hcovers, hne⟩
  | along _ _ _ _ ih =>
    obtain ⟨t, fs, i, hobject, f, hf, segment, hsegment, h⟩ := ih
    exact ⟨t, fs, i, hobject, f, hf, segment, List.mem_cons_of_mem _ hsegment, h⟩

/-! ### Patterns that do not stray -/

/-- Nothing is listed below the end of a pattern. -/
theorem not_strays_singleton (hS : S.Valid) {part : PatternPart} :
    ¬ S.Strays w b [part] segments s := by
  intro h
  cases h with
  | behind _ _ _ _ hparts => exact ne_nil_of_mem_listing hS hparts rfl
  | along _ _ _ h => cases h

theorem not_strays_cons {part : PatternPart} {parts : Pattern} {segment : String}
    {rest : List String}
    (hkept : ∀ t, S.Branch s t → ∀ slot, (part, slot) ∈ t.slots →
      t.slot? segment = some slot ∧ ¬ S.Strays w b parts rest slot.shape) :
    ¬ S.Strays w (b + 1) (part :: parts) (segment :: rest) s := by
  intro h
  cases h with
  | behind ht hslot _ hne _ => exact hne (hkept _ ht _ hslot).1
  | along ht hslot _ h => exact (hkept _ ht _ hslot).2 h

/-- A path that a pattern of a listing covers can be resolved over the levels of the listing, unless
the pattern strays. -/
theorem reaches_or_strays (hS : S.Valid) (marks : AbsenceMarks) (hp : p ∈ S.listing w b s)
    (hcovers : p.covers segments = true) :
    S.Reaches marks b segments (fun _ => True) s ∨ S.Strays w b p segments s := by
  induction segments generalizing b p s with
  | nil => exact .inl (reaches_nil.mpr trivial)
  | cons segment rest ih =>
    cases b with
    | zero => exact .inl (reaches_zero trivial)
    | succ b =>
      rw [reaches_cons hS distributive_true]
      rcases (mem_listing_succ_iff hS).mp hp with ⟨hany, rfl⟩ | ⟨-, -, t, ht, q, hq, hp⟩
      · exact .inl ⟨.any, hany, .inl rfl⟩
      obtain ⟨hsegment, ⟨rfl, -⟩ | ⟨parts, hparts, rfl, hrest⟩⟩ :=
        covers_of_mem_slotListing (ne_rest_of_mem_slots hq) hp hcovers
      · -- the slot is the end of the pattern, so its segment is the last one
        obtain ⟨slot, hslot⟩ := exists_slot?_of_covers hq hsegment
        exact .inl ⟨t, ht, .inr (.inr ⟨slot, hslot, reaches_nil.mpr trivial⟩)⟩
      · by_cases hslot : t.slot? segment = some q.2
        · rcases ih hparts hrest with h | h
          · exact .inl ⟨t, ht, .inr (.inr ⟨q.2, hslot, h⟩)⟩
          · exact .inr (.along ht hq hslot h)
        · exact .inr (.behind ht hq hsegment hslot hparts)

/-- The listing of the root, if it is asked for with one level or more. -/
theorem paths_eq_ok {options : ListingOptions} {set : PatternSet}
    (h : S.paths options = .ok set) :
    set = S.patterns options.writableOnly options.depth S.root := by
  unfold paths at h
  cases hvalidate : options.validate with
  | error e =>
    rw [hvalidate] at h
    cases h
  | ok =>
    rw [hvalidate] at h
    exact (Except.ok.inj h).symm

theorem depth_pos_of_paths {options : ListingOptions} {set : PatternSet}
    (h : S.paths options = .ok set) : 0 < options.depth := by
  by_contra hdepth
  unfold paths ListingOptions.validate at h
  rw [if_pos (by omega)] at h
  cases h

/-- A path that a pattern of the paths of a schema covers can be resolved over as many levels,
whatever is marked, unless the pattern strays. -/
theorem covered_resolves_or_strays (hS : S.Valid) {options : ListingOptions} {set : PatternSet}
    (hset : S.paths options = .ok set) {path : String} (hp : p ∈ set)
    (hcovers : p.covers (Path.segments path) = true) :
    (∀ marks, ∃ t, S.shapeBelow marks options.depth S.root path = .ok t) ∨
      S.Strays options.writableOnly options.depth p (Path.segments path) S.root := by
  obtain rfl := paths_eq_ok hset
  have hlisted : p ∈ S.listing options.writableOnly options.depth S.root := mem_patterns.mp hp
  by_cases hstrays : S.Strays options.writableOnly options.depth p (Path.segments path) S.root
  · exact .inr hstrays
  · left
    intro marks
    have hreaches := (reaches_or_strays hS marks hlisted hcovers).resolve_right hstrays
    obtain ⟨t, ht⟩ := reaches_true.mp hreaches
    exact ⟨t, shapeBelow_eq_ok.mpr ht⟩

/-- Objects with a number, and under any other key a number or a text in an object. -/
def numberedTexts : Schema where
  root := .struct [⟨"id", .primitive .number, false, false, false⟩]
    (some ⟨[.string], .union [.primitive .number,
      .struct [⟨"text", .primitive .string, false, false, false⟩] none], false⟩)

theorem covered_resolves_title_text :
    numberedTexts.Valid ∧
    numberedTexts.paths {} = .ok (.ofList [[.key "id"], [.anyKey], [.anyKey, .key "text"]]) ∧
    Pattern.covers [.anyKey, .key "text"] (Path.segments "title.text") = true ∧
    ∀ marks, ∃ t, numberedTexts.shapeBelow marks 3 numberedTexts.root "title.text" = .ok t := by
  have hvalid : numberedTexts.Valid := by decide
  have hpaths : numberedTexts.paths {} =
      .ok (.ofList [[.key "id"], [.anyKey], [.anyKey, .key "text"]]) := by decide +kernel
  have hsegments : Path.segments "title.text" = ["title", "text"] := by decide
  have hcovers : Pattern.covers [.anyKey, .key "text"] (Path.segments "title.text") = true := by
    decide
  have hmem : [.anyKey, .key "text"] ∈
      SortedSet.ofList [[PatternPart.key "id"], [.anyKey], [.anyKey, .key "text"]] :=
    SortedSet.mem_ofList.mpr (by simp)
  refine ⟨hvalid, hpaths, hcovers,
    (covered_resolves_or_strays hvalid hpaths hmem hcovers).resolve_right ?_⟩
  rw [hsegments]
  apply not_strays_cons
  intro t ht slot hslot
  obtain rfl := (branch_concrete_iff (s := numberedTexts.root) trivial).mp ht
  -- no field of that name is in front of the index signature, and the pattern ends below it
  have hslot : slot = ⟨.union [.primitive .number,
      .struct [⟨"text", .primitive .string, false, false, false⟩] none], false, .unchecked⟩ := by
    simpa [numberedTexts, Shape.slots, Field.slot, IndexSignature.slots,
      IndexSignature.acceptsStrings] using hslot
  subst hslot
  exact ⟨rfl, not_strays_singleton hvalid⟩

/-- A pattern of the index signature covers the name of a field as well, and the path leads to the
field, which has nothing below it. -/
theorem not_resolves_of_hidden_slot :
    numberedTexts.Valid ∧
    numberedTexts.paths {} = .ok (.ofList [[.key "id"], [.anyKey], [.anyKey, .key "text"]]) ∧
    PatternSet.contains (.ofList [[.key "id"], [.anyKey], [.anyKey, .key "text"]]) "id.text" =
      true ∧
    ∀ marks, numberedTexts.shapeBelow marks 3 numberedTexts.root "id.text" =
      .error (.invalidPath "id.text") := by
  refine ⟨by decide, by decide +kernel, by decide +kernel, ?_⟩
  rintro ⟨union, index, optional⟩
  cases union <;> cases index <;> cases optional <;> decide +kernel

end TypedPaths.Schema

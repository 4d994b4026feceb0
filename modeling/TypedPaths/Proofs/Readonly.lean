/-
TypedPaths/Proofs/Readonly.lean

Paths that can be assigned to.

Design.  A segment stands for one slot of a branch, and `Shape.Assigns` says that this slot is not
readonly.  The check looks for any slot that covers the segment instead, in a listing without the
readonly ones.  The two differ where a readonly field is in front of a slot that covers its name as
well, of a second field of that name or of an index signature: there the readonly field is shadowed
(`Shape.Shadows`), and the check lets the path pass.  Arrays and tuples are readonly as a whole, so
only the fields of objects can be shadowed (`Shadows.names`).

Main results: `checkWritable_eq_ok_iff`, `checkWritable_of_readonly`, `checkWritable_shadowed`.
-/
import TypedPaths.Proofs.Checking
import TypedPaths.Proofs.Slot

namespace TypedPaths

namespace Shape

/-- The segment stands for a slot that is not readonly. -/
def Assigns (segment : String) (s : Shape) : Prop :=
  ∃ slot, s.slot? segment = some slot ∧ slot.readonly = false

/-- The segment stands for a readonly slot, and another slot that covers it is not readonly. -/
def Shadows (segment : String) (s : Shape) : Prop :=
  ∃ slot, s.slot? segment = some slot ∧ slot.readonly = true ∧
    ∃ p ∈ s.slots, p.1.covers segment = true ∧ p.2.readonly = false

variable {s : Shape} {segment : String} {slot : Slot}

/-- A listing of what can be assigned to covers a segment that stands for a slot which is not
readonly, or for one that is shadowed. -/
theorem lists_true_iff : s.Lists true segment ↔ s.Assigns segment ∨ s.Shadows segment := by
  unfold Lists
  simp only [Bool.true_and]
  constructor
  · -- the slot that is listed need not be the one that the segment stands for
    rintro ⟨p, hp, hcovers, hwritable⟩
    obtain ⟨slot, hslot⟩ := lists_false_iff.mp ⟨p, hp, hcovers, rfl⟩
    cases hreadonly : slot.readonly with
    | false => exact .inl ⟨slot, hslot, hreadonly⟩
    | true => exact .inr ⟨slot, hslot, hreadonly, p, hp, hcovers, hwritable⟩
  · rintro (⟨slot, hslot, hwritable⟩ | ⟨slot, hslot, hreadonly, hshadow⟩)
    · obtain ⟨p, hp, hcovers, rfl⟩ := mem_slots_of_slot? hslot
      exact ⟨p, hp, hcovers, hwritable⟩
    · exact hshadow

/-- What can be assigned to is in every listing. -/
theorem Lists.of_true {w : Bool} (h : s.Lists true segment) : s.Lists w segment := by
  obtain ⟨p, hp, hcovers, hwritable⟩ := h
  refine ⟨p, hp, hcovers, ?_⟩
  rw [Bool.true_and] at hwritable
  rw [hwritable, Bool.and_false]

/-- Only a field of an object is shadowed. -/
theorem Shadows.names (h : s.Shadows segment) :
    ∃ fs i, s.objectParts? = some (fs, i) ∧ ∃ f ∈ fs, f.Names segment ∧ f.readonly = true := by
  obtain ⟨slot, hslot, hreadonly, p, hp, hcovers, hwritable⟩ := h
  have hne : s.slot? segment ≠ some p.2 := by
    intro hfirst
    obtain rfl := Option.some.inj (hslot.symm.trans hfirst)
    rw [hreadonly] at hwritable
    cases hwritable
  obtain ⟨fs, i, hs, hnamed⟩ := names_of_slot?_ne hp hcovers hne
  -- the slot in front is that of the first field of that name
  obtain ⟨f, hf, hname, hfield⟩ := slot?_of_named hs hnamed
  obtain rfl := Option.some.inj (hfield.symm.trans hslot)
  exact ⟨fs, i, hs, f, hf, hname, hreadonly⟩

end Shape

namespace Catalog

open Schema

variable {C : Catalog} {options : ListingOptions} {path segment : String} {head : List String}
  {s : Shape}

/-- The listing of what can be assigned to below a shape. -/
theorem covers_writable_iff {b : Nat} (hb : 0 < b) :
    (C.schema.patterns true b s).covers [segment] = true ↔
      C.schema.kind s = .any ∨ C.schema.kind s ≠ .unknown ∧
        ∃ t, C.schema.Branch s t ∧ (t.Assigns segment ∨ t.Shadows segment) := by
  rw [covers_singleton_iff C.valid hb, shows_iff_kind C.valid]
  simp only [Shape.lists_true_iff]

theorem covers_of_writable {w : Bool} {b : Nat} (hb : 0 < b)
    (h : (C.schema.patterns true b s).covers [segment] = true) :
    (C.schema.patterns w b s).covers [segment] = true := by
  rw [covers_singleton_iff C.valid hb] at h ⊢
  exact h.mono fun t ht => ht.of_true

theorem ne_empty_of_segments (hpath : Path.segments path = head ++ [segment]) : path ≠ "" := by
  intro hempty
  rw [Path.segments_eq_nil_iff.mpr hempty] at hpath
  simp at hpath

/-- Where the segments in front of the last one lead somewhere, a path that is allowed can be
assigned to if the listing there covers it without its readonly slots. -/
theorem checkWritable_of_some (hdepth : 0 < options.depth)
    (hpath : Path.segments path = head ++ [segment])
    (hs : C.schema.resolveParent head = some s) :
    C.checkWritable path options = (C.check path options).bind fun _ =>
      if (C.schema.patterns true options.depth s).covers [segment] then .ok ()
      else .error (.readonlyPath path) := by
  have hdepth' : 0 < options.writable.depth := hdepth
  obtain ⟨set, hset, hcontains⟩ := completions_covers hdepth' hpath hs
  rw [checkWritable_eq (ne_empty_of_segments hpath), hset]
  dsimp only [Except.bind]
  rw [hcontains]
  rfl

/-- A path can be assigned to if and only if a listing of what can be assigned to below its parent
covers the last segment. -/
theorem checkWritable_eq_ok_iff_covers (hdepth : 0 < options.depth)
    (hpath : Path.segments path = head ++ [segment]) :
    C.checkWritable path options = .ok () ↔ ∃ s, C.schema.resolveParent head = some s ∧
      (C.schema.patterns true options.depth s).covers [segment] = true := by
  cases hs : C.schema.resolveParent head with
  | none =>
    rw [checkWritable_eq (ne_empty_of_segments hpath), check_of_none hpath hs]
    exact ⟨fun h => (nomatch h), fun ⟨_, h, _⟩ => (nomatch h)⟩
  | some s =>
    -- the second check implies the first one
    have hcovers : C.checkWritable path options = .ok () ↔
        (C.schema.patterns true options.depth s).covers [segment] = true := by
      rw [checkWritable_of_some hdepth hpath hs, check_of_some hdepth hpath hs]
      constructor
      · intro h
        by_contra hnot
        rw [if_neg hnot] at h
        split at h <;> cases h
      · intro h
        rw [if_pos (covers_of_writable hdepth h), if_pos h]
        rfl
    simp [hcovers]

/-- A path can be assigned to if and only if its parent is of kind `any`, or a branch of the parent
has a slot for the last segment that is not readonly or is shadowed. -/
theorem checkWritable_eq_ok_iff (hdepth : 0 < options.depth)
    (hpath : Path.segments path = head ++ [segment]) :
    C.checkWritable path options = .ok () ↔ ∃ s, C.schema.resolveParent head = some s ∧
      (C.schema.kind s = .any ∨ C.schema.kind s ≠ .unknown ∧
        ∃ t, C.schema.Branch s t ∧ (t.Assigns segment ∨ t.Shadows segment)) := by
  rw [checkWritable_eq_ok_iff_covers hdepth hpath]
  simp only [covers_writable_iff hdepth]

section

variable (hslots : ∀ t, C.schema.Branch s t → ∃ slot, t.slot? segment = some slot)

include hslots

/-- Where every branch has a slot for a segment, no branch stands for everything. -/
theorem kind_ne_of_slots : C.schema.kind s ≠ .any ∧ C.schema.kind s ≠ .unknown := by
  constructor
  · intro hk
    obtain ⟨slot, hslot⟩ := hslots _ ((kind_eq_any_iff C.valid).mp hk)
    cases hslot
  · intro hk
    obtain ⟨slot, hslot⟩ := hslots _ ((kind_eq_unknown_iff C.valid).mp hk).2
    cases hslot

theorem covers_of_slots {b : Nat} (hb : 0 < b) (hbranch : ∃ t, C.schema.Branch s t) :
    (C.schema.patterns false b s).covers [segment] = true := by
  obtain ⟨t, ht⟩ := hbranch
  obtain ⟨slot, hslot⟩ := hslots t ht
  rw [covers_iff_below C.valid hb]
  exact ⟨⟨t, ht, .inr (.inr ⟨slot, hslot, trivial⟩)⟩, (kind_ne_of_slots hslots).2⟩

end

/-- A segment that every branch has in a readonly slot, which is not shadowed, is rejected.  Where
the listing asked for leaves readonly slots out itself, the path is not even allowed. -/
theorem checkWritable_of_readonly (hdepth : 0 < options.depth)
    (hpath : Path.segments path = head ++ [segment])
    (hs : C.schema.resolveParent head = some s) (hbranch : ∃ t, C.schema.Branch s t)
    (hreadonly : ∀ t, C.schema.Branch s t →
      (∃ slot, t.slot? segment = some slot ∧ slot.readonly = true) ∧ ¬ t.Shadows segment) :
    C.checkWritable path options =
      .error (if options.writableOnly then .invalidPath path else .readonlyPath path) := by
  have hslots : ∀ t, C.schema.Branch s t → ∃ slot, t.slot? segment = some slot := by
    intro t ht
    obtain ⟨⟨slot, hslot, -⟩, -⟩ := hreadonly t ht
    exact ⟨slot, hslot⟩
  have hwritable : ¬ (C.schema.patterns true options.depth s).covers [segment] = true := by
    rw [covers_writable_iff hdepth, or_iff_right (kind_ne_of_slots hslots).1]
    rintro ⟨-, t, ht, ⟨slot, hslot, hfalse⟩ | hshadows⟩
    · obtain ⟨⟨slot', hslot', htrue⟩, -⟩ := hreadonly t ht
      obtain rfl := Option.some.inj (hslot.symm.trans hslot')
      rw [htrue] at hfalse
      cases hfalse
    · exact (hreadonly t ht).2 hshadows
  rw [checkWritable_of_some hdepth hpath hs, check_of_some hdepth hpath hs]
  cases options.writableOnly with
  | true =>
    -- the first check is made against the same listing
    rw [if_neg hwritable]
    rfl
  | false =>
    rw [if_pos (covers_of_slots hslots hdepth hbranch)]
    dsimp only [Except.bind]
    rw [if_neg hwritable]
    rfl

/-- Readonly slots are protected, but for those that are shadowed. -/
theorem checkWritable_protects (hdepth : 0 < options.depth)
    (hpath : Path.segments path = head ++ [segment]) :
    (C.checkWritable path options = .ok () ↔ ∃ s, C.schema.resolveParent head = some s ∧
      (C.schema.kind s = .any ∨ C.schema.kind s ≠ .unknown ∧
        ∃ t, C.schema.Branch s t ∧ (t.Assigns segment ∨ t.Shadows segment))) ∧
    ∀ s, C.schema.resolveParent head = some s → (∃ t, C.schema.Branch s t) →
      (∀ t, C.schema.Branch s t →
        (∃ slot, t.slot? segment = some slot ∧ slot.readonly = true) ∧ ¬ t.Shadows segment) →
      C.checkWritable path options =
        .error (if options.writableOnly then .invalidPath path else .readonlyPath path) :=
  ⟨checkWritable_eq_ok_iff hdepth hpath,
    fun _ hs hbranch hreadonly => checkWritable_of_readonly hdepth hpath hs hbranch hreadonly⟩

/-- Objects with a readonly number and a name. -/
def badge : Catalog where
  schema := {
    root := .struct [⟨"id", .primitive .number, false, true, false⟩,
      ⟨"name", .primitive .string, false, false, false⟩] none }
  valid := by decide

theorem checkWritable_badge :
    badge.checkWritable "name" {} = .ok () ∧
    badge.checkWritable "id" {} = .error (.readonlyPath "id") := by
  have hname : Path.segments "name" = [] ++ ["name"] := by decide
  have hid : Path.segments "id" = [] ++ ["id"] := by decide
  have hroot : badge.schema.resolveParent [] = some badge.schema.root := rfl
  have hconcrete : badge.schema.root.IsConcrete := trivial
  have hkind : badge.schema.kind badge.schema.root ≠ .any ∧
      badge.schema.kind badge.schema.root ≠ .unknown := by decide
  constructor
  · refine (checkWritable_protects (by decide) hname).1.mpr ⟨_, hroot, .inr ⟨hkind.2, _,
      .concrete hconcrete, .inl ⟨⟨.primitive .string, false, .certain⟩, rfl, rfl⟩⟩⟩
  · refine (checkWritable_protects (by decide) hid).2 _ hroot ⟨_, .concrete hconcrete⟩ ?_
    intro t ht
    rw [(branch_concrete_iff hconcrete).mp ht]
    refine ⟨⟨⟨.primitive .number, true, .certain⟩, rfl, rfl⟩, ?_⟩
    rintro ⟨-, -, -, p, hp, hcovers, hwritable⟩
    rcases List.mem_cons.mp hp with rfl | hp
    · cases hwritable
    · rw [List.mem_singleton.mp hp] at hcovers
      exact absurd hcovers (by decide)

/-- Objects with a readonly number and further numbers under any key. -/
def numbersById : Catalog where
  schema := {
    root := .struct [⟨"id", .primitive .number, false, true, false⟩]
      (some ⟨[.string], .primitive .number, false⟩) }
  valid := by decide

/-- A readonly field can be assigned to if an index signature accepts its name. -/
theorem checkWritable_shadowed :
    numbersById.checkWritable "id" {} = .ok () ∧
    numbersById.schema.resolveParent [] = some numbersById.schema.root ∧
    numbersById.schema.kind numbersById.schema.root ≠ .any ∧
    ∀ t, numbersById.schema.Branch numbersById.schema.root t →
      ∃ slot, t.slot? "id" = some slot ∧ slot.readonly = true := by
  refine ⟨by decide +kernel, rfl, by decide, fun t ht => ?_⟩
  have hconcrete : numbersById.schema.root.IsConcrete := trivial
  rw [(branch_concrete_iff hconcrete).mp ht]
  exact ⟨⟨.primitive .number, true, .certain⟩, rfl, rfl⟩

end Catalog

end TypedPaths

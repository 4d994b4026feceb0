/-
TypedPaths/Proofs/Slot.lean

The slot that a segment stands for, form by form.

Design.  A segment stands for the first slot that covers it.  In a list or an object this is
one of few: the items of an array, the position of a tuple, the first field of that name, or the
index signature if no field has it.  `Shape.objectParts?` shows a record as a struct without
fields, so that objects need one lemma for each of the last two.

Several slots may cover one segment.  Of those, the ones that the segment does not stand for are
behind a field of that name (`names_of_slot?_ne`).

Main results: `slot?_array`, `slot?_tuple`, `slot?_of_named`, `slot?_of_not_named`,
`names_of_slot?_ne`.
-/
import TypedPaths.Proofs.Sameness
import TypedPaths.Proofs.Segment

namespace TypedPaths

/-! ### Keys of objects -/

/-- A segment with this text names the field. -/
def Field.Names (field : Field Shape) (key : String) : Prop :=
  field.isAddressable = true ∧ field.name = key

/-- Whether the index signature accepts the key. -/
def IndexSignature.accepts (index : IndexSignature Shape) (key : String) : Bool :=
  index.acceptsStrings || index.acceptsNumbers && (Path.index? key).isSome

/-- The slot of the keys of an index signature. -/
def IndexSignature.slot (index : IndexSignature Shape) : Slot :=
  ⟨index.value, index.readonly, .unchecked⟩

namespace Shape

/-- The fields and the index signature of a shape of objects. -/
def objectParts? : Shape → Option (List (Field Shape) × Option (IndexSignature Shape))
  | record i => some ([], some i)
  | struct fs i => some (fs, i)
  | _ => none

variable {s t : Shape} {fs : List (Field Shape)} {i : Option (IndexSignature Shape)}
  {segment : String}

/-- Shapes that are the same have the same parts, up to sameness. -/
theorem Same.objectParts? (h : s.Same t) (hs : s.objectParts? = some (fs, i)) :
    ∃ gs j, t.objectParts? = some (gs, j) ∧ List.Forall₂ Field.Same fs gs ∧
      Option.Rel IndexSignature.Same i j := by
  cases s with
  | record k =>
    obtain ⟨l, rfl, hkl⟩ := same_record h
    obtain ⟨rfl, rfl⟩ := Prod.mk.inj (Option.some.inj hs)
    exact ⟨[], some l, rfl, .nil, .some hkl⟩
  | struct gs k =>
    obtain ⟨hs', j, rfl, hfields, hindex⟩ := same_struct h
    obtain ⟨rfl, rfl⟩ := Prod.mk.inj (Option.some.inj hs)
    exact ⟨hs', j, rfl, hfields, hindex⟩
  | _ => cases hs

/-- The slots of an object are those of its fields, and then those of its index signature. -/
theorem slots_of_objectParts? (h : s.objectParts? = some (fs, i)) :
    s.slots = (fs.filter Field.isAddressable).map Field.slot ++
      i.elim [] IndexSignature.slots := by
  cases s with
  | record k =>
    obtain ⟨rfl, rfl⟩ := Prod.mk.inj (Option.some.inj h)
    rfl
  | struct gs k =>
    obtain ⟨rfl, rfl⟩ := Prod.mk.inj (Option.some.inj h)
    cases k <;> rfl
  | _ => cases h

theorem mem_indexSlots {j : IndexSignature Shape} {p : PatternPart × Slot} (h : p ∈ j.slots) :
    (p.1 = .anyKey ∨ p.1 = .anyIndex) ∧ p.2 = j.slot := by
  unfold IndexSignature.slots at h
  split at h
  · rw [List.mem_singleton.mp h]
    exact ⟨.inl rfl, rfl⟩
  · split at h
    · rw [List.mem_singleton.mp h]
      exact ⟨.inr rfl, rfl⟩
    · cases h

/-- Every slot of a shape of objects is that of a field or of the index signature. -/
theorem mem_slots_of_objectParts? (h : s.objectParts? = some (fs, i)) {p : PatternPart × Slot}
    (hp : p ∈ s.slots) :
    (∃ f ∈ fs, f.isAddressable = true ∧ p = f.slot) ∨ ∃ j, i = some j ∧ p ∈ j.slots := by
  rw [slots_of_objectParts? h] at hp
  rcases List.mem_append.mp hp with hp | hp
  · obtain ⟨f, hf, rfl⟩ := List.mem_map.mp hp
    obtain ⟨hf, haddressable⟩ := List.mem_filter.mp hf
    exact .inl ⟨f, hf, haddressable, rfl⟩
  · cases i with
    | none => cases hp
    | some j => exact .inr ⟨j, rfl, hp⟩

theorem isSegment_of_isAddressable {f : Field Shape} (h : f.isAddressable = true) :
    Path.IsSegment f.name := by
  intro hdot
  simp [Field.isAddressable, hdot] at h

/-- The part of a slot covers a single segment; if it is a key, the key can be one. -/
theorem part_of_mem_slots {p : PatternPart × Slot} (hp : p ∈ s.slots) :
    (∃ name, p.1 = .key name ∧ Path.IsSegment name) ∨ (∃ n, p.1 = .index n) ∨
      p.1 = .anyKey ∨ p.1 = .anyIndex := by
  have hobject : ∀ fs i, s.objectParts? = some (fs, i) →
      (∃ name, p.1 = .key name ∧ Path.IsSegment name) ∨ p.1 = .anyKey ∨ p.1 = .anyIndex := by
    intro fs i hs
    rcases mem_slots_of_objectParts? hs hp with ⟨f, -, haddressable, rfl⟩ | ⟨j, -, hj⟩
    · exact .inl ⟨f.name, rfl, isSegment_of_isAddressable haddressable⟩
    · exact .inr (mem_indexSlots hj).1
  cases s with
  | array s r =>
    rw [List.mem_singleton.mp hp]
    exact .inr (.inr (.inr rfl))
  | tuple ss r =>
    obtain ⟨⟨s, n⟩, -, rfl⟩ := List.mem_map.mp hp
    exact .inr (.inl ⟨n, rfl⟩)
  | record i => exact (hobject _ _ rfl).imp_right .inr
  | struct fs i => exact (hobject _ _ rfl).imp_right .inr
  | _ => cases hp

theorem ne_rest_of_mem_slots {p : PatternPart × Slot} (h : p ∈ s.slots) : p.1 ≠ .rest := by
  rcases part_of_mem_slots h with ⟨name, hp, -⟩ | ⟨n, hp⟩ | hp | hp <;> simp [hp]

/-! ### The slot of a segment -/

theorem mem_slots_of_slot? {slot : Slot} (h : s.slot? segment = some slot) :
    ∃ p ∈ s.slots, p.1.covers segment = true ∧ p.2 = slot := by
  unfold slot? at h
  obtain ⟨p, hp, rfl⟩ := Option.map_eq_some_iff.mp h
  have hcovers := List.find?_some hp
  exact ⟨p, List.mem_of_find?_eq_some hp, hcovers, rfl⟩

theorem slot?_array (s : Shape) (r : Bool) (segment : String) :
    (array s r).slot? segment = (Path.index? segment).map fun _ => ⟨s, r, .unchecked⟩ := by
  unfold slot? slots
  rw [List.find?_cons, List.find?_nil, PatternPart.covers]
  cases Path.index? segment <;> rfl

/-- In a numbered list, the entry with a given number is found where it stands. -/
theorem find?_zipIdx (ss : List Shape) (n k : Nat) :
    (ss.zipIdx k).find? (fun p => some n == some p.2) =
      if k ≤ n then ss[n - k]?.map fun s => (s, n) else none := by
  induction ss generalizing k with
  | nil => simp
  | cons s ss ih =>
    rw [List.zipIdx_cons, List.find?_cons]
    by_cases hkn : n = k
    · subst hkn
      simp
    · -- the numbers grow, so the entry stands further on or nowhere
      have hne : (some n == some k) = false := by simp [hkn]
      rw [hne, ih]
      by_cases hle : k ≤ n
      · have hsub : n - k = n - (k + 1) + 1 := by omega
        rw [if_pos (by omega), if_pos hle, hsub, List.getElem?_cons_succ]
      · rw [if_neg (by omega), if_neg hle]

theorem slot?_tuple (ss : List Shape) (r : Bool) (segment : String) :
    (tuple ss r).slot? segment =
      ((Path.index? segment).bind fun i => ss[i]?).map fun s => ⟨s, r, .certain⟩ := by
  unfold slot? slots
  rw [List.find?_map]
  cases h : Path.index? segment with
  | none =>
    -- a segment that is no index covers no position
    have hnone : ss.zipIdx.find? ((fun p => p.1.covers segment) ∘
        fun x : Shape × Nat => (PatternPart.index x.2, (⟨x.1, r, .certain⟩ : Slot))) = none := by
      rw [List.find?_eq_none]
      intro x _
      simp [PatternPart.covers, h]
    rw [hnone]
    rfl
  | some n =>
    -- the position with that number is the one that covers it
    have hcovers : ((fun p => p.1.covers segment) ∘
        fun x : Shape × Nat => (PatternPart.index x.2, (⟨x.1, r, .certain⟩ : Slot))) =
          fun p => some n == some p.2 := by
      funext x
      simp [PatternPart.covers, h]
    rw [hcovers, find?_zipIdx, if_pos (Nat.zero_le n), Nat.sub_zero, Option.bind_some]
    cases ss[n]? <;> rfl

/-- The first field that a segment names, if there is one. -/
theorem find?_fieldSlots (fs : List (Field Shape)) (segment : String) :
    ((fs.filter Field.isAddressable).map Field.slot).find? (fun p => p.1.covers segment) =
      (fs.find? fun f => f.isAddressable && f.name == segment).map Field.slot := by
  rw [List.find?_map, List.find?_filter]
  refine congrArg (fun p => (fs.find? p).map Field.slot) (funext fun f => ?_)
  simp [Field.slot, PatternPart.covers, beq_eq_decide]

/-- An index signature has one slot, for the keys that it accepts. -/
theorem find?_indexSlots (j : IndexSignature Shape) (segment : String) :
    (j.slots.find? fun p => p.1.covers segment).map Prod.snd =
      if j.accepts segment then some j.slot else none := by
  unfold IndexSignature.slots IndexSignature.accepts
  -- a signature of strings and numbers has the slot of strings alone
  cases j.acceptsStrings
  · cases j.acceptsNumbers
    · rfl
    · cases h : Path.index? segment <;> simp [PatternPart.covers, h, IndexSignature.slot]
  · rfl

/-- A field of that name comes first. -/
theorem slot?_of_named (h : s.objectParts? = some (fs, i)) (hnamed : ∃ f ∈ fs, f.Names segment) :
    ∃ f ∈ fs, f.Names segment ∧ s.slot? segment = some f.slot.2 := by
  unfold slot?
  rw [slots_of_objectParts? h, List.find?_append, find?_fieldSlots]
  cases hf : fs.find? fun f => f.isAddressable && f.name == segment with
  | none =>
    -- a field of that name is there, so the search does not fail
    obtain ⟨f, hf', hname⟩ := hnamed
    have hnone := List.find?_eq_none.mp hf f hf'
    simp [hname.1, hname.2] at hnone
  | some f =>
    have hname : f.Names segment := by simpa [Field.Names] using List.find?_some hf
    exact ⟨f, List.mem_of_find?_eq_some hf, hname, rfl⟩

/-- Without a field of that name, the index signature has the key if it accepts it. -/
theorem slot?_of_not_named (h : s.objectParts? = some (fs, i))
    (hnamed : ∀ f ∈ fs, ¬ f.Names segment) :
    s.slot? segment = i.bind fun j => if j.accepts segment then some j.slot else none := by
  unfold slot?
  have hnone : fs.find? (fun f => f.isAddressable && f.name == segment) = none := by
    rw [List.find?_eq_none]
    intro f hf
    simpa [Field.Names] using hnamed f hf
  rw [slots_of_objectParts? h, List.find?_append, find?_fieldSlots, hnone]
  cases i with
  | none => rfl
  | some j => exact find?_indexSlots j segment

/-! ### Other slots of a segment -/

/-- A segment that a slot covers stands for a slot, of which that one may be behind. -/
theorem exists_slot?_of_covers {p : PatternPart × Slot} (hp : p ∈ s.slots)
    (hcovers : p.1.covers segment = true) : ∃ slot, s.slot? segment = some slot := by
  have hfound : (s.slots.find? fun q => q.1.covers segment).isSome = true := by
    rw [List.find?_isSome]
    exact ⟨p, hp, hcovers⟩
  obtain ⟨q, hq⟩ := Option.isSome_iff_exists.mp hfound
  exact ⟨q.2, by simp [slot?, hq]⟩

/-- A slot that covers a segment and is not the one that the segment stands for is behind a field of
that name. -/
theorem names_of_slot?_ne {p : PatternPart × Slot} (hp : p ∈ s.slots)
    (hcovers : p.1.covers segment = true) (hne : s.slot? segment ≠ some p.2) :
    ∃ fs i, s.objectParts? = some (fs, i) ∧ ∃ f ∈ fs, f.Names segment := by
  have hobject : ∀ fs i, s.objectParts? = some (fs, i) → ∃ f ∈ fs, f.Names segment := by
    intro fs i hs
    by_contra hnamed
    have hnone : ∀ f ∈ fs, ¬ f.Names segment := fun f hf h => hnamed ⟨f, hf, h⟩
    rcases mem_slots_of_objectParts? hs hp with ⟨f, hf, haddressable, rfl⟩ | ⟨j, rfl, hj⟩
    · have hname : f.name = segment := by simpa [Field.slot, PatternPart.covers] using hcovers
      exact hnone f hf ⟨haddressable, hname⟩
    · -- without a field in front, the segment stands for the slot of the index signature
      obtain ⟨slot, hslot⟩ := exists_slot?_of_covers hp hcovers
      rw [hslot, (mem_indexSlots hj).2] at hne
      rw [slot?_of_not_named hs hnone, Option.bind_some] at hslot
      split at hslot
      · exact hne hslot.symm
      · cases hslot
  cases s with
  | array s r =>
    obtain ⟨slot, hslot⟩ := exists_slot?_of_covers hp hcovers
    rw [hslot, List.mem_singleton.mp hp] at hne
    rw [slot?_array] at hslot
    obtain ⟨n, -, rfl⟩ := Option.map_eq_some_iff.mp hslot
    exact absurd rfl hne
  | tuple ss r =>
    -- only one position has the number that the segment stands for
    obtain ⟨⟨u, n⟩, hu, rfl⟩ := List.mem_map.mp hp
    have hindex : Path.index? segment = some n := by simpa [PatternPart.covers] using hcovers
    have hget : ss[n]? = some u := List.mem_zipIdx_iff_getElem?.mp hu
    rw [slot?_tuple, hindex, Option.bind_some, hget] at hne
    exact absurd rfl hne
  | record i => exact ⟨_, _, rfl, hobject _ _ rfl⟩
  | struct fs i => exact ⟨_, _, rfl, hobject _ _ rfl⟩
  | _ => cases hp

end Shape

end TypedPaths

/-
TypedPaths/Proofs/WellFormed.lean

The form of the patterns that are listed.

Design.  A listed pattern is taken apart at any one of its parts.  What is in front of it leads to a
place, and the part and all behind it are listed below that place, over the levels that are left
(`append_mem_listing`).  There the part is either that of everything below, and then the last, or that
of a slot which the place shows, and then it takes a level (`cons_mem_listing`).  What is true of all
patterns follows from these two, whether the schema refers to itself or not: there are parts, no more
of them than levels, and every key is the name of a field (`Schema.WellFormed`).

The part of a slot is listed alone as well, unless the slot is readonly and such slots are left out.
So without that, a listing has with each pattern all those that it begins with.

Main results: `wellFormed_of_mem_listing`, `mem_listing_of_append`, `patterns_wellFormed`.
-/
import TypedPaths.Proofs.Assignable

namespace TypedPaths

/-! ### Keys -/

namespace Shape

variable {s : Shape} {name : String} {slot : Slot}

/-- The shape is one of objects, with a field of this name which is no symbol. -/
def HasField (s : Shape) (name : String) : Prop :=
  ∃ fs i, s.objectParts? = some (fs, i) ∧ ∃ f ∈ fs, f.symbol = false ∧ f.name = name

theorem symbol_of_isAddressable {f : Field Shape} (h : f.isAddressable = true) :
    f.symbol = false := by
  unfold Field.isAddressable at h
  simpa using (Bool.and_eq_true_iff.mp h).1

/-- Only the slots of fields stand under keys. -/
theorem hasField_of_mem_slots (h : (.key name, slot) ∈ s.slots) : s.HasField name := by
  have hobject : ∀ fs i, s.objectParts? = some (fs, i) → s.HasField name := by
    intro fs i hs
    rcases mem_slots_of_objectParts? hs h with ⟨f, hf, haddressable, heq⟩ | ⟨j, -, hj⟩
    · have hname : PatternPart.key name = .key f.name := congrArg Prod.fst heq
      exact ⟨fs, i, hs, f, hf, symbol_of_isAddressable haddressable,
        (PatternPart.key.inj hname).symm⟩
    · rcases (mem_indexSlots hj).1 with hpart | hpart <;> cases hpart
  cases s with
  | record j => exact hobject _ _ rfl
  | struct fs i => exact hobject _ _ rfl
  | array t r => simp [slots] at h
  | tuple ts r =>
    obtain ⟨⟨t, n⟩, -, ht⟩ := List.mem_map.mp h
    cases ht
  | _ => cases h

theorem isSegment_of_mem_slots (h : (.key name, slot) ∈ s.slots) : Path.IsSegment name := by
  rcases part_of_mem_slots h with ⟨key, hkey, hsegment⟩ | ⟨n, hn⟩ | h | h
  · rwa [PatternPart.key.inj hkey]
  · cases hn
  · cases h
  · cases h

end Shape

namespace Schema

open Shape

variable {S : Schema} {w : Bool} {b : Nat} {p q : Pattern} {part : PatternPart} {s : Shape}

/-! ### One part -/

/-- The first part of a listed pattern is that of everything below, or takes a level. -/
theorem cons_mem_listing (hS : S.Valid) (h : part :: p ∈ S.listing w b s) :
    part = .rest ∧ p = [] ∨ 0 < b ∧ part ≠ .rest ∧ ∃ slot, S.ShowsSlot part slot s := by
  cases b with
  | zero =>
    rw [listing] at h
    split at h
    · cases h
    · exact .inl (List.cons.inj (List.mem_singleton.mp h))
  | succ b =>
    rcases (mem_listing_succ_iff hS).mp h with ⟨-, h⟩ | ⟨hany, hunknown, t, ht, q, hq, h⟩
    · exact .inl (List.cons.inj h)
    · have hpart : part = q.1 := by
        rcases mem_slotListing_iff.mp h with ⟨-, h⟩ | ⟨r, -, h⟩
        · exact (List.cons.inj h).1
        · exact (List.cons.inj h).1
      subst hpart
      exact .inr ⟨b.succ_pos, ne_rest_of_mem_slots hq, q.2, hany, hunknown, t, ht, hq⟩

/-- A listed pattern, taken apart at one of its parts. -/
theorem append_mem_listing (hS : S.Valid) (h : q ++ part :: p ∈ S.listing w b s) :
    ∃ c t, b = q.length + c ∧ S.LeadsTo q s t ∧ part :: p ∈ S.listing w c t := by
  have hlength : q.length ≤ b := by
    have hle := length_le_of_mem_listing hS h
    rw [List.length_append, List.length_cons] at hle
    omega
  obtain ⟨c, rfl⟩ := Nat.exists_eq_add_of_le hlength
  obtain ⟨t, hlead, ht⟩ := (mem_listing_append_iff hS (List.cons_ne_nil _ _)).mp h
  exact ⟨c, t, rfl, hlead, ht⟩

/-! ### Whole patterns -/

/-- The pattern has parts, and those that take a level are no more than there are levels.  The part of
everything below stands at most once, and nowhere but at the end.  A key has no dot in it, and it is
the name of a field of a shape that the parts in front of it lead to. -/
structure WellFormed (S : Schema) (b : Budget) (s : Shape) (p : Pattern) : Prop where
  ne_nil : p ≠ []
  count_rest_le : p.count .rest ≤ 1
  rest_last : ∀ q r, p = q ++ .rest :: r → r = []
  countP_le : p.countP (· ≠ .rest) ≤ b
  isSegment : ∀ name, .key name ∈ p → Path.IsSegment name
  hasField : ∀ q name r, p = q ++ .key name :: r →
    ∃ t u, S.LeadsTo q s t ∧ S.Branch t u ∧ u.HasField name

/-- Nothing is listed behind the part of everything below. -/
theorem eq_nil_of_rest (hS : S.Valid) (h : q ++ .rest :: p ∈ S.listing w b s) : p = [] := by
  obtain ⟨c, t, -, -, ht⟩ := append_mem_listing hS h
  rcases cons_mem_listing hS ht with ⟨-, hp⟩ | ⟨-, hpart, -⟩
  · exact hp
  · exact absurd rfl hpart

theorem rest_not_mem_of_concat (hS : S.Valid) (h : q ++ [part] ∈ S.listing w b s) : .rest ∉ q := by
  intro hrest
  obtain ⟨front, behind, rfl⟩ := List.append_of_mem hrest
  rw [List.append_assoc, List.cons_append] at h
  exact List.concat_ne_nil part behind (eq_nil_of_rest hS h)

/-- What stands in front of a key leads to a shape that shows a slot for it. -/
theorem exists_showsSlot (hS : S.Valid) {name : String}
    (h : q ++ .key name :: p ∈ S.listing w b s) :
    ∃ t slot, S.LeadsTo q s t ∧ S.ShowsSlot (.key name) slot t := by
  obtain ⟨c, t, -, hlead, ht⟩ := append_mem_listing hS h
  rcases cons_mem_listing hS ht with ⟨hpart, -⟩ | ⟨-, -, slot, hslot⟩
  · cases hpart
  · exact ⟨t, slot, hlead, hslot⟩

theorem countP_le_of_concat (hS : S.Valid) (h : q ++ [part] ∈ S.listing w b s) :
    (q ++ [part]).countP (· ≠ .rest) ≤ b := by
  obtain ⟨c, t, rfl, -, ht⟩ := append_mem_listing hS h
  have hq : q.countP (· ≠ .rest) ≤ q.length := List.countP_le_length
  rw [List.countP_append]
  rcases cons_mem_listing hS ht with ⟨rfl, -⟩ | ⟨hc, -⟩
  · -- the last part takes no level
    have hlast : [PatternPart.rest].countP (· ≠ .rest) = 0 := rfl
    omega
  · have hlast : [part].countP (· ≠ .rest) ≤ 1 := List.countP_le_length
    omega

/-- Every pattern that is listed is well formed. -/
theorem wellFormed_of_mem_listing (hS : S.Valid) (h : p ∈ S.listing w b s) :
    S.WellFormed b s p := by
  obtain rfl | ⟨q, part, rfl⟩ := List.eq_nil_or_concat' p
  · exact absurd rfl (ne_nil_of_mem_listing hS h)
  refine ⟨ne_nil_of_mem_listing hS h, ?_, ?_, countP_le_of_concat hS h, ?_, ?_⟩
  · rw [List.count_append, List.count_eq_zero.mpr (rest_not_mem_of_concat hS h), Nat.zero_add]
    exact List.count_le_length
  · intro front behind heq
    exact eq_nil_of_rest hS (heq ▸ h)
  · intro name hname
    obtain ⟨front, behind, heq⟩ := List.append_of_mem hname
    obtain ⟨t, slot, -, -, -, u, -, hslot⟩ := exists_showsSlot hS (heq ▸ h)
    exact isSegment_of_mem_slots hslot
  · intro front name behind heq
    obtain ⟨t, slot, hlead, -, -, u, hu, hslot⟩ := exists_showsSlot hS (heq ▸ h)
    exact ⟨t, u, hlead, hu, hasField_of_mem_slots hslot⟩

/-! ### Patterns that begin alike -/

/-- If no slot is left out, a listing has with a pattern those that it begins with. -/
theorem mem_listing_of_append (hS : S.Valid) (hq : q ≠ []) (h : q ++ p ∈ S.listing false b s) :
    q ∈ S.listing false b s := by
  rcases p with - | ⟨other, p⟩
  · rwa [List.append_nil] at h
  obtain rfl | ⟨front, part, rfl⟩ := List.eq_nil_or_concat' q
  · exact absurd rfl hq
  rw [List.append_assoc, List.singleton_append] at h
  obtain ⟨c, t, hb, hlead, ht⟩ := append_mem_listing hS h
  rcases cons_mem_listing hS ht with ⟨-, hp⟩ | ⟨hc, hpart, slot, hslot⟩
  · cases hp
  · refine (concat_mem_listing_iff hS hpart).mpr ⟨by omega, t, hlead, slot, hslot, ?_⟩
    exact Bool.false_and _

/-- Every pattern of a listing is well-formed, over however many levels and whatever is left out.  If
nothing is left out, then a pattern of two parts or more is there without its last part as well. -/
theorem patterns_wellFormed (hS : S.Valid) (b : Budget) (s : Shape) :
    (∀ w, ∀ p ∈ S.patterns w b s, S.WellFormed b s p) ∧
    ∀ p ∈ S.patterns false b s, 2 ≤ p.length → p.dropLast ∈ S.patterns false b s := by
  simp only [mem_patterns]
  refine ⟨fun w p hp => wellFormed_of_mem_listing hS hp, fun p hp hlength => ?_⟩
  have hne : p ≠ [] := ne_nil_of_mem_listing hS hp
  have hfront : p.dropLast ≠ [] := by
    apply List.ne_nil_of_length_pos
    rw [List.length_dropLast]
    omega
  apply mem_listing_of_append hS hfront (p := [p.getLast hne])
  rwa [List.dropLast_append_getLast]

/-- Folders in folders, with a readonly way back, and keys that no path can name. -/
def folders : Schema where
  root := .ref "folder"
  definitions := .ofList
    [("folder", .struct
      [⟨"parent", .union [.null, .ref "folder"], true, true, false⟩,
        ⟨"children", .array (.ref "folder") false, false, false, false⟩,
        ⟨"read.me", .ref "folder", false, false, false⟩,
        ⟨"owner", .ref "folder", false, false, true⟩] none)]

theorem patterns_wellFormed_folders :
    folders.Valid ∧
    [.key "parent", .key "children", .rest] ∈ folders.patterns true 2 folders.root ∧
    folders.WellFormed 2 folders.root [.key "parent", .key "children", .rest] ∧
    [.key "parent", .key "children"] ∈ folders.patterns false 2 folders.root ∧
    [.key "parent"] ∈ folders.patterns false 2 folders.root := by
  have hvalid : folders.Valid := by decide +kernel
  have hwritable : [.key "parent", .key "children", .rest] ∈
      folders.patterns true 2 folders.root := mem_patterns.mpr (by decide +kernel)
  have hall : [.key "parent", .key "children", .rest] ∈
      folders.patterns false 2 folders.root := mem_patterns.mpr (by decide +kernel)
  obtain ⟨hform, hfront⟩ := patterns_wellFormed hvalid 2 folders.root
  have htwo := hfront _ hall (by decide)
  exact ⟨hvalid, hwritable, hform true _ hwritable, htwo, hfront _ htwo (by decide)⟩

end Schema

end TypedPaths

/-
TypedPaths/Proofs/Stripping.lean

What is left of a shape without its nullish members.

Design.  A shape without its nullish members is built as a normalised union, of members that have
been stripped themselves.  These are flat (`flat_strip`), so each of them is opened up at once and the
union is normal.  With that, and because nothing nullish is left, stripping finds nothing more to
drop and builds the same union again (`Schema.Stripped.strip_eq`): the stripped shapes are exactly
those that stripping leaves as they are.

Nothing else is lost.  A nullish shape has no parts, so a path that leads somewhere from a shape also
does from what is left of it (`reaches_strip_iff`).

Main results: `strip_eq_self_iff`, `strip_drops_nullish`.
-/
import TypedPaths.Proofs.UnionLaws
import TypedPaths.Proofs.Stepping

namespace TypedPaths

open Shape

namespace Schema

variable {S : Schema} {s u : Shape}

/-- The shape is normal, it is no union of unions once references are followed, and neither it nor a
member of it is nullish. -/
structure Stripped (S : Schema) (s : Shape) : Prop where
  flat : S.Flat s
  normal : s.IsNormal
  isNullish_eq_false : ∀ m ∈ s.spread, S.isNullish m = false

/-! ### Stripped shapes -/

theorem not_isUnion_of_expand (h : S.expand s = .leaf u) : ¬ s.IsUnion := by
  intro hs
  cases s with
  | union ss =>
    rw [expand_union] at h
    cases h
  | _ => exact hs

theorem Flat.isShallow (hs : S.Flat s) : s.IsShallow := by
  intro m hm
  obtain ⟨u, hu⟩ := hs m hm
  exact not_isUnion_of_expand hu

/-- Stripping makes normalised unions of members that are no unions, so its result is normal. -/
theorem isNormal_strip (hS : S.Valid) (s : Shape) : (S.strip s).IsNormal := by
  have hstrips : S.Strips s (S.strip s) := strips hS s
  generalize S.strip s = t at hstrips
  cases hstrips with
  | @union _ ms stripped hd hms =>
    -- the members are flat, since they are stripped themselves
    refine isNormal_unionOf fun t ht => ?_
    obtain ⟨m, hm, rfl⟩ := List.mem_map.mp ht
    obtain ⟨hm, hkept⟩ := of_mem_kept hm
    rw [← (hms m hm hkept).eq hS]
    exact (flat_strip hS m).isShallow
  | nullish => trivial
  | kept hne =>
    obtain ⟨u, hu⟩ := exists_leaf_of_deref hS hne
    exact isNormal_of_not_isUnion (not_isUnion_of_expand hu)

theorem stripped_strip (hS : S.Valid) (s : Shape) : S.Stripped (S.strip s) where
  flat := flat_strip hS s
  normal := isNormal_strip hS s
  isNullish_eq_false := fun _ => isNullish_of_mem_strip hS

/-- There is nothing to drop from a stripped shape, and nothing to bring into another form. -/
theorem Stripped.strip_eq (hs : S.Stripped s) : S.strip s = s := by
  cases s with
  | union ss =>
    have hkept : (ss.filter fun m => !S.isNullish m) = ss := by
      rw [List.filter_eq_self]
      intro m hm
      rw [hs.isNullish_eq_false m hm, Bool.not_false]
    have hmembers : ss.map S.strip = ss.map id := by
      refine List.map_congr_left fun m hm => ?_
      obtain ⟨u, hu⟩ := hs.flat m hm
      exact strip_leaf hu (hs.isNullish_eq_false m hm)
    rw [strip_union, hkept, hmembers, List.map_id]
    exact unionOf_of_isNormal (opened_eq_self hs.flat.isShallow) hs.normal
  | _ =>
    obtain ⟨u, hu⟩ := hs.flat _ (List.mem_singleton_self _)
    exact strip_leaf hu (hs.isNullish_eq_false _ (List.mem_singleton_self _))

/-- Exactly the shapes of which nothing can be stripped are left as they are. -/
theorem strip_eq_self_iff (hS : S.Valid) : S.strip s = s ↔ S.Stripped s := by
  refine ⟨fun h => ?_, Stripped.strip_eq⟩
  rw [← h]
  exact stripped_strip hS s

/-- Looking for nullish members at any depth finds none in a stripped shape. -/
theorem Stripped.hasNullish_eq_false (hS : S.Valid) (hs : S.Stripped s) :
    S.hasNullish s = false := by
  cases s with
  | union ss =>
    rw [hasNullish_union hS (deref_union ss), List.any_eq_false]
    intro m hm
    obtain ⟨u, hu⟩ := hs.flat m hm
    rw [hasNullish_leaf hu, hs.isNullish_eq_false m hm]
    decide
  | _ =>
    obtain ⟨u, hu⟩ := hs.flat _ (List.mem_singleton_self _)
    rw [hasNullish_leaf hu]
    exact hs.isNullish_eq_false _ (List.mem_singleton_self _)

/-! ### What is dropped, and what is kept -/

/-- Stripping drops all that is nullish: doing it again changes nothing, no nullish member is left at
any depth, and the shape is not nullable.  It drops nothing else: the same paths lead somewhere. -/
theorem strip_drops_nullish (hS : S.Valid) (s : Shape) :
    S.strip (S.strip s) = S.strip s ∧ S.hasNullish (S.strip s) = false ∧
    (∀ ms, S.kind (S.strip s) ≠ .nullable ms) ∧
    ∀ marks b path, (∃ t, S.shapeBelow marks b (S.strip s) path = .ok t) ↔
      ∃ t, S.shapeBelow marks b s path = .ok t := by
  have hstripped : S.Stripped (S.strip s) := stripped_strip hS s
  refine ⟨hstripped.strip_eq, hstripped.hasNullish_eq_false hS, kind_strip_ne_nullable hS s,
    fun marks b path => ?_⟩
  simp only [shapeBelow_eq_ok, ← reaches_true]
  by_cases hempty : Path.segments path = []
  · -- the empty path leads to the shape itself, whatever that is
    rw [hempty, reaches_nil, reaches_nil]
  · exact reaches_strip_iff hS distributive_true.unmarked hempty

/-- A note on another note, where `null` and `undefined` hide behind references and inside unions. -/
def notes : Schema where
  root := .union [.ref "maybe", .union [.union [.null, .primitive .string]], .ref "absent"]
  definitions := .ofList
    [("absent", .undefined),
      ("maybe", .union [.ref "absent", .union [.ref "note", .null]]),
      ("note", .struct [⟨"about", .ref "maybe", true, false, false⟩] none)]

theorem strip_drops_nullish_notes :
    notes.Valid ∧ notes.hasNullish notes.root = true ∧
    notes.strip notes.root = .union [.ref "note", .primitive .string] ∧
    notes.hasNullish (notes.strip notes.root) = false ∧
    notes.strip (notes.strip notes.root) = notes.strip notes.root ∧
    ∃ t, notes.shapeBelow .reading 1 notes.root "about" = .ok t := by
  have hvalid : notes.Valid := by decide
  have hstrip : notes.strip notes.root = .union [.ref "note", .primitive .string] := by
    decide +kernel
  obtain ⟨hagain, hnone, -, hpaths⟩ := strip_drops_nullish hvalid notes.root
  refine ⟨hvalid, by decide +kernel, hstrip, hnone, hagain, ?_⟩
  rw [← hpaths .reading 1 "about", hstrip]
  exact ⟨.union [.ref "maybe", .undefined], by decide +kernel⟩

end Schema

end TypedPaths

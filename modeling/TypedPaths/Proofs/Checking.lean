/-
TypedPaths/Proofs/Checking.lean

Paths that a catalog allows.

Design.  A path is checked against a listing: that of the shape its parent leads to, one level of
which decides (`check_eq_ok_iff_covers`).  The listing covers the last segment if and only if a
branch of that shape has a slot for it, and that is what the path needs to be resolved as well.
So the check and the type of a path agree (`check_eq_ok_iff`), but for a parent of which nothing is
known: below `unknown` a path has a type and is not listed.

What continues a path is that listing as well, moved below the parent (`completions_eq_ok`).

Main results: `completions_eq_ok`, `check_eq_ok_iff_covers`, `check_eq_ok_iff`.
-/
import TypedPaths.Catalog
import TypedPaths.Proofs.Listing
import TypedPaths.Proofs.Resolution

namespace TypedPaths

namespace Shape

/-- Without anything left out, a segment is listed if it stands for a slot. -/
theorem lists_false_iff {s : Shape} {segment : String} :
    s.Lists false segment ↔ ∃ slot, s.slot? segment = some slot := by
  unfold Lists slot?
  rw [← Option.isSome_iff_exists, Option.isSome_map, List.find?_isSome]
  simp

end Shape

namespace Catalog

open Schema

variable {C : Catalog} {options : ListingOptions} {path segment : String} {head : List String}
  {s : Shape}

/-! ### Checks and listings -/

theorem validate_eq_ok (hdepth : 0 < options.depth) : options.validate = .ok () := by
  unfold ListingOptions.validate
  rw [if_neg (by omega)]

theorem paths_of_depth (hdepth : 0 < options.depth) : C.schema.paths options =
    .ok (C.schema.patterns options.writableOnly options.depth C.schema.root) := by
  unfold Schema.paths
  rw [validate_eq_ok hdepth]
  rfl

/-- A catalog takes the paths that continue a path from the schema, and for a single segment those
of the root, which are the same. -/
theorem completions_eq : C.completions path options = C.schema.completions path options := by
  unfold completions completionsWith
  by_cases hlength : (Path.segments path).length < 2
  · have hparent : (Path.segments path).dropLast = [] := by
      rw [List.eq_nil_iff_length_eq_zero, List.length_dropLast]
      omega
    unfold Schema.completions paths Schema.paths
    rw [if_pos hlength]
    dsimp only
    simp only [hparent, if_pos]
    cases options.validate <;> rfl
  · rw [if_neg hlength]

/-- The paths that continue a path are those of its parent, moved below it. -/
theorem completions_eq_ok (hdepth : 0 < options.depth)
    (hpath : Path.segments path = head ++ [segment])
    (hs : C.schema.resolveParent head = some s) :
    ∃ set, C.schema.completions path options = .ok set ∧
      ∀ segments, set.covers segments = true ↔ ∃ rest, segments = head ++ rest ∧
        (C.schema.patterns options.writableOnly options.depth s).covers rest = true := by
  unfold Schema.completions
  rw [validate_eq_ok hdepth, hpath]
  dsimp only [Except.bind]
  rw [List.dropLast_concat]
  by_cases hhead : head = []
  · -- the parent is the root
    subst hhead
    obtain rfl : C.schema.root = s := by
      unfold resolveParent at hs
      rw [resolve_nil] at hs
      exact Option.some.inj hs
    refine ⟨C.schema.patterns options.writableOnly options.depth C.schema.root, ?_,
      fun segments => by simp⟩
    rw [if_pos rfl]
    exact paths_of_depth hdepth
  · refine ⟨(C.schema.patterns options.writableOnly options.depth s).below head, ?_,
      fun segments => PatternSet.covers_below_iff⟩
    rw [if_neg hhead, hs]

/-- The paths that continue a path cover it if and only if the listing of its parent covers the
last segment. -/
theorem completions_covers (hdepth : 0 < options.depth)
    (hpath : Path.segments path = head ++ [segment])
    (hs : C.schema.resolveParent head = some s) :
    ∃ set, C.completions path options = .ok set ∧
      set.contains path =
        (C.schema.patterns options.writableOnly options.depth s).covers [segment] := by
  obtain ⟨set, hset, hcovers⟩ := completions_eq_ok hdepth hpath hs
  refine ⟨set, completions_eq.trans hset, ?_⟩
  rw [Bool.eq_iff_iff, PatternSet.contains, hcovers, hpath]
  simp

/-- A path is refused if the segments in front of the last one lead nowhere. -/
theorem check_of_none (hpath : Path.segments path = head ++ [segment])
    (hs : C.schema.resolveParent head = none) :
    C.check path options = .error (.invalidPath path) := by
  unfold check checkWith
  rw [hpath]
  dsimp only
  rw [if_neg (by simp), List.dropLast_concat, hs]
  rfl

/-- If they lead to a shape, the listing of this shape decides whether the path is allowed. -/
theorem check_of_some (hdepth : 0 < options.depth)
    (hpath : Path.segments path = head ++ [segment])
    (hs : C.schema.resolveParent head = some s) :
    C.check path options =
      if (C.schema.patterns options.writableOnly options.depth s).covers [segment] then .ok ()
      else .error (.invalidPath path) := by
  obtain ⟨set, hset, hcontains⟩ := completions_covers hdepth hpath hs
  unfold check checkWith
  unfold completions at hset
  rw [hset, hpath, ← hcontains]
  dsimp only
  rw [if_neg (by simp), List.dropLast_concat, hs]
  rfl

/-- A path is checked to be allowed first, and then to be listed among those that can be assigned
to. -/
theorem checkWritable_eq (hpath : path ≠ "") :
    C.checkWritable path options = (C.check path options).bind fun _ =>
      (C.completions path options.writable).bind fun set =>
        if set.contains path then .ok () else .error (.readonlyPath path) := by
  unfold checkWritable checkWritableWith
  rw [if_neg hpath]
  rfl

/-- A path is allowed if and only if a listing of the shape of its parent covers the last
segment. -/
theorem check_eq_ok_iff_covers (hdepth : 0 < options.depth)
    (hpath : Path.segments path = head ++ [segment]) :
    C.check path options = .ok () ↔ ∃ s, C.schema.resolveParent head = some s ∧
      (C.schema.patterns options.writableOnly options.depth s).covers [segment] = true := by
  cases hs : C.schema.resolveParent head with
  | none => simp [check_of_none hpath hs]
  | some s => simp [check_of_some hdepth hpath hs]

/-! ### Checks and types -/

theorem resolveParent_eq {b : Nat} (hb : head.length ≤ b) :
    C.schema.resolveParent head = C.schema.resolve .writing b head C.schema.root :=
  resolve_of_length_le (Nat.le_max_right _ _) hb

/-- A full listing covers a segment if and only if the segment finds something, and the shape is not
of kind `unknown`. -/
theorem covers_iff_below (hS : C.schema.Valid) {b : Nat} (hb : 0 < b) :
    (C.schema.patterns false b s).covers [segment] = true ↔
      C.schema.Below segment (fun _ => True) s ∧ C.schema.kind s ≠ .unknown := by
  rw [covers_singleton_iff hS hb, shows_iff hS]
  simp only [Shape.lists_false_iff, Below, and_true]

theorem check_eq_ok_iff_below (hdepth : 0 < options.depth) (hall : options.writableOnly = false)
    (hpath : Path.segments path = head ++ [segment]) {b : Nat} (hb : head.length ≤ b) :
    C.check path options = .ok () ↔
      ∃ s, C.schema.resolve .writing b head C.schema.root = some s ∧
        C.schema.Below segment (fun _ => True) s ∧ C.schema.kind s ≠ .unknown := by
  rw [check_eq_ok_iff_covers hdepth hpath, hall, resolveParent_eq hb]
  simp only [covers_iff_below C.valid hdepth]

/-- A path that is allowed has a type: one that is too long for its type to be looked for is of
type `unknown`. -/
theorem exists_valueType_of_check (hdepth : 0 < options.depth)
    (hall : options.writableOnly = false) (hpath : Path.segments path = head ++ [segment])
    (h : C.check path options = .ok ()) (marks : AbsenceMarks) :
    ∃ t, C.valueType marks path = .ok t := by
  have hlength : head.length + 1 ≤ max resolveDepth (head.length + 1) := Nat.le_max_right _ _
  obtain ⟨s, hs, hbelow, -⟩ :=
    (check_eq_ok_iff_below hdepth hall hpath (Nat.le_of_succ_le hlength)).mp h
  have hlong := (exists_resolve_concat_iff C.valid marks .writing hlength).mpr ⟨s, hs, hbelow⟩
  -- with less levels than that, more paths have a type
  have hshort := Reaches.of_le C.valid Shape.distributive_true (Nat.le_max_left _ _)
    (reaches_true.mpr hlong)
  obtain ⟨t, ht⟩ := reaches_true.mp hshort
  exact ⟨t, shapeBelow_eq_ok.mpr (hpath ▸ ht)⟩

/-- The check and the type of a path agree: a path is allowed if and only if it has a type and its
parent is not of kind `unknown`.  So a path that is allowed has a type, however long it is and
whatever is marked. -/
theorem check_eq_ok_iff (hdepth : 0 < options.depth) (hall : options.writableOnly = false)
    (hpath : Path.segments path ≠ []) :
    (∀ (marks : AbsenceMarks) (b c : Nat), (Path.segments path).length ≤ b →
      (Path.segments path).length ≤ c →
      (C.check path options = .ok () ↔
        (∃ t, C.schema.shapeBelow marks b C.schema.root path = .ok t) ∧
        ∃ s, C.schema.resolve .writing c (Path.segments path).dropLast C.schema.root = some s ∧
          C.schema.kind s ≠ .unknown)) ∧
    (C.check path options = .ok () → ∀ marks, ∃ t, C.valueType marks path = .ok t) := by
  obtain ⟨head, segment, hsegments⟩ : ∃ head segment, Path.segments path = head ++ [segment] :=
    ⟨_, _, (List.dropLast_concat_getLast hpath).symm⟩
  refine ⟨fun marks b c hb hc => ?_, exists_valueType_of_check hdepth hall hsegments⟩
  have hlength : (Path.segments path).length = head.length + 1 := by simp [hsegments]
  rw [hlength] at hb hc
  have hparent : C.schema.resolve .writing c head C.schema.root =
      C.schema.resolve .writing b head C.schema.root :=
    resolve_of_length_le (Nat.le_of_succ_le hc) (Nat.le_of_succ_le hb)
  simp only [shapeBelow_eq_ok]
  rw [hsegments, List.dropLast_concat, hparent,
    check_eq_ok_iff_below hdepth hall hsegments (Nat.le_of_succ_le hb),
    exists_resolve_concat_iff C.valid marks .writing hb]
  constructor
  · rintro ⟨s, hs, hbelow, hk⟩
    exact ⟨⟨s, hs, hbelow⟩, s, hs, hk⟩
  · rintro ⟨⟨s, hs, hbelow⟩, t, ht, hk⟩
    -- both speak of the one shape of the parent
    obtain rfl := Option.some.inj (hs.symm.trans ht)
    exact ⟨s, hs, hbelow, hk⟩

/-- Objects with a list of named items. -/
def namedItems : Catalog where
  schema := {
    root := .struct [⟨"items", .array (.ref "item") false, false, false, false⟩] none
    definitions :=
      .ofList [("item", .struct [⟨"name", .primitive .string, false, false, false⟩] none)] }
  valid := by decide

theorem check_namedItems :
    namedItems.check "items.0.name" {} = .ok () ∧
    ∀ marks, ∃ t, namedItems.valueType marks "items.0.name" = .ok t := by
  have hdepth : 0 < ({} : ListingOptions).depth := by decide
  have hpath : Path.segments "items.0.name" ≠ [] := by decide
  have hcheck : namedItems.check "items.0.name" {} = .ok () := by decide +kernel
  exact ⟨hcheck, (check_eq_ok_iff hdepth rfl hpath).2 hcheck⟩

end Catalog

end TypedPaths

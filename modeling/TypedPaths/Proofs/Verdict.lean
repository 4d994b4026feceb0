/-
TypedPaths/Proofs/Verdict.lean

What is allowed, however far is listed.

Design.  A check asks whether some pattern of a listing covers a path, and a listing that ends early
covers everything below the place where it ends.  But the listing that is asked starts at the parent
of the path, so there is only one segment left to cover, and any listing of one level or more covers
the same single segments (`covers_eq_of_depth`).  The parent is resolved over as many levels as it
takes, whatever the options say.  So the verdict depends on neither the number of levels nor the
length of the path.

To be assigned to, a path has to pass two checks, the second of which implies the first; so it is the
second alone that decides (`checkWritable_eq_ok_iff_check`).

Main results: `check_eq_of_depth`, `checkWritable_eq_of_depth`, `verdicts_of_depth`.
-/
import TypedPaths.Proofs.Readonly

namespace TypedPaths.Catalog

open Schema

variable {C : Catalog} {options : ListingOptions} {path segment : String} {s : Shape}

/-! ### Listings over different numbers of levels -/

section

variable {others : ListingOptions} (hdepth : 0 < options.depth) (hothers : 0 < others.depth)

include hdepth hothers

/-- The last segment of a path is covered in one level, if at all. -/
theorem covers_eq_of_depth (w : Bool) : (C.schema.patterns w options.depth s).covers [segment] =
    (C.schema.patterns w others.depth s).covers [segment] := by
  rw [Bool.eq_iff_iff, covers_singleton_iff C.valid hdepth, covers_singleton_iff C.valid hothers]

/-- How far a listing goes does not decide whether a path is allowed. -/
theorem check_eq_of_depth (hsame : options.writableOnly = others.writableOnly) :
    C.check path options = C.check path others := by
  by_cases hempty : Path.segments path = []
  · unfold check checkWith
    rw [if_pos hempty, if_pos hempty]
  obtain ⟨head, segment, hpath⟩ : ∃ head segment, Path.segments path = head ++ [segment] :=
    ⟨_, _, (List.dropLast_concat_getLast hempty).symm⟩
  cases hs : C.schema.resolveParent head with
  | none => rw [check_of_none hpath hs, check_of_none hpath hs]
  | some s =>
    rw [check_of_some hdepth hpath hs, check_of_some hothers hpath hs, hsame,
      covers_eq_of_depth hdepth hothers]

theorem checkWritable_eq_of_depth (hsame : options.writableOnly = others.writableOnly) :
    C.checkWritable path options = C.checkWritable path others := by
  by_cases hempty : path = ""
  · unfold checkWritable checkWritableWith
    rw [if_pos hempty, if_pos hempty]
  have hsegments : Path.segments path ≠ [] := Path.segments_eq_nil_iff.not.mpr hempty
  obtain ⟨head, segment, hpath⟩ : ∃ head segment, Path.segments path = head ++ [segment] :=
    ⟨_, _, (List.dropLast_concat_getLast hsegments).symm⟩
  have hcheck : C.check path options = C.check path others :=
    check_eq_of_depth hdepth hothers hsame
  cases hs : C.schema.resolveParent head with
  | none =>
    rw [checkWritable_eq hempty, checkWritable_eq hempty, ← hcheck, check_of_none hpath hs]
    rfl
  | some s =>
    rw [checkWritable_of_some hdepth hpath hs, checkWritable_of_some hothers hpath hs, hcheck,
      covers_eq_of_depth hdepth hothers]

end

/-- That a path can be assigned to is one check against the listing of what can be assigned to. -/
theorem checkWritable_eq_ok_iff_check (hdepth : 0 < options.depth) (hpath : path ≠ "") :
    C.checkWritable path options = .ok () ↔ C.check path options.writable = .ok () := by
  have hsegments : Path.segments path ≠ [] := Path.segments_eq_nil_iff.not.mpr hpath
  obtain ⟨head, segment, hpath⟩ : ∃ head segment, Path.segments path = head ++ [segment] :=
    ⟨_, _, (List.dropLast_concat_getLast hsegments).symm⟩
  have hdepth' : 0 < options.writable.depth := hdepth
  rw [checkWritable_eq_ok_iff_covers hdepth hpath, check_eq_ok_iff_covers hdepth' hpath]
  rfl

/-- No verdict depends on the number of levels that are listed, however long the path is; and a path
can be assigned to if and only if it is allowed where readonly slots are left out. -/
theorem verdicts_of_depth (hdepth : 0 < options.depth) {others : ListingOptions}
    (hothers : 0 < others.depth) (hsame : options.writableOnly = others.writableOnly)
    (path : String) :
    C.check path options = C.check path others ∧
    C.checkWritable path options = C.checkWritable path others ∧
    (path ≠ "" →
      (C.checkWritable path options = .ok () ↔ C.check path options.writable = .ok ())) :=
  ⟨check_eq_of_depth hdepth hothers hsame, checkWritable_eq_of_depth hdepth hothers hsame,
    checkWritable_eq_ok_iff_check hdepth⟩

/-- Tasks with a readonly number and a list of tasks. -/
def tasks : Catalog where
  schema := {
    root := .ref "task"
    definitions := .ofList
      [("task", .struct [⟨"id", .primitive .number, false, true, false⟩,
        ⟨"parts", .array (.ref "task") false, false, false, false⟩] none)] }
  valid := by decide +kernel

theorem verdicts_of_tasks :
    tasks.check "parts.0.parts.0.id" ⟨1, false⟩ = .ok () ∧
    tasks.check "parts.0.parts.0.id" ⟨5, false⟩ = .ok () ∧
    tasks.checkWritable "parts.0.parts.0.id" ⟨5, false⟩ =
      .error (.readonlyPath "parts.0.parts.0.id") ∧
    tasks.check "parts.0.parts.0.id" ⟨1, true⟩ ≠ .ok () := by
  have hone : 0 < (⟨1, false⟩ : ListingOptions).depth := by decide
  have hfive : 0 < (⟨5, false⟩ : ListingOptions).depth := by decide
  have hcheck : tasks.check "parts.0.parts.0.id" ⟨1, false⟩ = .ok () := by decide +kernel
  have hwritable : tasks.checkWritable "parts.0.parts.0.id" ⟨1, false⟩ =
      .error (.readonlyPath "parts.0.parts.0.id") := by decide +kernel
  obtain ⟨hsame, hsameWritable, hiff⟩ :=
    verdicts_of_depth (C := tasks) hone hfive rfl "parts.0.parts.0.id"
  refine ⟨hcheck, hsame ▸ hcheck, hsameWritable ▸ hwritable, fun hallowed => ?_⟩
  rw [(hiff (by decide)).mpr hallowed] at hwritable
  cases hwritable

end TypedPaths.Catalog

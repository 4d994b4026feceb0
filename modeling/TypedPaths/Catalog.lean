/-
TypedPaths/Catalog.lean

Paths checked against a valid schema.

Design.  A catalog is a schema with the proof that it is valid.  A path is checked against the
completions of its own parent, so the answer does not depend on its length.  The parent is
resolved first: completions fall back to the root when it leads nowhere, and what they list there
says nothing about the path.

The checks take the listing of the root as a function: apart from the schema it is all that their
answer depends on.

Main results: `Catalog.get_eq_ok_iff` and `Catalog.set_eq_ok_iff`, reading and writing through a
catalog are reading and writing of data behind a check.
-/
import TypedPaths.Completion
import TypedPaths.Data.Update

namespace TypedPaths

/-- A valid schema. -/
structure Catalog where
  schema : Schema
  valid : schema.Valid

namespace Catalog

/-- The catalog of a schema, if it is valid. -/
def ofSchema (schema : Schema) : Except Error Catalog :=
  match h : schema.validate with
  | .ok () => .ok ⟨schema, h⟩
  | .error e => .error e

/-- The paths of the schema. -/
def paths (catalog : Catalog) (options : ListingOptions) : Except Error PatternSet :=
  catalog.schema.paths options

/-! ### Checks over a given listing of the root -/

/-- Gives the paths of the root of a schema. -/
abbrev Lister := ListingOptions → Except Error PatternSet

/-- The paths that continue a partial path, where `list` gives those of the root. -/
def completionsWith (catalog : Catalog) (list : Lister) (offset : String)
    (options : ListingOptions) : Except Error PatternSet :=
  if (Path.segments offset).length < 2 then list options
  else catalog.schema.completions offset options

/-- Checks that the schema allows a path, where `list` gives the paths of the root; the empty path
is always allowed. -/
def checkWith (catalog : Catalog) (list : Lister) (path : String) (options : ListingOptions) :
    Except Error Unit :=
  let segments := Path.segments path
  if segments = [] then .ok ()
  else if (catalog.schema.resolveParent segments.dropLast).isNone then
    .error (.invalidPath path)
  else do
    let set ← catalog.completionsWith list path options
    if set.contains path then .ok () else .error (.invalidPath path)

/-- Checks that the schema allows a path and that it can be assigned to, where `list` gives the
paths of the root. -/
def checkWritableWith (catalog : Catalog) (list : Lister) (path : String)
    (options : ListingOptions) : Except Error Unit :=
  if path = "" then .error .emptyPath
  else do
    catalog.checkWith list path options
    let set ← catalog.completionsWith list path options.writable
    if set.contains path then .ok () else .error (.readonlyPath path)

/-! ### Answers -/

/-- The paths that continue a partial path. -/
def completions (catalog : Catalog) : String → ListingOptions → Except Error PatternSet :=
  catalog.completionsWith catalog.paths

/-- Checks that the schema allows a path; the empty path is always allowed. -/
def check (catalog : Catalog) : String → ListingOptions → Except Error Unit :=
  catalog.checkWith catalog.paths

/-- Checks that the schema allows a path and that it can be assigned to. -/
def checkWritable (catalog : Catalog) : String → ListingOptions → Except Error Unit :=
  catalog.checkWritableWith catalog.paths

/-- The shape of the value at a path. -/
def valueType (catalog : Catalog) (marks : AbsenceMarks) (path : String) : Except Error Shape :=
  catalog.schema.valueType marks path

/-- The value at a path that the schema allows. -/
def get (catalog : Catalog) (data : Json) (path : String) (options : ListingOptions) :
    Except Error (Option Json) :=
  (catalog.check path options).map fun _ => data.get? path

/-- Puts a value at a path that the schema allows to assign to. -/
def set (catalog : Catalog) (data : Json) (path : String) (value : Json)
    (options : ListingOptions) : Except Error Json :=
  (catalog.checkWritable path options).bind fun _ => data.set path value

theorem get_eq_ok_iff {catalog : Catalog} {data : Json} {path : String}
    {options : ListingOptions} {found : Option Json} :
    catalog.get data path options = .ok found ↔
      catalog.check path options = .ok () ∧ data.get? path = found := by
  unfold get
  cases catalog.check path options <;> simp [Except.map]

theorem set_eq_ok_iff {catalog : Catalog} {data : Json} {path : String} {value : Json}
    {options : ListingOptions} {written : Json} :
    catalog.set data path value options = .ok written ↔
      catalog.checkWritable path options = .ok () ∧ data.set path value = .ok written := by
  unfold set
  cases catalog.checkWritable path options <;> simp [Except.bind]

end Catalog

end TypedPaths

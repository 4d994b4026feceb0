/-
TypedPaths/Error.lean

What can go wrong, and how it is reported.
-/
import TypedPaths.Data.Kind

namespace TypedPaths

/-- The cause of a failure. -/
inductive Error where
  /-- A text is no JSON, or no document of the expected form. -/
  | json
  /-- A reference to a name without a definition. -/
  | unknownReference (name : String)
  /-- References that lead back to a name before they reach a concrete shape. -/
  | referenceCycle (name : String)
  /-- An enumeration of no levels. -/
  | invalidDepth
  /-- A path that the schema does not allow. -/
  | invalidPath (path : String)
  /-- A path that leads to a place that cannot be assigned to. -/
  | readonlyPath (path : String)
  /-- A write to the empty path. -/
  | emptyPath
  /-- A write below the place `path`, which holds no value that `key` could be set on. -/
  | notAContainer (path : String) (key : String) (kind : DataKind)
  /-- A write past the end of the array at `path`. -/
  | indexOutOfBounds (path : String) (index : Nat) (length : Nat)
deriving DecidableEq

namespace Error

/-- Where the failure is, unless that is the top of the data. -/
def location (path : String) : String := if path = "" then "" else " at `" ++ path ++ "`"

/-- Stands for the details of a text that cannot be read, which are not told apart. -/
def jsonDetails : String := "<json>"

/-- The wording of a failure. -/
def message : Error → String
  | json => "JSON parsing error: " ++ jsonDetails
  | unknownReference name => "Unknown shape reference: " ++ name
  | referenceCycle name =>
    "Reference cycle through `" ++ name ++ "` never reaches a concrete shape"
  | invalidDepth => "Depth must be at least 1"
  | invalidPath path => "Invalid path: `" ++ path ++ "`"
  | readonlyPath path => "Path is not writable: `" ++ path ++ "`"
  | emptyPath => "Cannot set a value at the empty path"
  | notAContainer path key kind =>
    "Cannot create property '" ++ key ++ "' on " ++ kind.text ++ location path
  | indexOutOfBounds path index length =>
    "Index " ++ toString index ++ " is out of bounds for array of length " ++ toString length
      ++ location path

end Error

end TypedPaths

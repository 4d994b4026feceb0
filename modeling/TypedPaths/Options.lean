/-
TypedPaths/Options.lean

Options as JSON documents.

Design.  Every part may be left out, and then has its default.
-/
import TypedPaths.ValueType
import TypedPaths.Json.Parts

namespace TypedPaths

namespace ListingOptions

/-- The options of a document. -/
def ofDocument? (v : Json) : Option ListingOptions := do
  let [depth, writable] ← (← Parts.ofJson? v).select? ["depth", "only_writeable"] | none
  let default : ListingOptions := {}
  some ⟨← Parts.withDefault default.depth Json.nat? depth,
    ← Parts.withDefault default.writableOnly Json.bool? writable⟩

end ListingOptions

namespace AbsenceMarks

/-- The marks of a document. -/
def ofDocument? (v : Json) : Option AbsenceMarks := do
  let [union, index, optional] ← (← Parts.ofJson? v).select?
    ["no_unchecked_union_access", "no_unchecked_index_access", "no_unchecked_optional_access"]
    | none
  some ⟨← Parts.withDefault reading.union Json.bool? union,
    ← Parts.withDefault reading.index Json.bool? index,
    ← Parts.withDefault reading.optional Json.bool? optional⟩

end AbsenceMarks

end TypedPaths

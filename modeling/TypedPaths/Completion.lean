/-
TypedPaths/Completion.lean

The paths that continue a partial path.

Design.  All segments but the last lead to a shape, and the completions are the paths of that
shape, moved below these segments.  The levels are counted from there, so a path is completed
however long it is.  A partial path of less than two segments, or one that leads nowhere, is
completed from the root.
-/
import TypedPaths.ValueType

namespace TypedPaths.Schema

/-- The shape of the value that segments lead to, whatever their number. -/
def resolveParent (schema : Schema) (segments : List String) : Option Shape :=
  schema.resolve .writing (max resolveDepth segments.length) segments schema.root

/-- The paths that continue a partial path. -/
def completions (schema : Schema) (offset : String) (options : ListingOptions) :
    Except Error PatternSet :=
  options.validate.bind fun _ =>
    let segments := Path.segments offset
    let parent := segments.dropLast
    if parent = [] then schema.paths options
    else
      match schema.resolveParent parent with
      | some s =>
        .ok ((schema.patterns options.writableOnly options.depth s).below parent)
      | none => schema.paths options

end TypedPaths.Schema

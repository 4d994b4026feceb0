/-
TypedPaths/Data/Update.lean

Writing a value at a path.

Design.  All segments but the last must lead to a value, and that value must be able to hold the
last one: an object takes every name, an array takes a position it has or the one after its end.
What stands elsewhere is left as it is.  A failure names the place where the path leaves the data
and the segment that could not be used there.
-/
import TypedPaths.Data.Lookup
import TypedPaths.Error

namespace TypedPaths

namespace Json

/-- Replaces the part of a value that a segment names. -/
def withChild (v : Json) (segment : String) (child : Json) : Json :=
  match v with
  | object fields => object (Entries.insert segment child fields)
  | array items =>
    match Path.index? segment with
    | some i => array (items.set i child)
    | none => array items
  | v => v

/-- Puts a value under the segment `key` of the value at the place `trail`. -/
def assign (trail : List String) (key : String) (value : Json) : Json → Except Error Json
  | object fields => .ok (object (Entries.insert key value fields))
  | array items =>
    match Path.index? key with
    | none => .error (.notAContainer (Path.join trail) key .array)
    | some i =>
      if i < items.length then .ok (array (items.set i value))
      else if i = items.length then .ok (array (items ++ [value]))
      else .error (.indexOutOfBounds (Path.join trail) i items.length)
  | v => .error (.notAContainer (Path.join trail) key (.of v))

/-- Puts a value where the segments lead from the value at the place `trail`. -/
def update (value : Json) : (trail segments : List String) → Json → Except Error Json
  | _, [], _ => .error .emptyPath
  | trail, [key], v => assign trail key value v
  | trail, key :: next :: rest, v =>
    if (DataKind.of v).isContainer then
      match v.child? key with
      | some child =>
        (update value (trail ++ [key]) (next :: rest) child).map fun c => v.withChild key c
      | none => .error (.notAContainer (Path.join (trail ++ [key])) next .undefined)
    else .error (.notAContainer (Path.join trail) key (.of v))

/-- Puts a value at a path. -/
def set (data : Json) (path : String) (value : Json) : Except Error Json :=
  update value [] (Path.segments path) data

end Json

end TypedPaths

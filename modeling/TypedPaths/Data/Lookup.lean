/-
TypedPaths/Data/Lookup.lean

The value at a path.

Design.  A segment names the entry of an object, or the item of an array when it stands for a
position; no other value has parts.  The value at a path is found one segment at a time, so that
looking up two paths in a row is looking up their concatenation (`Json.lookup_append`).
-/
import TypedPaths.Json.Value
import TypedPaths.Path

namespace TypedPaths

namespace Json

/-- The part of a value that a segment names. -/
def child? (segment : String) : Json → Option Json
  | object fields => Entries.find? segment fields
  | array items => (Path.index? segment).bind fun i => items[i]?
  | _ => none

/-- The value that segments lead to. -/
def lookup? : List String → Json → Option Json
  | [], v => some v
  | segment :: rest, v => (v.child? segment).bind (lookup? rest)

/-- What a path leads to is found by going the first part of it, and on from there. -/
theorem lookup_append (xs ys : List String) (v : Json) :
    lookup? (xs ++ ys) v = (lookup? xs v).bind (lookup? ys) := by
  induction xs generalizing v with
  | nil => rfl
  | cons x xs ih =>
    show (v.child? x).bind (lookup? (xs ++ ys)) = ((v.child? x).bind (lookup? xs)).bind (lookup? ys)
    rw [Option.bind_assoc]
    exact congrArg _ (funext ih)

/-- The value at a path. -/
def get? (data : Json) (path : String) : Option Json := lookup? (Path.segments path) data

end Json

end TypedPaths

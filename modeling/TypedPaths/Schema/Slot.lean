/-
TypedPaths/Schema/Slot.lean

Slots: the places below a shape.

Design.  A concrete container has a list of slots, each under the pattern part that covers its
segments: one for every position of a tuple and every field that a segment can name, and one for
the items of an array or the keys of an index signature.  The listing of paths and the type of
the value at a path are both read off this list: a listing goes through all slots, and a segment
stands for the first slot that covers it, so that a field comes before the index signature beside
it.
-/
import TypedPaths.Path.Pattern
import TypedPaths.Shape

namespace TypedPaths

/-- How sure it is that a slot holds a value. -/
inductive Presence where
  /-- The slot always holds one. -/
  | certain
  /-- An optional field: the slot may be left out. -/
  | optional
  /-- An item of an array or a key of an index signature: the slot need not exist. -/
  | unchecked
deriving DecidableEq

/-- A place below a shape. -/
structure Slot where
  shape : Shape
  readonly : Bool
  presence : Presence
deriving DecidableEq

/-- The slot of the keys that an index signature accepts, if any text is one. -/
def IndexSignature.slots (index : IndexSignature Shape) : List (PatternPart × Slot) :=
  let slot : Slot := ⟨index.value, index.readonly, .unchecked⟩
  if index.acceptsStrings then [(.anyKey, slot)]
  else if index.acceptsNumbers then [(.anyIndex, slot)]
  else []

/-- The slot of a field. -/
def Field.slot (field : Field Shape) : PatternPart × Slot :=
  (.key field.name,
    ⟨field.shape, field.readonly, if field.optional then .optional else .certain⟩)

namespace Shape

/-- The slots of a concrete shape, in the order in which they are tried. -/
def slots : Shape → List (PatternPart × Slot)
  | array s r => [(.anyIndex, ⟨s, r, .unchecked⟩)]
  | tuple ss r => ss.zipIdx.map fun (s, i) => (.index i, ⟨s, r, .certain⟩)
  | record i => i.slots
  | struct fs i =>
    (fs.filter Field.isAddressable).map Field.slot
      ++ match i with
        | some i => i.slots
        | none => []
  | _ => []

/-- The slot that a segment stands for. -/
def slot? (s : Shape) (segment : String) : Option Slot :=
  (s.slots.find? fun p => p.1.covers segment).map Prod.snd

end Shape

end TypedPaths

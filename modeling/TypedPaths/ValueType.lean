/-
TypedPaths/ValueType.lean

The shape of the value at a path.

Design.  A segment selects a slot of the shape it is applied to, and the rest of the path is
applied to the slot's shape.  A union gives the union of what its members give.  Nullish members
are passed over.  Each step that may find nothing, as an item of an array, an optional field or a
member of a union without the slot, adds `undefined` to the result where its flag in
`AbsenceMarks` says so; no flag changes which paths are possible.

When more levels are asked for than the budget allows, nothing is known about the result.
-/
import TypedPaths.Listing

namespace TypedPaths

/-! ### Absence marks -/

/-- The steps that add `undefined` to the shape found. -/
structure AbsenceMarks where
  /-- A slot that some members of a union lack. -/
  union : Bool := true
  /-- An item of an array, or a key of an index signature. -/
  index : Bool := true
  /-- An optional field, or a part of a nullable value. -/
  optional : Bool := true
deriving DecidableEq

namespace AbsenceMarks

/-- The shape of a value that is read: every step that may find nothing is marked. -/
def reading : AbsenceMarks := {}

/-- The shape of a value to be written: no step is marked. -/
def writing : AbsenceMarks := ⟨false, false, false⟩

end AbsenceMarks

/-- The shape, with `undefined` added if it is marked. -/
def Shape.markIf (mark : Bool) (s : Shape) : Shape := if mark then s.orUndefined else s

/-! ### One segment -/

namespace Shape

/-- What a segment finds in a concrete shape, where `enter` goes on from a slot. -/
def select (enter : Slot → Option Shape) (segment : String) : Shape → Option Shape
  | any => some any
  | unknown => some unknown
  | s => (s.slot? segment).bind enter

/-- Whether a segment finds something in a concrete shape. -/
def defines (segment : String) : Shape → Bool
  | any => true
  | unknown => true
  | s => (s.slot? segment).isSome

end Shape

namespace Expansion

mutual

/-- Whether a segment finds something in a concrete shape of the expansion. -/
def defines (segment : String) : Expansion → Bool
  | leaf s => s.defines segment
  | union members => definesAny segment members

/-- Whether a segment finds something in one of the members. -/
def definesAny (segment : String) : List (Shape × Expansion) → Bool
  | [] => false
  | (_, e) :: rest => defines segment e || definesAny segment rest

end

/-- Whether there are values, but the segment finds nothing in them. -/
def lacks (segment : String) (e : Expansion) : Bool := !e.kind.isNever && !e.defines segment

/-- What a union finds, of what each of its members finds. -/
def combine (marks : AbsenceMarks) (segment : String) (found : List (Expansion × Option Shape)) :
    Option Shape :=
  match found.filterMap Prod.snd with
  | [] => none
  | values =>
    some ((Shape.unionOf values).markIf
      (marks.union && found.any fun (e, _) => e.lacks segment))

/-- What a segment finds in an expansion without nullish members and without nested unions. -/
def selectFlat (marks : AbsenceMarks) (enter : Slot → Option Shape) (segment : String) :
    Expansion → Option Shape
  | leaf s => s.select enter segment
  | union members =>
    combine marks segment <| members.map fun
      | (_, leaf s) => (leaf s, s.select enter segment)
      | (_, union inner) => (union inner, none)

mutual

/-- What a segment finds in the shape `s`, which has this expansion; `expand` expands what is left
of a nullable shape. -/
def select (marks : AbsenceMarks) (expand : Shape → Expansion) (enter : Slot → Option Shape)
    (segment : String) (s : Shape) : Expansion → Option Shape
  | leaf t => t.select enter segment
  | union members =>
    match kind (union members) with
    | .any => some .any
    | .unknown => some .unknown
    | .nullable _ =>
      (selectFlat marks enter segment (expand (strip s (union members)))).map
        (Shape.markIf marks.optional)
    | _ => combine marks segment (selectMembers marks expand enter segment members)

/-- What a segment finds in each member of a union. -/
def selectMembers (marks : AbsenceMarks) (expand : Shape → Expansion)
    (enter : Slot → Option Shape) (segment : String) :
    List (Shape × Expansion) → List (Expansion × Option Shape)
  | [] => []
  | (s, e) :: rest =>
    (e, select marks expand enter segment s e)
      :: selectMembers marks expand enter segment rest

end

end Expansion

/-! ### Paths -/

namespace Schema

/-- The shape that segments lead to from a shape, over at most `b` levels. -/
def resolve (schema : Schema) (marks : AbsenceMarks) :
    (b : Budget) → List String → Shape → Option Shape
  | _, [], s => some s
  | 0, _ :: _, _ => some .unknown
  | b + 1, segment :: rest, s =>
    let enter (slot : Slot) : Option Shape :=
      match slot.presence with
      | .certain => resolve schema marks b rest slot.shape
      | .unchecked => (resolve schema marks b rest slot.shape).map (Shape.markIf marks.index)
      | .optional =>
        if rest = [] then some slot.shape.orUndefined
        else
          (resolve schema marks b rest (schema.strip slot.shape)).map
            (Shape.markIf marks.optional)
    (schema.expand s).select marks schema.expand enter segment s

/-- The number of levels in which the shape of a value is looked for. -/
def resolveDepth : Budget := 25

/-- The shape that a path leads to from a shape. -/
def shapeBelow (schema : Schema) (marks : AbsenceMarks) (b : Budget) (s : Shape) (path : String) :
    Except Error Shape :=
  match schema.resolve marks b (Path.segments path) s with
  | some t => .ok t
  | none => .error (.invalidPath path)

/-- The shape of the value at a path. -/
def valueType (schema : Schema) (marks : AbsenceMarks) (path : String) : Except Error Shape :=
  schema.shapeBelow marks resolveDepth schema.root path

end Schema

end TypedPaths

/-
TypedPaths/Schema.lean

Schemas: a shape with definitions for the names it refers to.

Design.  A reference is followed through the definitions until it reaches a shape that is none.
The names on the way are distinct, so as many steps as there are definitions are enough.

A schema is valid if every reference in it reaches a shape, and if no shape is reached from
itself by passing through references and members of unions alone: such a shape would have no
outermost form.  Cycles through the parts of containers are what describes recursive data.
-/
import TypedPaths.Error
import TypedPaths.Shape
import TypedPaths.Order.SortedMap

namespace TypedPaths

/-- A shape, and the shapes that names in it stand for. -/
structure Schema where
  root : Shape
  definitions : SortedMap Shape := .empty
deriving DecidableEq, Inhabited

/-! ### References in a shape -/

namespace Shape

mutual

/-- The names that a shape refers to anywhere, in the order they stand. -/
def refs : Shape → List String
  | ref n => [n]
  | array s _ => refs s
  | tuple ss _ => refsList ss
  | record i => refsIndex i
  | struct fs i => refsFields fs ++ refsIndex? i
  | union ss => refsList ss
  | _ => []

/-- The names that shapes refer to. -/
def refsList : List Shape → List String
  | [] => []
  | s :: ss => refs s ++ refsList ss

/-- The names that the shapes of fields refer to. -/
def refsFields : List (Field Shape) → List String
  | [] => []
  | ⟨_, s, _, _, _⟩ :: fs => refs s ++ refsFields fs

/-- The names that the shape of an index signature refers to. -/
def refsIndex : IndexSignature Shape → List String
  | ⟨_, s, _⟩ => refs s

/-- The names that the shape of an optional index signature refers to. -/
def refsIndex? : Option (IndexSignature Shape) → List String
  | none => []
  | some i => refsIndex i

end

mutual

/-- The names that a shape refers to itself or as a member of a union, also of a union inside a
union, in the order they stand. -/
def headRefs : Shape → List String
  | ref n => [n]
  | union ss => headRefsList ss
  | _ => []

/-- The names that shapes refer to themselves or as members of unions. -/
def headRefsList : List Shape → List String
  | [] => []
  | s :: ss => headRefs s ++ headRefsList ss

end

end Shape

namespace Schema

/-! ### Following references -/

/-- Follows references from a shape, over at most `steps` definitions other than those `seen`. -/
def derefWithin (schema : Schema) : (steps : Nat) → (seen : List String) → Shape →
    Except Error Shape
  | steps, seen, .ref name =>
    if name ∈ seen then .error (.referenceCycle name)
    else
      match steps, schema.definitions.find? name with
      | steps + 1, some s => derefWithin schema steps (name :: seen) s
      | _, _ => .error (.unknownReference name)
  | _, _, s => .ok s

/-- The shape that a shape stands for: itself, or where its reference leads to. -/
def deref (schema : Schema) (s : Shape) : Except Error Shape :=
  schema.derefWithin schema.definitions.size [] s

/-! ### Validity -/

/-- Checks that no name is reached from itself through references and unions, starting from
`names` below the names `visiting`, over at most `steps` other definitions. -/
def checkCyclesWithin (schema : Schema) : (steps : Nat) → (visiting names : List String) →
    Except Error Unit
  | 0, visiting, names =>
    names.forM fun name =>
      .error (if name ∈ visiting then .referenceCycle name else .unknownReference name)
  | steps + 1, visiting, names =>
    names.forM fun name =>
      if name ∈ visiting then .error (.referenceCycle name)
      else
        match schema.definitions.find? name with
        | some s => checkCyclesWithin schema steps (name :: visiting) s.headRefs
        | none => .error (.unknownReference name)

/-- Checks that no name is reached from itself through references and unions below a shape. -/
def checkCycles (schema : Schema) (s : Shape) : Except Error Unit :=
  schema.checkCyclesWithin schema.definitions.size [] s.headRefs

/-- The root and the definitions in the order of their names. -/
def shapes (schema : Schema) : List Shape := schema.root :: schema.definitions.values

/-- Checks that every reference reaches a shape, and then that no shape is reached from itself
through references and unions. -/
def validate (schema : Schema) : Except Error Unit := do
  (schema.shapes.flatMap Shape.refs).forM fun name => discard (schema.deref (.ref name))
  schema.shapes.forM schema.checkCycles

/-- The schema passes validation. -/
def Valid (schema : Schema) : Prop := schema.validate = .ok ()

instance (schema : Schema) : Decidable schema.Valid :=
  match h : schema.validate with
  | .ok () => isTrue h
  | .error _ => isFalse fun hv => by rw [Valid, h] at hv; cases hv

end Schema

end TypedPaths

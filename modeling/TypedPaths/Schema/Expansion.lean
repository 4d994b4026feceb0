/-
TypedPaths/Schema/Expansion.lean

Expansions: what a shape stands for once its references are followed.

Design.  The expansion of a shape is its outermost form: a single concrete shape, or a union of
expansions, each beside the member it comes from.  References inside the parts of a concrete
shape stay as they are.  In a valid schema the definitions that are passed on the way are distinct,
so one step more than there are definitions reaches every concrete shape, whichever shape the way
starts from; a reference that leads nowhere stands for `never`, the shape without values.

All that the other modules ask of the outermost form of a shape is answered here by recursion on
the expansion: whether it is nullish, and what is left of it without its nullish members.
-/
import TypedPaths.Schema
import TypedPaths.Shape.Union

namespace TypedPaths

/-- The outermost form of a shape. -/
inductive Expansion where
  /-- A shape that is neither a reference nor a union. -/
  | leaf (s : Shape)
  /-- A union: the members, and what they stand for. -/
  | union (members : List (Shape × Expansion))
deriving Inhabited

/-! ### Expanding a shape -/

namespace Shape

mutual

/-- The outermost form of a shape whose references stand for `follow`. -/
def expandWith (follow : String → Expansion) : Shape → Expansion
  | ref n => follow n
  | union ss => .union (expandMembers follow ss)
  | s => .leaf s

/-- The members of a union beside their outermost forms. -/
def expandMembers (follow : String → Expansion) : List Shape → List (Shape × Expansion)
  | [] => []
  | s :: ss => (s, expandWith follow s) :: expandMembers follow ss

end

theorem expandMembers_eq_map (follow : String → Expansion) (ss : List Shape) :
    expandMembers follow ss = ss.map fun s => (s, s.expandWith follow) := by
  induction ss with
  | nil => rfl
  | cons s ss ih => simp [expandMembers, ih]

/-- Whether the shape holds nothing but `null` or `undefined`. -/
def isNullish (s : Shape) : Bool := s = null ∨ s = undefined

end Shape

namespace Schema

/-- The outermost form of a shape, with at most `steps` references followed one after another. -/
def expandWithin (schema : Schema) : (steps : Nat) → Shape → Expansion
  | 0, s => s.expandWith fun _ => .leaf .never
  | steps + 1, s => s.expandWith fun name =>
    match schema.definitions.find? name with
    | some t => expandWithin schema steps t
    | none => .leaf .never

/-- The outermost form of a shape. -/
def expand (schema : Schema) (s : Shape) : Expansion :=
  schema.expandWithin (schema.definitions.size + 1) s

end Schema

/-! ### Nullish members -/

namespace Expansion

/-- Whether the expansion is `null` or `undefined`, and not a union of them. -/
def isNullish : Expansion → Bool
  | leaf s => s.isNullish
  | union _ => false

mutual

/-- The shape `s`, which has this expansion, without its nullish members at any depth. -/
def strip (s : Shape) : Expansion → Shape
  | leaf t => if t.isNullish then .never else s
  | union members => .unionOf (stripMembers members)

/-- The members that are not nullish, each of them stripped. -/
def stripMembers : List (Shape × Expansion) → List Shape
  | [] => []
  | (s, e) :: rest => if e.isNullish then stripMembers rest else strip s e :: stripMembers rest

end

mutual

/-- Whether `null` or `undefined` is the expansion or a member of it at any depth. -/
def hasNullish : Expansion → Bool
  | leaf t => t.isNullish
  | union members => hasNullishAny members

/-- Whether `null` or `undefined` is a member of one of the expansions. -/
def hasNullishAny : List (Shape × Expansion) → Bool
  | [] => false
  | (_, e) :: rest => hasNullish e || hasNullishAny rest

end

end Expansion

namespace Schema

/-- Whether a shape stands for `null` or `undefined`, and not for a union of them. -/
def isNullish (schema : Schema) (s : Shape) : Bool := (schema.expand s).isNullish

/-- The shape without its nullish members at any depth; a shape that stands for no union and is
not nullish is left as it is. -/
def strip (schema : Schema) (s : Shape) : Shape := (schema.expand s).strip s

/-- Whether `null` or `undefined` is the shape or a member of it at any depth. -/
def hasNullish (schema : Schema) (s : Shape) : Bool := (schema.expand s).hasNullish

end Schema

end TypedPaths

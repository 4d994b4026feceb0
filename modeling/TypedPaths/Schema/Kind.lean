/-
TypedPaths/Schema/Kind.lean

Kinds of shapes: how a shape is traversed.

Design.  The kind of a shape depends on its expansion alone.  A union takes the kind of its
members where they agree on it: `any` wins over all, then `unknown`; members without values do
not count; a union of values without parts is one itself.  A union with some nullish members and
some others is nullable: its other members are what can be traversed.
-/
import TypedPaths.Schema.Expansion

namespace TypedPaths

/-- How a shape is traversed. -/
inductive Kind where
  | any
  | unknown
  | never
  /-- Values without parts. -/
  | primitive
  /-- A union of nullish members and others. -/
  | nullable (members : List Shape)
  | tuple (elements : List Shape) (readonly : Bool)
  | array (element : Shape) (readonly : Bool)
  /-- Fields, and an index signature for the other keys. -/
  | indexed (fields : List (Field Shape)) (index : IndexSignature Shape)
  | struct (fields : List (Field Shape))
  | union (members : List Shape)
deriving DecidableEq

namespace Kind

/-- Every value, with all parts allowed. -/
def isAny : Kind → Bool
  | any => true
  | _ => false

/-- Every value, with no parts known. -/
def isUnknown : Kind → Bool
  | unknown => true
  | _ => false

/-- No value. -/
def isNever : Kind → Bool
  | never => true
  | _ => false

/-- Values without parts. -/
def isPrimitive : Kind → Bool
  | primitive => true
  | _ => false

/-- Lists of any length. -/
def isArray : Kind → Bool
  | array _ _ => true
  | _ => false

/-- Lists of one length. -/
def isTuple : Kind → Bool
  | tuple _ _ => true
  | _ => false

/-- Objects with keys that no field names. -/
def hasIndexSignature : Kind → Bool
  | indexed _ _ => true
  | _ => false

/-- Whether nothing can be below. -/
def isTerminal (k : Kind) : Bool := k.isPrimitive || k.isNever || k.isUnknown

/-- The kind of a concrete shape. -/
def ofConcrete : Shape → Kind
  | .any => any
  | .unknown => unknown
  | .never => never
  | .primitive _ => primitive
  | .literal _ => primitive
  | .array s r => array s r
  | .tuple ss r => tuple ss r
  | .record i => indexed [] i
  | .struct fs (some i) => indexed fs i
  | .struct fs none => struct fs
  | .union _ => never
  | .ref _ => never

/-- The kind of a union: of its members, the kinds of these, and the number of the nullish. -/
def ofMembers (members : List Shape) (kinds : List Kind) (nullish : Nat) : Kind :=
  if kinds.any isAny then any
  else if kinds.any isUnknown then unknown
  else if kinds.all isNever then never
  else if 0 < nullish ∧ nullish < (kinds.filter fun k => !k.isNever).length then nullable members
  else if kinds.all fun k => k.isPrimitive || k.isNever then primitive
  else union members

end Kind

namespace Expansion

mutual

/-- The kind of a shape with this expansion. -/
def kind : Expansion → Kind
  | leaf s => .ofConcrete s
  | union members =>
    .ofMembers (members.map Prod.fst) (kinds members)
      (members.countP fun m => m.2.isNullish)

/-- The kinds of the members of a union. -/
def kinds : List (Shape × Expansion) → List Kind
  | [] => []
  | (_, e) :: rest => kind e :: kinds rest

end

theorem kinds_eq_map (members : List (Shape × Expansion)) :
    kinds members = members.map fun m => m.2.kind := by
  induction members with
  | nil => rfl
  | cons m rest ih => obtain ⟨s, e⟩ := m; simp [kinds, ih]

end Expansion

/-- The kind of a shape; a reference that leads nowhere has no values. -/
def Schema.kind (schema : Schema) (s : Shape) : Kind := (schema.expand s).kind

end TypedPaths

/-
TypedPaths/Shape.lean

Shapes: structural descriptions of values.

Design.  Fields and index signatures are structures over the type of the shapes they hold, so
that a shape can hold lists of them and they keep their projections.  A shape refers to a named
shape by its name alone; what the name stands for is the business of the schema around it.
`Shape.Same` is the equality of shapes by which unions drop repeated members: it is equality up
to the sign of a zero in a literal.

Main results:
* equality of shapes is decidable;
* `Shape.same_refl`, `Shape.Same.symm`, `Shape.Same.trans`: sameness is an equivalence.
-/
import TypedPaths.Json.Value

namespace TypedPaths

/-! ### The types -/

/-- The types of values without parts. -/
inductive Primitive where
  | string
  | number
  | boolean
  | bigint
  | symbol
  | undefined
  | null
deriving DecidableEq, Inhabited

/-- The kinds of keys that an index signature may accept. -/
inductive KeyKind where
  | string
  | number
  | symbol
deriving DecidableEq, Inhabited

/-- Keys of the given kinds, all with values of one shape. -/
structure IndexSignature (S : Type) where
  keys : List KeyKind
  value : S
  readonly : Bool := false
deriving DecidableEq

/-- A named field of a struct. -/
structure Field (S : Type) where
  name : String
  shape : S
  optional : Bool := false
  readonly : Bool := false
  /-- The key is a symbol, which no text names; `name` only describes it. -/
  symbol : Bool := false
deriving DecidableEq

/-- A description of values. -/
inductive Shape where
  | primitive (type : Primitive)
  /-- One value. -/
  | literal (value : Literal)
  | any
  | unknown
  | never
  /-- Lists of any length, with items of one shape. -/
  | array (element : Shape) (readonly : Bool)
  /-- Lists of one length, with a shape for each position. -/
  | tuple (elements : List Shape) (readonly : Bool)
  /-- An index signature and no fields. -/
  | record (index : IndexSignature Shape)
  /-- Fields, and for the other keys an index signature if there is one. -/
  | struct (fields : List (Field Shape)) (index : Option (IndexSignature Shape))
  /-- Values of any of the members. -/
  | union (members : List Shape)
  /-- The shape that a schema gives this name. -/
  | ref (name : String)
deriving Inhabited

namespace IndexSignature

variable {S : Type}

/-- Whether every text is accepted as a key. -/
def acceptsStrings (index : IndexSignature S) : Bool := index.keys.contains .string

/-- Whether positions are accepted as keys; where every text is, they are too. -/
def acceptsNumbers (index : IndexSignature S) : Bool :=
  index.keys.contains .number || index.acceptsStrings

end IndexSignature

namespace Field

variable {S : Type}

/-- Whether a segment of a path can name the field. -/
def isAddressable (field : Field S) : Bool := !field.symbol && !field.name.toList.contains '.'

/-- Whether the field can be assigned to. -/
def isWritable (field : Field S) : Bool := !field.readonly

end Field

namespace Shape

/-- The shape of `undefined`, which marks a value that may be absent. -/
abbrev undefined : Shape := primitive .undefined

/-- The shape of `null`. -/
abbrev null : Shape := primitive .null

/-! ### Equality is decidable -/

mutual

/-- Whether two shapes are equal. -/
def beq : Shape → Shape → Bool
  | primitive p, primitive q => p == q
  | literal v, literal w => v == w
  | any, any => true
  | unknown, unknown => true
  | never, never => true
  | array s r, array t q => beq s t && r == q
  | tuple ss r, tuple ts q => beqList ss ts && r == q
  | record i, record j => beqIndex i j
  | struct fs i, struct gs j => beqFields fs gs && beqIndex? i j
  | union ss, union ts => beqList ss ts
  | ref m, ref n => m == n
  | _, _ => false

/-- Whether two lists of shapes are equal. -/
def beqList : List Shape → List Shape → Bool
  | [], [] => true
  | s :: ss, t :: ts => beq s t && beqList ss ts
  | _, _ => false

/-- Whether two lists of fields are equal. -/
def beqFields : List (Field Shape) → List (Field Shape) → Bool
  | [], [] => true
  | ⟨m, s, o, r, y⟩ :: fs, ⟨n, t, p, q, z⟩ :: gs =>
    m == n && beq s t && o == p && r == q && y == z && beqFields fs gs
  | _, _ => false

/-- Whether two index signatures are equal. -/
def beqIndex : IndexSignature Shape → IndexSignature Shape → Bool
  | ⟨ks, s, r⟩, ⟨ls, t, q⟩ => ks == ls && beq s t && r == q

/-- Whether two optional index signatures are equal. -/
def beqIndex? : Option (IndexSignature Shape) → Option (IndexSignature Shape) → Bool
  | none, none => true
  | some i, some j => beqIndex i j
  | _, _ => false

end

mutual

/-- The comparison decides equality. -/
theorem beq_iff : ∀ s t : Shape, beq s t = true ↔ s = t
  | primitive _, t => by cases t <;> simp [beq]
  | literal _, t => by cases t <;> simp [beq]
  | any, t => by cases t <;> simp [beq]
  | unknown, t => by cases t <;> simp [beq]
  | never, t => by cases t <;> simp [beq]
  | array s _, t => by cases t <;> simp [beq, beq_iff s]
  | tuple ss _, t => by cases t <;> simp [beq, beqList_iff ss]
  | record i, t => by cases t <;> simp [beq, beqIndex_iff i]
  | struct fs i, t => by cases t <;> simp [beq, beqFields_iff fs, beqIndex?_iff i]
  | union ss, t => by cases t <;> simp [beq, beqList_iff ss]
  | ref _, t => by cases t <;> simp [beq]

theorem beqList_iff : ∀ ss ts : List Shape, beqList ss ts = true ↔ ss = ts
  | [], ts => by cases ts <;> simp [beqList]
  | s :: ss, ts => by cases ts <;> simp [beqList, beq_iff s, beqList_iff ss]

theorem beqFields_iff : ∀ fs gs : List (Field Shape), beqFields fs gs = true ↔ fs = gs
  | [], gs => by cases gs <;> simp [beqFields]
  | ⟨_, s, _, _, _⟩ :: fs, gs => by
    rcases gs with - | ⟨⟨n, t, p, q, z⟩, gs⟩
    · simp [beqFields]
    · simp [beqFields, beq_iff s, beqFields_iff fs, and_assoc]

theorem beqIndex_iff : ∀ i j : IndexSignature Shape, beqIndex i j = true ↔ i = j
  | ⟨_, s, _⟩, ⟨_, t, _⟩ => by simp [beqIndex, beq_iff s, and_assoc]

theorem beqIndex?_iff :
    ∀ i j : Option (IndexSignature Shape), beqIndex? i j = true ↔ i = j
  | none, j => by cases j <;> simp [beqIndex?]
  | some i, j => by cases j <;> simp [beqIndex?, beqIndex_iff i]

end

instance : DecidableEq Shape := fun s t => decidable_of_iff (beq s t = true) (beq_iff s t)

/-! ### Sameness -/

mutual

/-- The shape with the sign of every zero dropped in its literals. -/
def unsignedZero : Shape → Shape
  | literal v => literal v.unsignedZero
  | array s r => array (unsignedZero s) r
  | tuple ss r => tuple (unsignedZeroList ss) r
  | record i => record (unsignedZeroIndex i)
  | struct fs i => struct (unsignedZeroFields fs) (unsignedZeroIndex? i)
  | union ss => union (unsignedZeroList ss)
  | s => s

/-- The shapes with the sign of every zero dropped. -/
def unsignedZeroList : List Shape → List Shape
  | [] => []
  | s :: ss => unsignedZero s :: unsignedZeroList ss

/-- The fields with the sign of every zero dropped. -/
def unsignedZeroFields : List (Field Shape) → List (Field Shape)
  | [] => []
  | ⟨n, s, o, r, y⟩ :: fs => ⟨n, unsignedZero s, o, r, y⟩ :: unsignedZeroFields fs

/-- The index signature with the sign of every zero dropped. -/
def unsignedZeroIndex : IndexSignature Shape → IndexSignature Shape
  | ⟨ks, s, r⟩ => ⟨ks, unsignedZero s, r⟩

/-- The optional index signature with the sign of every zero dropped. -/
def unsignedZeroIndex? : Option (IndexSignature Shape) → Option (IndexSignature Shape)
  | none => none
  | some i => some (unsignedZeroIndex i)

end

/-- Equality of shapes: the two zeros of binary64 are one. -/
def Same (s t : Shape) : Prop := s.unsignedZero = t.unsignedZero

instance (s t : Shape) : Decidable (s.Same t) := inferInstanceAs (Decidable (_ = _))

@[simp] theorem same_refl (s : Shape) : s.Same s := rfl

theorem Same.symm {s t : Shape} (h : s.Same t) : t.Same s := Eq.symm h

theorem Same.trans {s t u : Shape} (h : s.Same t) (k : t.Same u) : s.Same u := Eq.trans h k

end Shape

end TypedPaths

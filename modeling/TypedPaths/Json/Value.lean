/-
TypedPaths/Json/Value.lean

JSON values.

Design.  An object is a list of entries in the order of its text; `Json.canonical` puts the
entries of every object in increasing order of their names and keeps the last of equal names, and
`Json.Canonical` says of a value that this changes nothing.  Values read from text as data are
canonical.  `Json.Same` is the equality of values: it does not tell the two zeros of binary64
apart.

Main results:
* `Json.canonical_canonical`: making a value canonical twice is the same as once.
* `Json.same_refl`, `Json.Same.symm`, `Json.Same.trans`: sameness is an equivalence.
-/
import TypedPaths.Json.Number
import TypedPaths.Order.SortedMap

namespace TypedPaths

/-- A JSON value. -/
inductive Json where
  | null
  | bool (b : Bool)
  | number (n : Number)
  | string (s : String)
  | array (items : List Json)
  | object (fields : List (String × Json))
deriving Inhabited

namespace Json

/-! ### Equality is decidable -/

mutual

/-- Whether two values are equal. -/
def beq : Json → Json → Bool
  | null, null => true
  | bool a, bool b => a == b
  | number a, number b => a == b
  | string a, string b => a == b
  | array a, array b => beqItems a b
  | object a, object b => beqFields a b
  | _, _ => false

/-- Whether two lists of values are equal. -/
def beqItems : List Json → List Json → Bool
  | [], [] => true
  | a :: as, b :: bs => beq a b && beqItems as bs
  | _, _ => false

/-- Whether two lists of entries are equal. -/
def beqFields : List (String × Json) → List (String × Json) → Bool
  | [], [] => true
  | (m, a) :: as, (n, b) :: bs => m == n && beq a b && beqFields as bs
  | _, _ => false

end

mutual

/-- The comparison decides equality. -/
theorem beq_iff : ∀ a b : Json, beq a b = true ↔ a = b
  | null, b => by cases b <;> simp [beq]
  | bool _, b => by cases b <;> simp [beq]
  | number _, b => by cases b <;> simp [beq]
  | string _, b => by cases b <;> simp [beq]
  | array as, b => by cases b <;> simp [beq, beqItems_iff as]
  | object as, b => by cases b <;> simp [beq, beqFields_iff as]

theorem beqItems_iff : ∀ as bs : List Json, beqItems as bs = true ↔ as = bs
  | [], bs => by cases bs <;> simp [beqItems]
  | a :: as, bs => by cases bs <;> simp [beqItems, beq_iff a, beqItems_iff as]

theorem beqFields_iff : ∀ as bs : List (String × Json), beqFields as bs = true ↔ as = bs
  | [], bs => by cases bs <;> simp [beqFields]
  | (m, a) :: as, bs => by
    rcases bs with - | ⟨⟨n, b⟩, bs⟩ <;> simp [beqFields, beq_iff a, beqFields_iff as]

end

instance : DecidableEq Json := fun a b => decidable_of_iff (beq a b = true) (beq_iff a b)

/-! ### Canonical form -/

mutual

/-- The value with the entries of every object in increasing order of their names, of several
entries of one name the last. -/
def canonical : Json → Json
  | array items => array (canonicalItems items)
  | object fields => object (Entries.sortLast (canonicalFields fields))
  | v => v

/-- The canonical forms of the items. -/
def canonicalItems : List Json → List Json
  | [] => []
  | v :: vs => canonical v :: canonicalItems vs

/-- The entries with the canonical forms of their values, in the order they stand. -/
def canonicalFields : List (String × Json) → List (String × Json)
  | [] => []
  | (n, v) :: fs => (n, canonical v) :: canonicalFields fs

end

theorem canonicalItems_eq_map (items : List Json) : canonicalItems items = items.map canonical := by
  induction items with
  | nil => rfl
  | cons v vs ih => simp [canonicalItems, ih]

theorem canonicalFields_eq_mapValues (fields : List (String × Json)) :
    canonicalFields fields = Entries.mapValues canonical fields := by
  induction fields with
  | nil => rfl
  | cons f fs ih => obtain ⟨n, v⟩ := f; simp [canonicalFields, ih, Entries.mapValues]

/-- Whether the entries of every object increase. -/
def Canonical (v : Json) : Prop := v.canonical = v

instance (v : Json) : Decidable v.Canonical := inferInstanceAs (Decidable (_ = _))

mutual

/-- Making a value canonical twice is the same as once. -/
theorem canonical_canonical : ∀ v : Json, v.canonical.canonical = v.canonical
  | null | bool _ | number _ | string _ => by simp [canonical]
  | array items => by simp [canonical, canonicalItems_canonicalItems items]
  | object fields => by
    simp only [canonical, object.injEq]
    rw [canonicalFields_eq_mapValues (Entries.sortLast _), Entries.mapValues_sortLast,
      Entries.sortLast_sortLast, ← canonicalFields_eq_mapValues,
      canonicalFields_canonicalFields fields]

theorem canonicalItems_canonicalItems :
    ∀ items : List Json, canonicalItems (canonicalItems items) = canonicalItems items
  | [] => rfl
  | v :: vs => by
    simp [canonicalItems, canonical_canonical v, canonicalItems_canonicalItems vs]

theorem canonicalFields_canonicalFields :
    ∀ fields : List (String × Json),
      canonicalFields (canonicalFields fields) = canonicalFields fields
  | [] => rfl
  | (n, v) :: fs => by
    simp [canonicalFields, canonical_canonical v, canonicalFields_canonicalFields fs]

end

theorem canonical_isCanonical (v : Json) : v.canonical.Canonical := canonical_canonical v

/-! ### Sameness -/

mutual

/-- The value with the sign of every zero dropped. -/
def unsignedZero : Json → Json
  | number n => number n.unsignedZero
  | array items => array (unsignedZeroItems items)
  | object fields => object (unsignedZeroFields fields)
  | v => v

/-- The items with the sign of every zero dropped. -/
def unsignedZeroItems : List Json → List Json
  | [] => []
  | v :: vs => unsignedZero v :: unsignedZeroItems vs

/-- The entries with the sign of every zero dropped. -/
def unsignedZeroFields : List (String × Json) → List (String × Json)
  | [] => []
  | (n, v) :: fs => (n, unsignedZero v) :: unsignedZeroFields fs

end

theorem unsignedZeroFields_eq_mapValues (fields : List (String × Json)) :
    unsignedZeroFields fields = Entries.mapValues unsignedZero fields := by
  induction fields with
  | nil => rfl
  | cons f fs ih => obtain ⟨n, v⟩ := f; simp [unsignedZeroFields, ih, Entries.mapValues]

mutual

/-- Dropping the signs of zeros does not disturb the order of entries. -/
theorem canonical_unsignedZero : ∀ v : Json, v.unsignedZero.canonical = v.canonical.unsignedZero
  | null | bool _ | number _ | string _ => rfl
  | array items => by simp [canonical, unsignedZero, canonicalItems_unsignedZeroItems items]
  | object fields => by
    simp only [canonical, unsignedZero, object.injEq]
    rw [canonicalFields_unsignedZeroFields fields, unsignedZeroFields_eq_mapValues,
      unsignedZeroFields_eq_mapValues, Entries.mapValues_sortLast]

theorem canonicalItems_unsignedZeroItems : ∀ items : List Json,
    canonicalItems (unsignedZeroItems items) = unsignedZeroItems (canonicalItems items)
  | [] => rfl
  | v :: vs => by
    simp [canonicalItems, unsignedZeroItems, canonical_unsignedZero v,
      canonicalItems_unsignedZeroItems vs]

theorem canonicalFields_unsignedZeroFields : ∀ fields : List (String × Json),
    canonicalFields (unsignedZeroFields fields) = unsignedZeroFields (canonicalFields fields)
  | [] => rfl
  | (n, v) :: fs => by
    simp [canonicalFields, unsignedZeroFields, canonical_unsignedZero v,
      canonicalFields_unsignedZeroFields fs]

end

theorem unsignedZero_isCanonical (v : Json) (h : v.Canonical) : v.unsignedZero.Canonical := by
  show v.unsignedZero.canonical = v.unsignedZero
  rw [canonical_unsignedZero, h]

/-- Equality of values: the two zeros of binary64 are one. -/
def Same (v w : Json) : Prop := v.unsignedZero = w.unsignedZero

instance (v w : Json) : Decidable (v.Same w) := inferInstanceAs (Decidable (_ = _))

@[simp] theorem same_refl (v : Json) : v.Same v := rfl

theorem Same.symm {v w : Json} (h : v.Same w) : w.Same v := Eq.symm h

theorem Same.trans {u v w : Json} (h : u.Same v) (k : v.Same w) : u.Same w := Eq.trans h k

end Json

/-- A JSON value in canonical form, as shapes hold it. -/
structure Literal where
  value : Json
  canonical : value.Canonical
deriving DecidableEq

namespace Literal

/-- The literal of a value. -/
def ofJson (v : Json) : Literal := ⟨v.canonical, v.canonical_isCanonical⟩

@[simp] theorem ofJson_value (l : Literal) : ofJson l.value = l := by
  cases l with
  | mk v h => simp only [ofJson, mk.injEq]; exact h

instance : Inhabited Literal := ⟨⟨.null, rfl⟩⟩

/-- The literal with the sign of every zero dropped. -/
def unsignedZero (l : Literal) : Literal :=
  ⟨l.value.unsignedZero, l.value.unsignedZero_isCanonical l.canonical⟩

end Literal

end TypedPaths

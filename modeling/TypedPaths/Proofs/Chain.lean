/-
TypedPaths/Proofs/Chain.lean

Arrays directly around each other, and their text.

Design.  An array of arrays is a chain: there are so many arrays around each other (`layers`), and
inside them is something else (`core`).  The text of an array has the word `readonly` in front and
the brackets behind, with parentheses around the items only if they are a union.  So the text of a
chain has all its `readonly`s in front of the core and all its brackets behind (`chars_eq`), and does
not say which array a `readonly` belongs to.  A tuple inside the arrays is a part of the chain in
this respect, for its `readonly` stands in front of its brackets.

`readonlyFirst` puts the `readonly`s of every chain on its outer arrays.  This is how the text reads,
and it does not change the text (`text_readonlyFirst`).  It changes nothing at all where readonly
items lie only in readonly arrays (`readonlyFirst_eq_self`).

Main results: `chars_eq`, `lock_eq_lock`, `text_readonlyFirst`, `readonlyFirst_eq_self`.
-/
import TypedPaths.Shape.Text
import TypedPaths.Proofs.Boundary
import TypedPaths.Proofs.NormalForm
import TypedPaths.Proofs.Validity

namespace TypedPaths.Shape

variable {s t : Shape} {ss : List Shape} {r : Bool} {k n : Nat}

/-! ### Chains -/

/-- The shape is an array or a tuple that cannot be written into. -/
def IsReadonly : Shape → Prop
  | array _ true => True
  | tuple _ true => True
  | _ => False

/-- How many arrays lie directly around each other. -/
def layers : Shape → Nat
  | array s _ => layers s + 1
  | _ => 0

/-- What lies inside these arrays. -/
def core : Shape → Shape
  | array s _ => core s
  | s => s

/-- How many of these arrays are readonly, with the tuple inside them if it is one. -/
def readonlyCount : Shape → Nat
  | array s r => readonlyCount s + r.toNat
  | tuple _ r => r.toNat
  | _ => 0

/-- How many of them could be readonly. -/
def readonlyPlaces : Shape → Nat
  | array s _ => readonlyPlaces s + 1
  | tuple _ _ => 1
  | _ => 0

/-- There are no more `readonly`s in a chain than places for them. -/
theorem readonlyCount_le_places : ∀ s : Shape, s.readonlyCount ≤ s.readonlyPlaces
  | array s r => by
    have hs := readonlyCount_le_places s
    have hr := Bool.toNat_le r
    rw [readonlyCount, readonlyPlaces]
    omega
  | tuple _ r => Bool.toNat_le r
  | primitive _ | literal _ | any | unknown | never | record _ | struct _ _ | union _ | ref _ =>
    Nat.le_refl 0

/-! ### Moving `readonly` outwards -/

mutual

/-- The chain with the first `count` of its arrays readonly and the others not, and with the
`readonly`s of the chains inside it on their outer arrays. -/
def lock (count : Nat) : Shape → Shape
  | array s _ => array (lock (count - 1) s) (0 < count)
  | tuple ss _ => tuple (readonlyFirstList ss) (0 < count)
  | union ss => union (readonlyFirstList ss)
  | s => s

/-- The shapes with the `readonly`s of their chains on the outer arrays. -/
def readonlyFirstList : List Shape → List Shape
  | [] => []
  | s :: ss => lock (readonlyCount s) s :: readonlyFirstList ss

end

/-- The shape with the `readonly`s of its chains on the outer arrays: as many are readonly as before,
and no array that is not has one outside it that is. -/
def readonlyFirst (s : Shape) : Shape := lock s.readonlyCount s

theorem readonlyFirstList_eq_map (ss : List Shape) :
    readonlyFirstList ss = ss.map readonlyFirst := by
  induction ss with
  | nil => rfl
  | cons s ss ih => rw [readonlyFirstList, ih, List.map_cons, readonlyFirst]

theorem lock_tuple : lock k (tuple ss r) = tuple (ss.map readonlyFirst) (0 < k) := by
  rw [lock, readonlyFirstList_eq_map]

theorem lock_union : lock k (union ss) = union (ss.map readonlyFirst) := by
  rw [lock, readonlyFirstList_eq_map]

/-- An array around a chain takes its first `readonly`, be it its own or one from inside. -/
theorem readonlyFirst_array : (array s r).readonlyFirst =
    array (lock (s.readonlyCount + r.toNat - 1) s) (0 < s.readonlyCount + r.toNat) := by
  rw [readonlyFirst, lock, readonlyCount]

theorem readonlyFirst_tuple : (tuple ss r).readonlyFirst = tuple (ss.map readonlyFirst) r := by
  rw [readonlyFirst, lock_tuple, readonlyCount]
  cases r <;> rfl

theorem readonlyFirst_union : (union ss).readonlyFirst = union (ss.map readonlyFirst) := by
  rw [readonlyFirst, lock_union]

theorem isUnion_lock_iff : (lock k s).IsUnion ↔ s.IsUnion := by
  cases s <;> exact Iff.rfl

/-- Moving `readonly`s leaves the arrays of a chain where they are. -/
theorem layers_lock : ∀ (s : Shape) (k : Nat), (lock k s).layers = s.layers
  | array s _, k => by rw [lock, layers, layers, layers_lock s]
  | tuple _ _, _ | primitive _, _ | literal _, _ | any, _ | unknown, _ | never, _ | record _, _
  | struct _ _, _ | union _, _ | ref _, _ => rfl

/-- A chain takes the `readonly`s that it is given, as long as there are places for them. -/
theorem readonlyCount_lock : ∀ (s : Shape) (k : Nat),
    (lock k s).readonlyCount = min k s.readonlyPlaces
  | array s _, k => by
    rw [lock, readonlyCount, readonlyCount_lock s, readonlyPlaces]
    rcases k with - | k <;> simp
  | tuple _ _, k => by
    rw [lock, readonlyCount, readonlyPlaces]
    rcases k with - | k <;> simp
  | primitive _, k | literal _, k | any, k | unknown, k | never, k | record _, k | struct _ _, k
  | union _, k | ref _, k => (Nat.min_zero k).symm

/-- Moving `readonly`s outwards loses none. -/
theorem readonlyCount_readonlyFirst (s : Shape) :
    s.readonlyFirst.readonlyCount = s.readonlyCount := by
  rw [readonlyFirst, readonlyCount_lock, Nat.min_eq_left (readonlyCount_le_places s)]

/-- A chain without arrays is a core, of which at most its own `readonly` changes. -/
theorem lock_of_layers_eq_zero (h : s.layers = 0) :
    lock k s = match lock 0 s with
      | tuple ss _ => tuple ss (0 < k)
      | u => u := by
  cases s with
  | array s r => cases h
  | _ => rfl

/-- What a locked chain looks like depends on its length and its core, and not on which arrays were
readonly. -/
theorem lock_eq_lock (hlayers : s.layers = t.layers) (hcore : lock 0 s.core = lock 0 t.core) :
    lock k s = lock k t := by
  induction hn : s.layers generalizing s t k with
  | zero =>
    have hself : ∀ {u : Shape}, u.layers = 0 → u.core = u := by
      rintro (_ | _) h <;> first | rfl | cases h
    have ht : t.layers = 0 := hlayers ▸ hn
    rw [hself hn, hself ht] at hcore
    rw [lock_of_layers_eq_zero hn, lock_of_layers_eq_zero ht, hcore]
  | succ n ih =>
    have harray : ∀ {u : Shape}, u.layers = n + 1 → ∃ v r, u = array v r := by
      rintro (_ | _) h <;> first | exact ⟨_, _, rfl⟩ | cases h
    obtain ⟨s, r, rfl⟩ := harray hn
    obtain ⟨t, r', rfl⟩ := harray (hlayers ▸ hn)
    rw [lock, lock, ih (Nat.succ.inj hlayers) hcore (Nat.succ.inj hn)]

/-! ### The text of a chain -/

theorem texts_eq_map (ss : List Shape) : texts ss = ss.map text := by
  induction ss with
  | nil => rfl
  | cons s ss ih => rw [texts, ih, List.map_cons]

/-- The characters of the text of a shape. -/
def chars (s : Shape) : List Char := s.text.toList

/-- The characters of the core of a chain: a union inside arrays has parentheses, and the `readonly`
of a tuple stands in front of the chain. -/
def coreChars : Shape → List Char
  | union ss => '(' :: (chars (union ss) ++ [')'])
  | tuple ss _ => chars (tuple ss false)
  | s => chars s

/-- The members of a union stand with bars between them. -/
theorem chars_union : (union ss).chars = List.intercalate " | ".toList (ss.map chars) := by
  rw [chars, text, String.toList_intercalate, texts_eq_map, List.map_map]
  rfl

theorem toList_readonlyText (r : Bool) :
    (readonlyText r).toList = copies r.toNat "readonly ".toList := by
  cases r <;> rfl

/-- The parts of a tuple stand in brackets, behind the `readonly` of the tuple. -/
theorem chars_tuple : (tuple ss r).chars = copies r.toNat "readonly ".toList ++
    '[' :: (List.intercalate ", ".toList (ss.map chars) ++ [']']) := by
  rw [chars, text, String.toList_append, String.toList_append, String.toList_append,
    String.toList_intercalate, toList_readonlyText, texts_eq_map, List.map_map, List.append_assoc,
    List.append_assoc]
  rfl

/-- The brackets of an array stand behind its items, which have parentheses around them only if they
are a union. -/
theorem chars_array : (array s r).chars = copies r.toNat "readonly ".toList ++
    ((if s.IsUnion then coreChars s else s.chars) ++ "[]".toList) := by
  by_cases hs : s.IsUnion
  · cases s with
    | union ss =>
      rw [if_pos hs, coreChars, chars, chars, text, text]
      simp [toList_readonlyText]
    | _ => exact hs.elim
  · have htext : (array s r).text = readonlyText r ++ s.text ++ "[]" := by
      cases s with
      | union ss => exact absurd trivial hs
      | _ => rfl
    rw [if_neg hs, chars, chars, htext, String.toList_append, String.toList_append,
      toList_readonlyText, List.append_assoc]

/-- The text of a chain has all the `readonly`s in front, and all the brackets of its arrays at the
end. -/
theorem chars_eq : ∀ {s : Shape}, ¬ s.IsUnion → s.chars =
    copies s.readonlyCount "readonly ".toList ++
      (coreChars s.core ++ copies s.layers "[]".toList)
  | array s r, _ => by
    rw [chars_array, readonlyCount, Nat.add_comm, copies_add, core, layers, copies_add, copies_one,
      List.append_assoc]
    congr 1
    by_cases hs : s.IsUnion
    · cases s with
      | union ss => rw [if_pos hs]; rfl
      | _ => exact hs.elim
    · rw [if_neg hs, chars_eq hs, List.append_assoc, List.append_assoc]
  | tuple ss r, _ => by
    have hcore : (tuple ss r).core = tuple ss r := rfl
    have hlayers : (tuple ss r).layers = 0 := rfl
    rw [hcore, hlayers, coreChars, chars_tuple, chars_tuple, readonlyCount, copies_zero,
      List.append_nil]
    rfl
  | union _, h => absurd trivial h
  | primitive _, _ | literal _, _ | any, _ | unknown, _ | never, _ | record _, _ | struct _ _, _
  | ref _, _ => (List.append_nil _).symm

/-- The text of a shape has the texts of its members with bars between them. -/
theorem chars_spread (s : Shape) :
    s.chars = List.intercalate " | ".toList (s.spread.map chars) := by
  cases s with
  | union ss => exact chars_union
  | _ => exact List.intercalate_singleton.symm

/-! ### The text after moving `readonly` -/

/-- The text of a shape stays the same if that of its core does: around it, `readonly`s and brackets
are only counted. -/
theorem chars_readonlyFirst_of_core (h : coreChars s.readonlyFirst.core = coreChars s.core) :
    s.readonlyFirst.chars = s.chars := by
  by_cases hs : s.IsUnion
  · cases s with
    | union ss => exact List.append_cancel_right (List.cons.inj h).2
    | _ => exact hs.elim
  · have hlock : ¬ s.readonlyFirst.IsUnion := fun h => hs (isUnion_lock_iff.mp h)
    rw [chars_eq hlock, chars_eq hs, readonlyCount_readonlyFirst, h, readonlyFirst, layers_lock]

/-- The text of a core does not change with the `readonly`s that are put around it or moved inside
it. -/
theorem coreChars_core_lock (s : Shape) (k : Nat) :
    coreChars (lock k s).core = coreChars s.core := by
  induction s using partsInduction generalizing k with
  | step s ih =>
    have hparts : ∀ {ss}, ss ⊆ s.parts → (ss.map readonlyFirst).map chars = ss.map chars := by
      intro ss hss
      rw [List.map_map]
      exact List.map_congr_left fun t ht => chars_readonlyFirst_of_core (ih t (hss ht) _)
    cases s with
    | array s r => exact ih s List.mem_cons_self (k - 1)
    | tuple ss r =>
      have hcore : ∀ {us : List Shape} {b}, coreChars (tuple us b).core = (tuple us false).chars :=
        rfl
      rw [lock_tuple, hcore, hcore, chars_tuple, chars_tuple, hparts (List.Subset.refl ss)]
    | union ss =>
      have hcore : ∀ {us : List Shape},
          coreChars (union us).core = '(' :: ((union us).chars ++ [')']) := rfl
      rw [lock_union, hcore, hcore, chars_union, chars_union, hparts (List.Subset.refl ss)]
    | _ => rfl

/-- Moving `readonly`s outwards does not change the text. -/
theorem text_readonlyFirst (s : Shape) : s.readonlyFirst.text = s.text :=
  String.toList_injective (chars_readonlyFirst_of_core (coreChars_core_lock s _))

/-! ### Shapes in which there is nothing to move -/

/-- All that the shape consists of, itself included, is like this. -/
inductive Throughout (P : Shape → Prop) : Shape → Prop
  | mk {s : Shape} : P s → (∀ t ∈ s.parts, Throughout P t) → Throughout P s

theorem throughout_iff {P : Shape → Prop} :
    s.Throughout P ↔ P s ∧ ∀ t ∈ s.parts, t.Throughout P :=
  ⟨fun ⟨hs, hparts⟩ => ⟨hs, hparts⟩, fun h => .mk h.1 h.2⟩

theorem throughout_array_iff {P : Shape → Prop} :
    (array s r).Throughout P ↔ P (array s r) ∧ s.Throughout P := by
  rw [throughout_iff, parts, List.forall_mem_singleton]

theorem throughout_tuple_iff {P : Shape → Prop} :
    (tuple ss r).Throughout P ↔ P (tuple ss r) ∧ ∀ s ∈ ss, s.Throughout P := throughout_iff

theorem throughout_union_iff {P : Shape → Prop} :
    (union ss).Throughout P ↔ P (union ss) ∧ ∀ s ∈ ss, s.Throughout P := throughout_iff

theorem throughout_primitive_iff {P : Shape → Prop} {p : Primitive} :
    (primitive p).Throughout P ↔ P (primitive p) :=
  throughout_iff.trans (and_iff_left (List.forall_mem_nil _))

/-- Readonly items do not lie in an array that is not. -/
def GuardsItems : Shape → Prop
  | array s false => ¬ s.IsReadonly
  | _ => True

/-- A chain that can be written into has no `readonly` at all, where readonly items lie only in
readonly arrays. -/
theorem readonlyCount_eq_zero (h : s.Throughout GuardsItems) (hs : ¬ s.IsReadonly) :
    s.readonlyCount = 0 := by
  induction h with
  | @mk s hguards hparts ih =>
    cases s with
    | array s r =>
      cases r with
      | true => exact absurd trivial hs
      | false => exact ih s List.mem_cons_self hguards
    | tuple ss r =>
      cases r with
      | true => exact absurd trivial hs
      | false => rfl
    | _ => rfl

/-- Where readonly items lie only in readonly arrays, there is nothing to move. -/
theorem readonlyFirst_eq_self (h : s.Throughout GuardsItems) : s.readonlyFirst = s := by
  induction h with
  | @mk s hguards hparts ih =>
    have hmap : ∀ {ss}, ss ⊆ s.parts → ss.map readonlyFirst = ss := fun hss =>
      (List.map_congr_left fun t ht => ih t (hss ht)).trans (List.map_id _)
    cases s with
    | array s r =>
      have hs : lock s.readonlyCount s = s := ih s List.mem_cons_self
      cases r with
      | true =>
        rw [readonlyFirst_array, Bool.toNat_true, Nat.add_sub_cancel, hs]
        simp
      | false =>
        have hcount := readonlyCount_eq_zero (hparts s List.mem_cons_self) hguards
        rw [hcount] at hs
        rw [readonlyFirst_array, hcount]
        simp [hs]
    | tuple ss r => rw [readonlyFirst_tuple, hmap (List.Subset.refl ss)]
    | union ss => rw [readonlyFirst_union, hmap (List.Subset.refl ss)]
    | _ => rfl

end TypedPaths.Shape

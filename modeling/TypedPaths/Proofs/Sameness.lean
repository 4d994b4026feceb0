/-
TypedPaths/Proofs/Sameness.lean

Shapes that are the same, part by part.

Design.  Sameness is defined through a normal form of whole shapes.  Here it is opened: a shape
that is the same as a given one has its outermost form, and their parts are the same.  Unions
drop repeated members up to sameness, so whatever is said of the members of a union has to agree
on shapes that are the same; the lemmas of this module are what such agreements are proved from.

Main results:
* one lemma for each form of a shape (`same_union`, `same_struct`, ...): the other shape has the
  same form, with parts that are the same;
* `Same.slots`, `Same.slot?`: the slots of two shapes that are the same agree one by one.
-/
import TypedPaths.Schema.Slot
import Mathlib.Data.List.Forall2

namespace TypedPaths

/-! ### Lists that are related one by one -/

section

variable {α β : Type} {R : α → β → Prop} {xs : List α} {ys : List β}

/-- Each element of the first list is related to one of the second. -/
theorem exists_mem_of_forall₂ (h : List.Forall₂ R xs ys) {x : α} (hx : x ∈ xs) :
    ∃ y ∈ ys, R x y := by
  induction h with
  | nil => cases hx
  | cons hxy _ ih =>
    rcases List.mem_cons.mp hx with rfl | hx
    · exact ⟨_, List.mem_cons_self, hxy⟩
    · obtain ⟨y, hy, hxy⟩ := ih hx
      exact ⟨y, List.mem_cons_of_mem _ hy, hxy⟩

/-- What stands in the second list is related to what stands there in the first. -/
theorem getElem?_of_forall₂ (h : List.Forall₂ R xs ys) {i : Nat} {y : β} (hy : ys[i]? = some y) :
    ∃ x, xs[i]? = some x ∧ R x y := by
  induction h generalizing i with
  | nil => cases hy
  | @cons x z xs ys hxz _ ih =>
    cases i with
    | zero =>
      obtain rfl := Option.some.inj hy
      exact ⟨x, rfl, hxz⟩
    | succ i => exact ih hy

end

/-! ### Parts that are the same -/

/-- Fields that differ at most in the sign of zeros. -/
structure Field.Same (f g : Field Shape) : Prop where
  name : f.name = g.name
  shape : f.shape.Same g.shape
  optional : f.optional = g.optional
  readonly : f.readonly = g.readonly
  symbol : f.symbol = g.symbol

/-- Index signatures that differ at most in the sign of zeros. -/
structure IndexSignature.Same (i j : IndexSignature Shape) : Prop where
  keys : i.keys = j.keys
  value : i.value.Same j.value
  readonly : i.readonly = j.readonly

/-- Slots that differ at most in the sign of zeros. -/
structure Slot.Same (p q : Slot) : Prop where
  shape : p.shape.Same q.shape
  readonly : p.readonly = q.readonly
  presence : p.presence = q.presence

namespace Shape

/-- Shapes that are equal without the signs of zeros are the same one by one. -/
theorem unsignedZeroList_inj {ss ts : List Shape}
    (h : unsignedZeroList ss = unsignedZeroList ts) : List.Forall₂ Same ss ts := by
  induction ss generalizing ts with
  | nil =>
    cases ts with
    | nil => exact .nil
    | cons t ts => cases h
  | cons s ss ih =>
    cases ts with
    | nil => cases h
    | cons t ts =>
      injection h with hs hrest
      exact .cons hs (ih hrest)

/-- Fields that are equal without the signs of zeros are the same one by one. -/
theorem unsignedZeroFields_inj {fs gs : List (Field Shape)}
    (h : unsignedZeroFields fs = unsignedZeroFields gs) : List.Forall₂ Field.Same fs gs := by
  induction fs generalizing gs with
  | nil =>
    cases gs with
    | nil => exact .nil
    | cons g gs => cases h
  | cons f fs ih =>
    cases gs with
    | nil => cases h
    | cons g gs =>
      injection h with hfield hrest
      injection hfield with hname hshape hoptional hreadonly hsymbol
      exact .cons ⟨hname, hshape, hoptional, hreadonly, hsymbol⟩ (ih hrest)

theorem unsignedZeroIndex_inj {i j : IndexSignature Shape}
    (h : unsignedZeroIndex i = unsignedZeroIndex j) : i.Same j := by
  cases i
  cases j
  injection h with hkeys hvalue hreadonly
  exact ⟨hkeys, hvalue, hreadonly⟩

theorem unsignedZeroIndex?_inj {i j : Option (IndexSignature Shape)}
    (h : unsignedZeroIndex? i = unsignedZeroIndex? j) : Option.Rel IndexSignature.Same i j := by
  cases i with
  | none =>
    cases j with
    | none => exact .none
    | some j => cases h
  | some i =>
    cases j with
    | none => cases h
    | some j => exact .some (unsignedZeroIndex_inj (Option.some.inj h))

/-! ### One form at a time -/

variable {t : Shape}

theorem same_any (h : any.Same t) : t = any := by
  cases t with
  | any => rfl
  | _ => cases h

theorem same_unknown (h : unknown.Same t) : t = unknown := by
  cases t with
  | unknown => rfl
  | _ => cases h

theorem same_never (h : never.Same t) : t = never := by
  cases t with
  | never => rfl
  | _ => cases h

theorem same_primitive {p : Primitive} (h : (primitive p).Same t) : t = primitive p := by
  cases t with
  | primitive q => exact h.symm
  | _ => cases h

theorem same_ref {n : String} (h : (ref n).Same t) : t = ref n := by
  cases t with
  | ref m => exact h.symm
  | _ => cases h

/-- What is the same as a literal is a literal, of a value that is the same. -/
theorem same_literal {l : Literal} (h : (literal l).Same t) :
    ∃ k, t = literal k ∧ l.value.Same k.value := by
  cases t with
  | literal k =>
    injection h with hvalue
    exact ⟨k, rfl, congrArg Literal.value hvalue⟩
  | _ => cases h

/-- What is the same as an array is an array, readonly like it, of items that are the same. -/
theorem same_array {s : Shape} {r : Bool} (h : (array s r).Same t) :
    ∃ u, t = array u r ∧ s.Same u := by
  cases t with
  | array u q =>
    injection h with helement hreadonly
    exact ⟨u, by rw [hreadonly], helement⟩
  | _ => cases h

theorem same_tuple {ss : List Shape} {r : Bool} (h : (tuple ss r).Same t) :
    ∃ us, t = tuple us r ∧ List.Forall₂ Same ss us := by
  cases t with
  | tuple us q =>
    injection h with helements hreadonly
    exact ⟨us, by rw [hreadonly], unsignedZeroList_inj helements⟩
  | _ => cases h

theorem same_record {i : IndexSignature Shape} (h : (record i).Same t) :
    ∃ j, t = record j ∧ i.Same j := by
  cases t with
  | record j =>
    injection h with hindex
    exact ⟨j, rfl, unsignedZeroIndex_inj hindex⟩
  | _ => cases h

/-- What is the same as a struct is a struct, with fields that are the same one by one, and with
such an index signature or with none. -/
theorem same_struct {fs : List (Field Shape)} {i : Option (IndexSignature Shape)}
    (h : (struct fs i).Same t) :
    ∃ gs j, t = struct gs j ∧ List.Forall₂ Field.Same fs gs ∧ Option.Rel IndexSignature.Same i j := by
  cases t with
  | struct gs j =>
    injection h with hfields hindex
    exact ⟨gs, j, rfl, unsignedZeroFields_inj hfields, unsignedZeroIndex?_inj hindex⟩
  | _ => cases h

/-- What is the same as a union is a union, of members that are the same one by one. -/
theorem same_union {ss : List Shape} (h : (union ss).Same t) :
    ∃ us, t = union us ∧ List.Forall₂ Same ss us := by
  cases t with
  | union us =>
    injection h with hmembers
    exact ⟨us, rfl, unsignedZeroList_inj hmembers⟩
  | _ => cases h

/-! ### Slots -/

/-- Entries of a list of slots that differ at most in the sign of zeros. -/
def SameEntry (p q : PatternPart × Slot) : Prop := p.1 = q.1 ∧ p.2.Same q.2

/-- Fields that are the same have slots that are. -/
theorem sameEntry_field {f g : Field Shape} (h : f.Same g) : SameEntry f.slot g.slot := by
  refine ⟨congrArg PatternPart.key h.name, h.shape, h.readonly, ?_⟩
  simp only [Field.slot, h.optional]

theorem same_isAddressable {f g : Field Shape} (h : f.Same g) :
    f.isAddressable = g.isAddressable := by
  simp only [Field.isAddressable, h.symbol, h.name]

/-- Index signatures that are the same have slots that are: which ones depends on the kinds of keys
alone. -/
theorem same_indexSlots {i j : IndexSignature Shape} (h : i.Same j) :
    List.Forall₂ SameEntry i.slots j.slots := by
  have hs : i.acceptsStrings = j.acceptsStrings := by
    simp only [IndexSignature.acceptsStrings, h.keys]
  have hn : i.acceptsNumbers = j.acceptsNumbers := by
    simp only [IndexSignature.acceptsNumbers, hs, h.keys]
  have hslot : ∀ part, SameEntry (part, ⟨i.value, i.readonly, .unchecked⟩)
      (part, ⟨j.value, j.readonly, .unchecked⟩) := fun part => ⟨rfl, h.value, h.readonly, rfl⟩
  unfold IndexSignature.slots
  rw [hs, hn]
  split
  · exact .cons (hslot _) .nil
  · split
    · exact .cons (hslot _) .nil
    · exact .nil

theorem same_fieldSlots {fs gs : List (Field Shape)} (h : List.Forall₂ Field.Same fs gs) :
    List.Forall₂ SameEntry ((fs.filter Field.isAddressable).map Field.slot)
      ((gs.filter Field.isAddressable).map Field.slot) := by
  induction h with
  | nil => exact .nil
  | @cons f g fs gs hfg _ ih =>
    -- a field without an address is left out on both sides
    rw [List.filter_cons, List.filter_cons, same_isAddressable hfg]
    split
    · exact .cons (sameEntry_field hfg) ih
    · exact ih

/-- Tuples that are the same have slots that are: the positions of their items are counted alike. -/
theorem same_tupleSlots {ss ts : List Shape} (r : Bool) (h : List.Forall₂ Same ss ts) (k : Nat) :
    List.Forall₂ SameEntry
      ((ss.zipIdx k).map fun (s, i) => (PatternPart.index i, (⟨s, r, .certain⟩ : Slot)))
      ((ts.zipIdx k).map fun (s, i) => (PatternPart.index i, (⟨s, r, .certain⟩ : Slot))) := by
  induction h generalizing k with
  | nil => exact .nil
  | cons hst _ ih => exact .cons ⟨rfl, hst, rfl, rfl⟩ (ih (k + 1))

/-- The slots of two shapes that are the same agree one by one. -/
theorem Same.slots {s t : Shape} (h : s.Same t) : List.Forall₂ SameEntry s.slots t.slots := by
  cases s with
  | any => rw [same_any h]; exact .nil
  | unknown => rw [same_unknown h]; exact .nil
  | never => rw [same_never h]; exact .nil
  | primitive => rw [same_primitive h]; exact .nil
  | ref => rw [same_ref h]; exact .nil
  | literal =>
    obtain ⟨k, rfl, -⟩ := same_literal h
    exact .nil
  | union =>
    obtain ⟨us, rfl, -⟩ := same_union h
    exact .nil
  | array s r =>
    obtain ⟨u, rfl, hu⟩ := same_array h
    exact .cons ⟨rfl, hu, rfl, rfl⟩ .nil
  | tuple ss r =>
    obtain ⟨us, rfl, hus⟩ := same_tuple h
    exact same_tupleSlots r hus 0
  | record i =>
    obtain ⟨j, rfl, hij⟩ := same_record h
    exact same_indexSlots hij
  | struct fs i =>
    obtain ⟨gs, j, rfl, hfg, hij⟩ := same_struct h
    refine List.rel_append (same_fieldSlots hfg) ?_
    cases hij with
    | none => exact .nil
    | some hij => exact same_indexSlots hij

/-- Where a segment stands for a slot of a shape, it stands for one of the other as well. -/
theorem Same.slot? {s t : Shape} (h : s.Same t) {segment : String} {p : Slot}
    (hp : s.slot? segment = some p) : ∃ q, t.slot? segment = some q ∧ p.Same q := by
  have hslots := h.slots
  unfold Shape.slot? at hp ⊢
  -- the search goes along the slots, which cover the same segments one by one
  generalize s.slots = ps at hslots hp
  generalize t.slots = qs at hslots
  induction hslots with
  | nil => cases hp
  | @cons x y ps qs hxy _ ih =>
    rw [List.find?_cons, hxy.1] at hp
    rw [List.find?_cons]
    split at hp
    · obtain rfl := Option.some.inj hp
      exact ⟨y.2, rfl, hxy.2⟩
    · exact ih hp

end Shape

end TypedPaths

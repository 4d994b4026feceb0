/-
TypedPaths/Proofs/Reading.lean

The shape of what is read.

Design.  Data and schema are walked side by side.  Where a value conforms to a shape, it conforms
to one of its branches, and what it has at a segment conforms to the slot of that branch; so the
path reaches a shape that the value at the end of it conforms to (`reaches_of_lookup?`), whatever
the other branches are like, whichever steps are marked and however many levels there are.

Main results: `valueType_sound`.
-/
import TypedPaths.Proofs.Conformance
import TypedPaths.Proofs.Resolution

namespace TypedPaths

namespace Schema

variable {S : Schema} {marks : AbsenceMarks}

/-! ### Values that are there -/

/-- A relation of shapes and values that goes on to the parts of values: it holds of a branch, and
of the slot that a segment stands for. -/
structure Descends (S : Schema) (R : Shape → Json → Prop) : Prop where
  branch : ∀ {s v}, R s v → ∃ t, S.Branch s t ∧ R t v
  child : ∀ {t v w segment}, R t v → t.IsConcrete → Path.IsSegment segment →
    v.child? segment = some w →
    t = .any ∨ t = .unknown ∨ ∃ slot, t.slot? segment = some slot ∧ R slot.shape w

/-- Where data and shape are related, segments that lead to a part of the data reach a shape that is
related to the part. -/
theorem Descends.reaches (hS : S.Valid) {R : Shape → Json → Prop} (hR : S.Descends R)
    {A : Shape → Prop} (hA : Shape.Distributive A) {segments : List String} {b : Nat} {s : Shape}
    {v w : Json} (hsegments : ∀ segment ∈ segments, Path.IsSegment segment) (hv : R s v)
    (hw : Json.lookup? segments v = some w) (hend : ∀ t, R t w → A t) :
    S.Reaches marks b segments A s := by
  induction segments generalizing b s v with
  | nil =>
    rw [reaches_nil]
    obtain rfl := Option.some.inj hw
    exact hend s hv
  | cons segment rest ih =>
    rw [List.forall_mem_cons] at hsegments
    cases b with
    | zero => exact reaches_zero hA.unknown
    | succ b =>
      obtain ⟨x, hx, hw⟩ := Option.bind_eq_some_iff.mp hw
      obtain ⟨t, ht, hv⟩ := hR.branch hv
      -- the branch that the value is related to is the one to follow
      rw [reaches_cons hS hA]
      refine ⟨t, ht, ?_⟩
      rcases hR.child hv ht.isConcrete hsegments.1 hx with h | h | ⟨slot, hslot, hx⟩
      · exact .inl h
      · exact .inr (.inl h)
      · exact .inr (.inr ⟨slot, hslot, ih hsegments.2 hx hw⟩)

/-- Conformance goes on to the parts of a value. -/
theorem descends_conforms (hS : S.Valid) : S.Descends S.Conforms where
  branch := (branchwise_conforms.branch_iff hS).mp
  child := fun hv ht hsegment hw => hv.child ht hsegment hw

theorem distributive_conforms {v : Json} : Shape.Distributive (S.Conforms · v) :=
  branchwise_conforms.toMemberwise.distributive not_conforms_undefined

/-- Segments that lead to a part of a conforming value reach a shape that the part conforms to. -/
theorem reaches_of_lookup? (hS : S.Valid) {segments : List String} {b : Nat} {s : Shape}
    {v w : Json} (hsegments : ∀ segment ∈ segments, Path.IsSegment segment)
    (hv : S.Conforms s v) (hw : Json.lookup? segments v = some w) :
    S.Reaches marks b segments (S.Conforms · w) s :=
  (descends_conforms hS).reaches hS distributive_conforms hsegments hv hw fun _ h => h

/-- Reading is sound: what a conforming value has at a path conforms to the shape that the schema
gives the path. -/
theorem valueType_sound (hS : S.Valid) {v w : Json} {path : String}
    (hv : S.Conforms S.root v) (hw : v.get? path = some w) (marks : AbsenceMarks) :
    ∃ s, S.valueType marks path = .ok s ∧ S.Conforms s w := by
  have hreaches : S.Reaches marks resolveDepth (Path.segments path) (S.Conforms · w) S.root :=
    reaches_of_lookup? hS (fun _ => Path.isSegment_of_mem) hv hw
  obtain ⟨s, hs, h⟩ := hreaches
  exact ⟨s, shapeBelow_eq_ok.mpr hs, h⟩

/-- An object of one list, of named items. -/
def itemList : Schema where
  root := .struct [⟨"items", .array (.ref "item") false, false, false, false⟩] none
  definitions := .ofList [("item", .struct [⟨"name", .primitive .string, false, false, false⟩] none)]

theorem valueType_item_name :
    itemList.Valid ∧
    itemList.Conforms itemList.root
      (.object [("items", .array [.object [("name", .string "t")]])]) ∧
    Json.get? (.object [("items", .array [.object [("name", .string "t")]])]) "items.0.name" =
      some (.string "t") ∧
    ∃ s, itemList.valueType .reading "items.0.name" = .ok s ∧ itemList.Conforms s (.string "t") := by
  have hvalid : itemList.Valid := by decide
  have hget : Json.get? (.object [("items", .array [.object [("name", .string "t")]])])
      "items.0.name" = some (.string "t") := by decide
  have hitem : itemList.Conforms (.ref "item") (.object [("name", .string "t")]) :=
    .ref rfl (conforms_single rfl (.primitive trivial))
  have hitems : itemList.Conforms (.array (.ref "item") false)
      (.array [.object [("name", .string "t")]]) :=
    .array fun v hv => (List.mem_singleton.mp hv).symm ▸ hitem
  have hroot : itemList.Conforms itemList.root
      (.object [("items", .array [.object [("name", .string "t")]])]) := conforms_single rfl hitems
  exact ⟨hvalid, hroot, hget, valueType_sound hvalid hroot hget .reading⟩

end Schema

end TypedPaths

/-
TypedPaths/Proofs/Presence.lean

Paths to data that is there.

Design.  What a schema says of the fields that must be there does not matter here, so data is only
asked to have nothing else than the shape describes (`Schema.Permits`).  Data and shape are walked
side by side: at each segment, the value is permitted by a branch, and the branch has a slot for
the segment, since the value has a part there (`Permits.child`).  So the path can be resolved
(`Permits.reaches`), and unless its parent is of kind `unknown`, it is allowed.

What is allowed is listed from the root over as many levels as the path has segments
(`covers_of_check`), and a listing over fewer levels covers no less (`covers_of_le`).

Main results: `Permits.reaches`, `listed_of_get?`.
-/
import TypedPaths.Proofs.Anchoring
import TypedPaths.Proofs.Depth
import TypedPaths.Proofs.Reading

namespace TypedPaths

namespace Schema

open Shape

/-! ### Data that a shape permits -/

/-- The value is one that the shape describes, but for fields that it lacks. -/
inductive Permits (S : Schema) : Shape → Json → Prop
  | any {v : Json} : Permits S .any v
  | unknown {v : Json} : Permits S .unknown v
  | primitive {p : Primitive} {v : Json} : p.Admits v → Permits S (.primitive p) v
  | literal {l : Literal} {v : Json} :
      (DataKind.of v).isContainer = false → v.Same l.value → Permits S (.literal l) v
  | array {s : Shape} {r : Bool} {vs : List Json} :
      (∀ v ∈ vs, Permits S s v) → Permits S (.array s r) (.array vs)
  | tuple {ss : List Shape} {r : Bool} {vs : List Json} :
      ss.length = vs.length →
      (∀ (i : Nat) (s : Shape) (v : Json), ss[i]? = some s → vs[i]? = some v → Permits S s v) →
      Permits S (.tuple ss r) (.array vs)
  | union {ss : List Shape} {s : Shape} {v : Json} :
      s ∈ ss → Permits S s v → Permits S (.union ss) v
  | ref {n : String} {s : Shape} {v : Json} :
      S.definitions.find? n = some s → Permits S s v → Permits S (.ref n) v
  /-- A record or a struct: a key that a segment can be has a slot, of a field or else of the index
  signature, and the value is permitted there. -/
  | object {s : Shape} {fs : List (Field Shape)} {i : Option (IndexSignature Shape)}
      {entries : List (String × Json)} :
      s.objectParts? = some (fs, i) →
      (∀ key v, Entries.find? key entries = some v → Path.IsSegment key →
        ∃ slot, s.slot? key = some slot) →
      (∀ key v, Entries.find? key entries = some v → Path.IsSegment key →
        ∀ slot, s.slot? key = some slot → Permits S slot.shape v) →
      Permits S s (.object entries)

variable {S : Schema} {s t : Shape} {v w : Json}

/-- A value that conforms is permitted. -/
theorem Conforms.permits (h : S.Conforms s v) : S.Permits s v := by
  induction h with
  | any => exact .any
  | unknown => exact .unknown
  | primitive h => exact .primitive h
  | literal hscalar h => exact .literal hscalar h
  | array _ ih => exact .array ih
  | tuple hlen _ ih => exact .tuple hlen ih
  | union hs _ ih => exact .union hs ih
  | ref hn _ ih => exact .ref hn ih
  | object hs _ haccepts _ _ ihnamed ihindexed =>
    have hchild := fun key v hv hkey =>
      child_object hs (ihnamed key v hv) (haccepts key v hv hkey) (ihindexed key v hv hkey)
    apply Permits.object hs
    · intro key v hv hkey
      obtain ⟨slot, hslot, -⟩ := hchild key v hv hkey
      exact ⟨slot, hslot⟩
    · intro key v hv hkey slot hslot
      obtain ⟨slot', hslot', h⟩ := hchild key v hv hkey
      obtain rfl := Option.some.inj (hslot.symm.trans hslot')
      exact h

/-- What a shape permits, one of its branches permits. -/
theorem Permits.branch (h : S.Permits s v) : ∃ t, S.Branch s t ∧ S.Permits t v := by
  induction h with
  | union hs _ ih =>
    obtain ⟨t, ht, h⟩ := ih
    exact ⟨t, .member hs ht, h⟩
  | ref hn _ ih =>
    obtain ⟨t, ht, h⟩ := ih
    exact ⟨t, .ref hn ht, h⟩
  | any => exact ⟨_, .concrete trivial, .any⟩
  | unknown => exact ⟨_, .concrete trivial, .unknown⟩
  | primitive h => exact ⟨_, .concrete trivial, .primitive h⟩
  | literal hscalar h => exact ⟨_, .concrete trivial, .literal hscalar h⟩
  | array h _ => exact ⟨_, .concrete trivial, .array h⟩
  | tuple hlen h _ => exact ⟨_, .concrete trivial, .tuple hlen h⟩
  | @object s fs i entries hs hkeys h _ =>
    have hconcrete : s.IsConcrete := by
      cases s with
      | ref => cases hs
      | union => cases hs
      | _ => trivial
    exact ⟨s, .concrete hconcrete, .object hs hkeys h⟩

/-- What a value has at a segment is permitted in the slot that the segment stands for. -/
theorem Permits.child {segment : String} (h : S.Permits t v) (ht : t.IsConcrete)
    (hsegment : Path.IsSegment segment) (hw : v.child? segment = some w) :
    t = .any ∨ t = .unknown ∨
      ∃ slot, t.slot? segment = some slot ∧ S.Permits slot.shape w := by
  cases h with
  | any => exact .inl rfl
  | unknown => exact .inr (.inl rfl)
  | primitive h => exact absurd hw (child?_ne_some h.not_isContainer)
  | literal hscalar => exact absurd hw (child?_ne_some hscalar)
  | array h => exact .inr (.inr (child_array h hw))
  | tuple hlen h => exact .inr (.inr (child_tuple hlen h hw))
  | union => exact ht.elim
  | ref => exact ht.elim
  | object _ hkeys h =>
    obtain ⟨slot, hslot⟩ := hkeys segment w hw hsegment
    exact .inr (.inr ⟨slot, hslot, h segment w hw hsegment slot hslot⟩)

theorem descends_permits : S.Descends S.Permits where
  branch := Permits.branch
  child := Permits.child

/-- A path to a value that is there can be resolved. -/
theorem Permits.reaches (hS : S.Valid) {marks : AbsenceMarks} {segments : List String} {b : Nat}
    (hsegments : ∀ segment ∈ segments, Path.IsSegment segment) (hv : S.Permits s v)
    (hw : Json.lookup? segments v = some w) :
    S.Reaches marks b segments (fun _ => True) s :=
  descends_permits.reaches hS distributive_true hsegments hv hw fun _ _ => trivial

end Schema

namespace Catalog

open Schema

variable {C : Catalog} {options : ListingOptions} {path : String} {v w : Json}

/-- A path to data that is there is allowed and listed, unless nothing is known of its parent,
however long it is. -/
theorem listed_of_get? (hdepth : 0 < options.depth) (hall : options.writableOnly = false)
    (hv : C.schema.Permits C.schema.root v) (hpath : path ≠ "") (hw : v.get? path = some w)
    {b : Nat} (hb : (Path.segments path).dropLast.length ≤ b)
    (hknown : ∀ s, C.schema.resolve .writing b (Path.segments path).dropLast C.schema.root =
      some s → C.schema.kind s ≠ .unknown) :
    C.check path options = .ok () ∧
      ∃ set, C.paths options = .ok set ∧ set.contains path = true := by
  have hne : Path.segments path ≠ [] := mt Path.segments_eq_nil_iff.mp hpath
  obtain ⟨head, segment, hsegments⟩ : ∃ head segment, Path.segments path = head ++ [segment] :=
    ⟨_, _, (List.dropLast_concat_getLast hne).symm⟩
  rw [hsegments, List.dropLast_concat] at hb hknown
  have hcheck : C.check path options = .ok () := by
    have hreaches : C.schema.Reaches .writing (head.length + 1) (Path.segments path)
        (fun _ => True) C.schema.root := hv.reaches C.valid (fun _ => Path.isSegment_of_mem) hw
    rw [hsegments, reaches_true, exists_resolve_concat_iff C.valid .writing .writing (Nat.le_refl _)]
      at hreaches
    obtain ⟨s, hs, hbelow⟩ := hreaches
    have hs : C.schema.resolve .writing b head C.schema.root = some s := by
      rw [← hs]
      exact resolve_of_length_le hb (Nat.le_succ _)
    exact (check_eq_ok_iff_below hdepth hall hsegments hb).mpr ⟨s, hs, hbelow, hknown s hs⟩
  refine ⟨hcheck, _, paths_of_depth hdepth, ?_⟩
  -- the levels of the parent can be done without
  have hdepths : options.depth ≤ head.length + options.depth := Nat.le_add_left _ _
  exact covers_of_le C.valid hdepths (covers_of_check hdepth hsegments hcheck)

/-- Chains of nodes of any length. -/
def chains : Catalog where
  schema := {
    root := .ref "node"
    definitions := .ofList
      [("node", .struct [⟨"next", .union [.null, .ref "node"], false, false, false⟩] none)] }
  valid := by decide

theorem listed_third_node :
    chains.schema.Permits chains.schema.root
      (.object [("next", .object [("next", .object [("next", .null)])])]) ∧
    Json.get? (.object [("next", .object [("next", .object [("next", .null)])])])
      "next.next.next" = some .null ∧
    chains.check "next.next.next" { depth := 1 } = .ok () ∧
    ∃ set, chains.paths { depth := 1 } = .ok set ∧ set.contains "next.next.next" = true := by
  have hend : chains.schema.Conforms (.union [.null, .ref "node"]) .null :=
    .union List.mem_cons_self (.primitive trivial)
  have hnode : ∀ v, chains.schema.Conforms (.union [.null, .ref "node"]) v →
      chains.schema.Conforms (.ref "node") (.object [("next", v)]) :=
    fun v hv => .ref rfl (conforms_single rfl hv)
  have hnext : ∀ v, chains.schema.Conforms (.ref "node") v →
      chains.schema.Conforms (.union [.null, .ref "node"]) v :=
    fun v hv => .union (List.mem_cons_of_mem _ List.mem_cons_self) hv
  have hroot := (hnode _ (hnext _ (hnode _ (hnext _ (hnode _ hend))))).permits
  have hget : Json.get? (.object [("next", .object [("next", .object [("next", .null)])])])
      "next.next.next" = some .null := by decide
  have hparent : chains.schema.resolve .writing 2 (Path.segments "next.next.next").dropLast
      chains.schema.root = some (.union [.null, .ref "node"]) := by decide +kernel
  have hknown : ∀ s, chains.schema.resolve .writing 2 (Path.segments "next.next.next").dropLast
      chains.schema.root = some s → chains.schema.kind s ≠ .unknown := by
    intro s hs
    obtain rfl := Option.some.inj (hparent.symm.trans hs)
    decide +kernel
  have hdepth : 0 < ({ depth := 1 } : ListingOptions).depth := by decide
  have hpath : "next.next.next" ≠ "" := by decide
  have hlength : (Path.segments "next.next.next").dropLast.length ≤ 2 := by decide
  exact ⟨hroot, hget, listed_of_get? hdepth rfl hroot hpath hget hlength hknown⟩

end Catalog

end TypedPaths

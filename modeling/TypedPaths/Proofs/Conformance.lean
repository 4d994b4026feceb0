/-
TypedPaths/Proofs/Conformance.lean

Values that conform to a shape.

Design.  Conformance has one rule for each form of a shape.  Objects are closed: a key that a
segment can be is the name of a field, or the index signature accepts it.  A field may be missing
if it is optional or if its shape admits `undefined`, which no value conforms to.

Conformance is decided branch by branch (`branchwise_conforms`), and so is whether a shape admits
`undefined`.  Below a branch, what a value has at a segment conforms to the slot that the segment
stands for (`Conforms.child`); where the value has nothing, a slot that always holds a value
admits `undefined` (`Conforms.missing`).

Main results: `branchwise_conforms`, `Conforms.child`, `Conforms.missing`.
-/
import TypedPaths.Data.Kind
import TypedPaths.Data.Lookup
import TypedPaths.Proofs.Memberwise
import TypedPaths.Proofs.Segment
import TypedPaths.Proofs.Slot

namespace TypedPaths

/-! ### Values and shapes -/

/-- The values of a type without parts; no value is a `bigint`, a `symbol` or `undefined`. -/
def Primitive.Admits : Primitive → Json → Prop
  | string, .string _ => True
  | number, .number _ => True
  | boolean, .bool _ => True
  | null, .null => True
  | _, _ => False

/-- No primitive type admits arrays or objects. -/
theorem Primitive.Admits.not_isContainer {p : Primitive} {v : Json} (h : p.Admits v) :
    (DataKind.of v).isContainer = false := by
  cases p <;> cases v <;> first | exact h.elim | rfl

namespace Schema

/-- One of the branches of the shape is `undefined`, or stands for anything at all. -/
def AdmitsUndefined (S : Schema) (s : Shape) : Prop :=
  ∃ t, S.Branch s t ∧ (t = .undefined ∨ t = .any ∨ t = .unknown)

/-- The value is one of those that the shape describes. -/
inductive Conforms (S : Schema) : Shape → Json → Prop
  | any {v : Json} : Conforms S .any v
  | unknown {v : Json} : Conforms S .unknown v
  | primitive {p : Primitive} {v : Json} : p.Admits v → Conforms S (.primitive p) v
  | literal {l : Literal} {v : Json} :
      (DataKind.of v).isContainer = false → v.Same l.value → Conforms S (.literal l) v
  | array {s : Shape} {r : Bool} {vs : List Json} :
      (∀ v ∈ vs, Conforms S s v) → Conforms S (.array s r) (.array vs)
  | tuple {ss : List Shape} {r : Bool} {vs : List Json} :
      ss.length = vs.length →
      (∀ (i : Nat) (s : Shape) (v : Json), ss[i]? = some s → vs[i]? = some v → Conforms S s v) →
      Conforms S (.tuple ss r) (.array vs)
  | union {ss : List Shape} {s : Shape} {v : Json} :
      s ∈ ss → Conforms S s v → Conforms S (.union ss) v
  | ref {n : String} {s : Shape} {v : Json} :
      S.definitions.find? n = some s → Conforms S s v → Conforms S (.ref n) v
  /-- A record or a struct, with its fields `fs` and its index signature `i`. -/
  | object {s : Shape} {fs : List (Field Shape)} {i : Option (IndexSignature Shape)}
      {entries : List (String × Json)} :
      s.objectParts? = some (fs, i) →
      (∀ key v, Entries.find? key entries = some v → ∀ f ∈ fs, f.Names key → Conforms S f.shape v) →
      (∀ key v, Entries.find? key entries = some v → Path.IsSegment key →
        (∀ f ∈ fs, ¬ f.Names key) → ∃ j, i = some j ∧ j.accepts key = true) →
      (∀ key v, Entries.find? key entries = some v → Path.IsSegment key →
        (∀ f ∈ fs, ¬ f.Names key) → ∀ j, i = some j → Conforms S j.value v) →
      (∀ f ∈ fs, f.isAddressable = true → Entries.find? f.name entries = none →
        f.optional = true ∨ S.AdmitsUndefined f.shape) →
      Conforms S s (.object entries)

open Shape

variable {S : Schema} {s t : Shape} {v : Json}

/-! ### Conformance branch by branch -/

theorem branchwise_admitsUndefined : S.Branchwise S.AdmitsUndefined := by
  refine branchwise_of_branches (.inr (.inl rfl)) (.inr (.inr rfl)) ?_ ?_
  · rintro (h | h | h) <;> cases h
  · rintro s t hsame (rfl | rfl | rfl)
    · exact .inl (same_primitive hsame)
    · exact .inr (.inl (same_any hsame))
    · exact .inr (.inr (same_unknown hsame))

theorem not_conforms_never : ¬ S.Conforms .never v := by
  intro h
  cases h with
  | object hs => cases hs

/-- Nothing conforms to `undefined`, which is no JSON value. -/
theorem not_conforms_undefined : ¬ S.Conforms .undefined v := by
  intro h
  cases h with
  | primitive h => exact h
  | object hs => cases hs

theorem conforms_union_iff {ss : List Shape} :
    S.Conforms (.union ss) v ↔ ∃ s ∈ ss, S.Conforms s v := by
  refine ⟨fun h => ?_, fun ⟨s, hs, h⟩ => .union hs h⟩
  cases h with
  | union hs h => exact ⟨_, hs, h⟩
  | object hs => cases hs

theorem conforms_ref_iff {n : String} (hn : S.definitions.find? n = some s) :
    S.Conforms (.ref n) v ↔ S.Conforms s v := by
  refine ⟨fun h => ?_, fun h => .ref hn h⟩
  cases h with
  | ref hm h =>
    obtain rfl := Option.some.inj (hn.symm.trans hm)
    exact h
  | object hs => cases hs

theorem not_conforms_dangling {n : String} (hn : S.definitions.find? n = none) :
    ¬ S.Conforms (.ref n) v := by
  intro h
  cases h with
  | ref hm _ => exact nomatch hn.symm.trans hm
  | object hs => cases hs

theorem same_names {f g : Field Shape} (h : f.Same g) {key : String} :
    f.Names key ↔ g.Names key := by
  unfold Field.Names
  rw [same_isAddressable h, h.name]

theorem same_accepts {i j : IndexSignature Shape} (h : i.Same j) (key : String) :
    i.accepts key = j.accepts key := by
  unfold IndexSignature.accepts IndexSignature.acceptsNumbers IndexSignature.acceptsStrings
  rw [h.keys]

theorem not_names_of_same {fs gs : List (Field Shape)} (h : List.Forall₂ Field.Same fs gs)
    {key : String} (hgs : ∀ g ∈ gs, ¬ g.Names key) : ∀ f ∈ fs, ¬ f.Names key := by
  intro f hf hname
  obtain ⟨g, hg, hfg⟩ := exists_mem_of_forall₂ h hf
  exact hgs g hg ((same_names hfg).mp hname)

/-- The same values conform to shapes that are the same. -/
theorem Conforms.same (h : S.Conforms s v) (hsame : s.Same t) : S.Conforms t v := by
  induction h generalizing t with
  | any => rw [same_any hsame]; exact .any
  | unknown => rw [same_unknown hsame]; exact .unknown
  | primitive h => rw [same_primitive hsame]; exact .primitive h
  | literal hscalar h =>
    obtain ⟨k, rfl, hk⟩ := same_literal hsame
    exact .literal hscalar (h.trans hk)
  | array _ ih =>
    obtain ⟨u, rfl, hu⟩ := same_array hsame
    exact .array fun v hv => ih v hv hu
  | @tuple ss r vs hlen _ ih =>
    obtain ⟨us, rfl, hus⟩ := same_tuple hsame
    refine .tuple (hus.length_eq.symm.trans hlen) fun i u v hu hv => ?_
    obtain ⟨s, hs, hsu⟩ := getElem?_of_forall₂ hus hu
    exact ih i s v hs hv hsu
  | union hs _ ih =>
    obtain ⟨us, rfl, hus⟩ := same_union hsame
    obtain ⟨u, hu, hsu⟩ := exists_mem_of_forall₂ hus hs
    exact .union hu (ih hsu)
  | ref hn _ ih =>
    rw [same_ref hsame]
    exact .ref hn (ih (same_refl _))
  | @object s fs i entries hs _ haccepts _ hpresent ihnamed ihindexed =>
    obtain ⟨gs, j, ht, hfg, hij⟩ := hsame.objectParts? hs
    have hfield : ∀ g ∈ gs, ∃ f ∈ fs, f.Same g := fun g hg => exists_mem_of_forall₂ hfg.flip hg
    refine .object ht ?_ ?_ ?_ ?_
    · -- the fields that a key names
      intro key v hv g hg hname
      obtain ⟨f, hf, hfg⟩ := hfield g hg
      exact ihnamed key v hv f hf ((same_names hfg).mpr hname) hfg.shape
    · -- the other keys are accepted
      intro key v hv hkey hnone
      obtain ⟨k, rfl, hk⟩ := haccepts key v hv hkey (not_names_of_same hfg hnone)
      cases hij with
      | some hkl => exact ⟨_, rfl, (same_accepts hkl key).symm.trans hk⟩
    · -- and their values conform
      intro key v hv hkey hnone l hl
      subst hl
      cases hij with
      | some hkl => exact ihindexed key v hv hkey (not_names_of_same hfg hnone) _ rfl hkl.value
    · -- the fields that are missing
      intro g hg haddr hnone
      obtain ⟨f, hf, hfg⟩ := hfield g hg
      rw [← hfg.name] at hnone
      rw [← same_isAddressable hfg] at haddr
      rcases hpresent f hf haddr hnone with h | h
      · exact .inl (hfg.optional ▸ h)
      · exact .inr (branchwise_admitsUndefined.same hfg.shape h)

theorem branchwise_conforms : S.Branchwise (S.Conforms · v) where
  any := .any
  unknown := .unknown
  never := not_conforms_never
  same := fun hsame h => h.same hsame
  union := conforms_union_iff
  ref := conforms_ref_iff
  dangling := not_conforms_dangling

/-- An object with a single entry conforms to the struct of that field. -/
theorem conforms_single {f : Field Shape} (hf : f.isAddressable = true)
    (hv : S.Conforms f.shape v) : S.Conforms (.struct [f] none) (.object [(f.name, v)]) := by
  have hfind : ∀ key w, Entries.find? key [(f.name, v)] = some w → f.Names key ∧ w = v := by
    intro key w h
    rw [Entries.find?] at h
    split at h
    · next hname => exact ⟨⟨hf, hname⟩, (Option.some.inj h).symm⟩
    · cases h
  refine .object rfl ?_ ?_ ?_ ?_
  · intro key w hw g hg _
    rw [List.mem_singleton.mp hg, (hfind key w hw).2]
    exact hv
  · intro key w hw _ hnone
    exact absurd (hfind key w hw).1 (hnone f (List.mem_singleton_self f))
  · intro key w _ _ _ j hj
    cases hj
  · intro g hg _ hnone
    rw [List.mem_singleton.mp hg, Entries.find?, if_pos rfl] at hnone
    cases hnone

/-! ### Parts of conforming values -/

section

variable {P : Shape → Json → Prop} {r : Bool} {vs : List Json} {segment : String} {w : Json}

/-- Scalars have no parts. -/
theorem child?_ne_some (hv : (DataKind.of v).isContainer = false) :
    v.child? segment ≠ some w := by
  cases v with
  | array => cases hv
  | object => cases hv
  | _ => exact nofun

/-- An item of an array is in the slot of the items. -/
theorem child_array (h : ∀ v ∈ vs, P s v) (hw : (Json.array vs).child? segment = some w) :
    ∃ slot, (array s r).slot? segment = some slot ∧ P slot.shape w := by
  obtain ⟨n, hn, hw⟩ := Option.bind_eq_some_iff.mp hw
  have hslot : (array s r).slot? segment = some ⟨s, r, .unchecked⟩ := by
    rw [slot?_array, hn]
    rfl
  exact ⟨_, hslot, h w (List.mem_of_getElem? hw)⟩

/-- An item of a tuple is in the slot of its position, of which there are as many as items. -/
theorem child_tuple {ss : List Shape} (hlen : ss.length = vs.length)
    (h : ∀ (i : Nat) (s : Shape) (v : Json), ss[i]? = some s → vs[i]? = some v → P s v)
    (hw : (Json.array vs).child? segment = some w) :
    ∃ slot, (tuple ss r).slot? segment = some slot ∧ P slot.shape w := by
  obtain ⟨n, hn, hw⟩ := Option.bind_eq_some_iff.mp hw
  have hlt : n < ss.length := hlen ▸ (List.getElem?_eq_some_iff.mp hw).1
  have hs : ss[n]? = some ss[n] := List.getElem?_eq_getElem hlt
  have hslot : (tuple ss r).slot? segment = some ⟨ss[n], r, .certain⟩ := by
    rw [slot?_tuple, hn, Option.bind_some, hs]
    rfl
  exact ⟨_, hslot, h n _ w hs hw⟩

/-- A shape of objects has a slot for each key that it allows, which has what is asked of
its value. -/
theorem child_object {fs : List (Field Shape)} {i : Option (IndexSignature Shape)} {key : String}
    (ht : t.objectParts? = some (fs, i))
    (hnamed : ∀ f ∈ fs, f.Names key → P f.shape w)
    (haccepts : (∀ f ∈ fs, ¬ f.Names key) → ∃ j, i = some j ∧ j.accepts key = true)
    (hindexed : (∀ f ∈ fs, ¬ f.Names key) → ∀ j, i = some j → P j.value w) :
    ∃ slot, t.slot? key = some slot ∧ P slot.shape w := by
  by_cases hsome : ∃ f ∈ fs, f.Names key
  · obtain ⟨f, hf, hname, hslot⟩ := slot?_of_named ht hsome
    exact ⟨_, hslot, hnamed f hf hname⟩
  · have hnone : ∀ f ∈ fs, ¬ f.Names key := fun f hf h => hsome ⟨f, hf, h⟩
    obtain ⟨j, rfl, hj⟩ := haccepts hnone
    refine ⟨j.slot, ?_, hindexed hnone j rfl⟩
    rw [slot?_of_not_named ht hnone, Option.bind_some, if_pos hj]

end

/-- What a value has at a segment conforms to the slot that the segment stands for. -/
theorem Conforms.child {segment : String} {w : Json} (h : S.Conforms t v) (ht : t.IsConcrete)
    (hsegment : Path.IsSegment segment) (hw : v.child? segment = some w) :
    t = .any ∨ t = .unknown ∨
      ∃ slot, t.slot? segment = some slot ∧ S.Conforms slot.shape w := by
  cases h with
  | any => exact .inl rfl
  | unknown => exact .inr (.inl rfl)
  | primitive h => exact absurd hw (child?_ne_some h.not_isContainer)
  | literal hscalar => exact absurd hw (child?_ne_some hscalar)
  | array h => exact .inr (.inr (child_array h hw))
  | tuple hlen h => exact .inr (.inr (child_tuple hlen h hw))
  | union => exact ht.elim
  | ref => exact ht.elim
  | object hs hnamed haccepts hindexed _ =>
    exact .inr (.inr (child_object hs (hnamed _ w hw) (haccepts _ w hw hsegment)
      (hindexed _ w hw hsegment)))

/-- A slot that always holds a value admits `undefined` where a conforming value has nothing. -/
theorem Conforms.missing {segment : String} {slot : Slot} (h : S.Conforms t v)
    (ht : t.IsConcrete) (hslot : t.slot? segment = some slot)
    (hcertain : slot.presence = .certain) (hv : v.child? segment = none) :
    S.AdmitsUndefined slot.shape := by
  cases h with
  | any => cases hslot
  | unknown => cases hslot
  | primitive => cases hslot
  | literal => cases hslot
  | array =>
    -- items are never certain
    rw [slot?_array] at hslot
    obtain ⟨n, -, rfl⟩ := Option.map_eq_some_iff.mp hslot
    cases hcertain
  | @tuple ss r vs hlen h =>
    -- a conforming value has an item at every position
    rw [slot?_tuple] at hslot
    obtain ⟨s, hs, rfl⟩ := Option.map_eq_some_iff.mp hslot
    obtain ⟨n, hn, hs⟩ := Option.bind_eq_some_iff.mp hs
    have hlt : n < vs.length := hlen ▸ (List.getElem?_eq_some_iff.mp hs).1
    rw [Json.child?, hn, Option.bind_some, List.getElem?_eq_getElem hlt] at hv
    cases hv
  | union => exact ht.elim
  | ref => exact ht.elim
  | @object t fs i entries hs _ _ _ hpresent =>
    by_cases hsome : ∃ f ∈ fs, f.Names segment
    · obtain ⟨f, hf, hname, hfield⟩ := slot?_of_named hs hsome
      obtain rfl := Option.some.inj (hfield.symm.trans hslot)
      rcases hpresent f hf hname.1 (hname.2 ▸ hv) with h | h
      · simp [Field.slot, h] at hcertain
      · exact h
    · rw [slot?_of_not_named hs fun f hf h => hsome ⟨f, hf, h⟩] at hslot
      obtain ⟨j, rfl, hj⟩ := Option.bind_eq_some_iff.mp hslot
      split at hj
      · obtain rfl := Option.some.inj hj
        cases hcertain
      · cases hj

end Schema

end TypedPaths

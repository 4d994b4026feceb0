/-
TypedPaths/Proofs/Marking.lean

Marks add `undefined` and nothing else.

Design.  Two runs along the same segments, the second of which marks whatever the first one does, go
through the same shapes side by side: marks are added to what is found, and never to what is
traversed.  So the second run finds something wherever the first one does, and what it finds has each
property of the first result that is decided member by member (`Carried`).  One lemma for each way to
go on says that this is kept, and the runs follow by induction on the segments.

The other way round it is enough that a property which `undefined` does not have does not notice
marks at all (`reaches_marks`).

Main results: `carried_resolve`, `marks_add_undefined`.
-/
import TypedPaths.Proofs.Leaves
import TypedPaths.Proofs.Stepping

namespace TypedPaths

/-! ### More marks -/

/-- Whatever is marked by the first is marked by the second. -/
instance AbsenceMarks.instLE : LE AbsenceMarks where
  le m n := (m.union = true → n.union = true) ∧ (m.index = true → n.index = true) ∧
    (m.optional = true → n.optional = true)

namespace Shape

variable {A : Shape → Prop} {m n : AbsenceMarks} {x y : Bool} {s t : Shape}
  {found found' : Option Shape}

theorem Memberwise.markIf_mono (hA : Memberwise A) (hst : A s → A t)
    (hmark : x = true → y = true) (h : A (s.markIf x)) : A (t.markIf y) := by
  cases x with
  | false =>
    cases y with
    | false => exact hst h
    | true => exact hA.orUndefined_iff.mpr (.inl (hst h))
  | true =>
    rw [hmark rfl]
    exact hA.orUndefined_iff.mpr ((hA.orUndefined_iff.mp h).imp_left hst)

/-- Where the first finds a shape the second does, and the property is carried over. -/
def Carried (A : Shape → Prop) (found found' : Option Shape) : Prop :=
  ∀ t, found = some t → ∃ u, found' = some u ∧ (A t → A u)

theorem Carried.refl (found : Option Shape) : Carried A found found :=
  fun t ht => ⟨t, ht, id⟩

theorem Carried.map_markIf (hA : Memberwise A) (hmark : x = true → y = true)
    (h : Carried A found found') :
    Carried A (found.map (markIf x)) (found'.map (markIf y)) := by
  intro t ht
  obtain ⟨s, hs, rfl⟩ := Option.map_eq_some_iff.mp ht
  obtain ⟨u, hu, hsu⟩ := h s hs
  exact ⟨u.markIf y, Option.map_eq_some_iff.mpr ⟨u, hu, rfl⟩, hA.markIf_mono hsu hmark⟩

/-- A union carries over what each of its members does. -/
theorem Carried.combine (hA : Memberwise A) (hmn : m ≤ n) {segment : String} {ms : List Shape}
    {expand : Shape → Expansion} {f g : Shape → Option Shape}
    (h : ∀ s ∈ ms, Carried A (f s) (g s)) :
    Carried A (Expansion.combine m segment (ms.map fun s => (expand s, f s)))
      (Expansion.combine n segment (ms.map fun s => (expand s, g s))) := by
  intro t ht
  obtain ⟨hne, rfl⟩ := Expansion.combine_eq_some_iff.mp ht
  have hvalue : ∀ v, v ∈ (ms.map fun s => (expand s, f s)).filterMap Prod.snd →
      ∃ w ∈ (ms.map fun s => (expand s, g s)).filterMap Prod.snd, A v → A w := by
    intro v hv
    simp only [List.filterMap_map, List.mem_filterMap, Function.comp_apply] at hv ⊢
    obtain ⟨s, hs, hfs⟩ := hv
    obtain ⟨w, hw, hvw⟩ := h s hs v hfs
    exact ⟨w, ⟨s, hs, hw⟩, hvw⟩
  obtain ⟨v, hv⟩ := List.exists_mem_of_ne_nil _ hne
  obtain ⟨w, hw, -⟩ := hvalue v hv
  refine ⟨_, Expansion.combine_eq_some_iff.mpr ⟨List.ne_nil_of_mem hw, rfl⟩, ?_⟩
  refine hA.markIf_mono (fun hunion => ?_) fun hmark => ?_
  · obtain ⟨v, hv, hAv⟩ := hA.unionOf_iff.mp hunion
    obtain ⟨w, hw, hvw⟩ := hvalue v hv
    exact hA.unionOf_iff.mpr ⟨w, hw, hvw hAv⟩
  · -- the members that lack the segment are the same for both
    rw [List.any_map, Bool.and_eq_true_iff] at hmark ⊢
    exact ⟨hmn.1 hmark.1, hmark.2⟩

end Shape

namespace Schema

open Shape

variable {S : Schema} {A : Shape → Prop} {m n : AbsenceMarks} {b : Nat} {segment : String}
  {rest segments : List String} {s : Shape}

/-! ### Two runs side by side -/

/-- From one slot both runs go on, and marks at the slot are added in the second if they are in the
first. -/
theorem carried_enter (hA : Memberwise A) (hmn : m ≤ n)
    (hrest : ∀ s, Carried A (S.resolve m b rest s) (S.resolve n b rest s)) (slot : Slot) :
    Carried A (S.enter m b rest slot) (S.enter n b rest slot) := by
  unfold enter
  split
  · exact hrest slot.shape
  · exact (hrest slot.shape).map_markIf hA hmn.2.1
  · split
    · -- at the end of a path an optional field is `undefined` whatever is marked
      exact .refl _
    · exact (hrest (S.strip slot.shape)).map_markIf hA hmn.2.2

/-- Below a shape that has no parts, or stands for everything, no marks are added. -/
theorem resolve_of_isTerminal (hS : S.Valid) (hk : (S.kind s).isTerminal = true)
    (m n : AbsenceMarks) :
    S.resolve m (b + 1) (segment :: rest) s = S.resolve n (b + 1) (segment :: rest) s := by
  rcases Kind.isTerminal_iff.mp hk with hk | hk | hk
  · rw [resolve_of_nowhere hS (.inr hk), resolve_of_nowhere hS (.inr hk)]
  · rw [resolve_of_nowhere hS (.inl hk), resolve_of_nowhere hS (.inl hk)]
  · rw [resolve_of_unknown hk, resolve_of_unknown hk]

/-- From a container, both runs go on in the same slot. -/
theorem carried_container (hS : S.Valid) (hA : Memberwise A) (hmn : m ≤ n)
    (hk : (S.kind s).isContainer = true)
    (hrest : ∀ s, Carried A (S.resolve m b rest s) (S.resolve n b rest s)) :
    Carried A (S.resolve m (b + 1) (segment :: rest) s)
      (S.resolve n (b + 1) (segment :: rest) s) := by
  rw [resolve_of_isContainer hS hk, resolve_of_isContainer hS hk]
  cases (S.kind s).slot? segment with
  | none => exact .refl none
  | some slot => exact carried_enter hA hmn hrest slot

/-- With more marks the same is found, and what is found keeps its properties. -/
theorem carried_resolve (hS : S.Valid) (hA : Memberwise A) (hmn : m ≤ n) :
    Carried A (S.resolve m b segments s) (S.resolve n b segments s) := by
  induction segments generalizing b s with
  | nil =>
    rw [resolve_nil, resolve_nil]
    exact .refl _
  | cons segment rest ih =>
    cases b with
    | zero => exact .refl _
    | succ b =>
      -- unions and nullable shapes are opened before the segment is spent
      induction s using hS.stripInduction with
      | step s ihmember ihstrip =>
        rcases (S.kind s).forms with hk | hk | ⟨ms, hk | hk⟩ | hk
        · rw [resolve_of_isTerminal hS hk m n]
          exact .refl _
        · rw [resolve_of_any hk, resolve_of_any hk]
          exact .refl _
        · rw [resolve_of_nullable hS hk, resolve_of_nullable hS hk]
          exact (ihstrip ⟨ms, hk⟩).map_markIf hA hmn.2.2
        · rw [resolve_of_members hS hk, resolve_of_members hS hk]
          exact .combine hA hmn (ihmember ms (deref_of_members hS (.inr hk)))
        · exact carried_container hS hA hmn hk fun s => ih

/-! ### What marks add -/

variable {t u : Shape}

/-- Marks do not decide whether a path can be resolved. -/
theorem exists_resolve_marks_iff (hS : S.Valid) (m n : AbsenceMarks) :
    (∃ t, S.resolve m b segments s = some t) ↔ ∃ u, S.resolve n b segments s = some u := by
  rw [← reaches_true, ← reaches_true]
  exact reaches_marks hS distributive_true m n

/-- With more marks, no leaf is lost. -/
theorem among_of_marks_le (hS : S.Valid) (hmn : m ≤ n) (ht : S.resolve m b segments s = some t)
    (hu : S.resolve n b segments s = some u) : Among t.leaves u.leaves := by
  refine among_iff.mpr fun B same => ?_
  obtain ⟨v, hv, htv⟩ := carried_resolve hS (memberwise_holds same) hmn t ht
  obtain rfl := Option.some.inj (hu.symm.trans hv)
  exact htv

/-- Whatever the marks are, the results differ in `undefined` alone. -/
theorem among_undefined_of_marks (hS : S.Valid) (ht : S.resolve m b segments s = some t)
    (hu : S.resolve n b segments s = some u) : Among u.leaves (.undefined :: t.leaves) := by
  refine among_iff.mpr fun B same hB => ?_
  by_cases hundefined : B .undefined
  · exact ⟨.undefined, List.mem_cons_self, .inr (.inr hundefined)⟩
  · have hmarks : S.Reaches n b segments (fun s => Holds B s.leaves) s ↔
        S.Reaches m b segments (fun s => Holds B s.leaves) s :=
      reaches_marks hS (distributive_holds same hundefined) n m
    rw [reaches_of_resolve hu, reaches_of_resolve ht] at hmarks
    obtain ⟨l, hl, h⟩ := hmarks.mp hB
    exact ⟨l, List.mem_cons_of_mem _ hl, h⟩

/-- Marks add `undefined` and nothing else: with more of them the same paths lead somewhere, and a
result has the leaves it had before, but for `undefined`. -/
theorem marks_add_undefined (hS : S.Valid) (hmn : m ≤ n) (b : Nat) (s : Shape) (path : String) :
    ((∃ t, S.shapeBelow m b s path = .ok t) ↔ ∃ u, S.shapeBelow n b s path = .ok u) ∧
    ∀ t u, S.shapeBelow m b s path = .ok t → S.shapeBelow n b s path = .ok u →
      Among t.leaves u.leaves ∧ Among u.leaves (.undefined :: t.leaves) := by
  simp only [shapeBelow_eq_ok]
  exact ⟨exists_resolve_marks_iff hS m n, fun t u ht hu =>
    ⟨among_of_marks_le hS hmn ht hu, among_undefined_of_marks hS ht hu⟩⟩

/-- Lists of texts or of numbers, one of which may be missing. -/
def series : Schema where
  root := .union
    [.struct [⟨"items", .array (.primitive .string) false, true, false, false⟩] none,
      .struct [⟨"items", .array (.primitive .number) false, false, false, false⟩] none]

theorem marks_add_undefined_series :
    series.Valid ∧ AbsenceMarks.mk true false false ≤ .reading ∧
    series.shapeBelow ⟨true, false, false⟩ 2 series.root "items.0" =
      .ok (.union [.primitive .string, .primitive .number]) ∧
    series.shapeBelow .reading 2 series.root "items.0" =
      .ok (.union [.primitive .string, .undefined, .primitive .number]) ∧
    Among (Shape.union [.primitive .string, .primitive .number]).leaves
      (Shape.union [.primitive .string, .undefined, .primitive .number]).leaves ∧
    Among (Shape.union [.primitive .string, .undefined, .primitive .number]).leaves
      (.undefined :: (Shape.union [.primitive .string, .primitive .number]).leaves) := by
  have hvalid : series.Valid := by decide
  have hmarks : AbsenceMarks.mk true false false ≤ .reading := ⟨fun _ => rfl, nofun, nofun⟩
  have hfew : series.shapeBelow ⟨true, false, false⟩ 2 series.root "items.0" =
      .ok (.union [.primitive .string, .primitive .number]) := by decide +kernel
  have hall : series.shapeBelow .reading 2 series.root "items.0" =
      .ok (.union [.primitive .string, .undefined, .primitive .number]) := by decide +kernel
  exact ⟨hvalid, hmarks, hfew, hall,
    (marks_add_undefined hvalid hmarks 2 series.root "items.0").2 _ _ hfew hall⟩

end Schema

end TypedPaths

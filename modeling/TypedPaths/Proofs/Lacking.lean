/-
TypedPaths/Proofs/Lacking.lean

Members that lack a segment, and the marks they leave.

Design.  A union finds what its members find, and `undefined` where a member with values lacks the
segment and that is marked (`reaches_union`).  For reading this covers nullable unions as well,
for which there is a rule of their own: a nullish member lacks every segment, so it makes no
difference whether it is passed over and its absence is marked, or whether it is asked like the
others and lacks the segment (`reaches_union_reading`).

Without its nullish members a nullable union is flat, and for its members it is the same to lack a
segment and to have a branch that does.  So what is found there is asked branch by branch
(`reaches_strip`), and does not depend on how the shape was stripped.

Main results: `reaches_union`, `reaches_nullable`, `reaches_strip`, `reaches_union_reading`.
-/
import TypedPaths.Proofs.Counting
import TypedPaths.Proofs.Stepping

namespace TypedPaths

open Shape

variable {A : Shape → Prop} {marks : AbsenceMarks} {mark : Bool} {segment : String}
  {rest : List String} {b : Nat}

/-! ### Marked results -/

namespace Shape

/-- A mark adds `undefined` and nothing else. -/
theorem Memberwise.markIf_iff (hA : Memberwise A) {s : Shape} :
    A (s.markIf mark) ↔ A s ∨ mark = true ∧ A .undefined := by
  cases mark with
  | false => simp [markIf]
  | true =>
    rw [and_iff_right rfl]
    exact hA.orUndefined_iff

theorem Memberwise.map_markIf_iff (hA : Memberwise A) {found : Option Shape} :
    (∃ t, found.map (markIf mark) = some t ∧ A t) ↔
      (∃ s, found = some s ∧ A s) ∨ mark = true ∧ A .undefined ∧ ∃ s, found = some s := by
  cases found with
  | none => simp
  | some s => simp [hA.markIf_iff]

end Shape

/-- A union finds a shape with a property if a member does, or if `undefined` has the property and is
added because a member lacks the segment. -/
theorem Expansion.combine_iff_lacks (hA : Memberwise A) {found : List (Expansion × Option Shape)} :
    (∃ u, combine marks segment found = some u ∧ A u) ↔
      (∃ p ∈ found, ∃ u, p.2 = some u ∧ A u) ∨
        marks.union = true ∧ A .undefined ∧ (∃ p ∈ found, p.1.lacks segment = true) ∧
          ∃ u, combine marks segment found = some u := by
  have hsome : (∃ u, combine marks segment found = some u) ↔ found.filterMap Prod.snd ≠ [] := by
    simp [combine_eq_some_iff]
  have hcombine : (∃ u, combine marks segment found = some u ∧ A u) ↔
      found.filterMap Prod.snd ≠ [] ∧ A ((unionOf (found.filterMap Prod.snd)).markIf
        (marks.union && found.any fun p => p.1.lacks segment)) := by
    simp [combine_eq_some_iff, and_assoc]
  rw [hcombine, hsome, hA.markIf_iff, hA.unionOf_iff, exists_found_iff, Bool.and_eq_true,
    List.any_eq_true]
  constructor
  · rintro ⟨hne, h | ⟨⟨hunion, hlacks⟩, hundefined⟩⟩
    · exact .inl h
    · exact .inr ⟨hunion, hundefined, hlacks, hne⟩
  · rintro (h | ⟨hunion, hundefined, hlacks, hne⟩)
    · obtain ⟨u, hu, -⟩ := exists_found_iff.mpr h
      exact ⟨List.ne_nil_of_mem hu, .inl h⟩
    · exact ⟨hne, .inr ⟨⟨hunion, hlacks⟩, hundefined⟩⟩

namespace Schema

variable {S : Schema} {s t : Shape} {ss : List Shape}

/-! ### Members that lack a segment -/

/-- There are values of the shape, and the segment finds nothing in them. -/
def Lacks (S : Schema) (segment : String) (s : Shape) : Prop :=
  S.kind s ≠ .never ∧ ¬ S.Below segment (fun _ => True) s

theorem lacks_iff (hS : S.Valid) : (S.expand s).lacks segment = true ↔ S.Lacks segment s := by
  unfold Expansion.lacks Lacks kind
  rw [← defines_iff hS, Bool.and_eq_true, Bool.not_eq_true', Bool.not_eq_true', ← Bool.not_eq_true,
    ← Bool.not_eq_true, Kind.isNever_iff]

theorem branchwise_below : S.Branchwise (S.Below segment fun _ => True) :=
  branchwise_opens fun _ _ => trivial

/-- `null` and `undefined` lack every segment. -/
theorem lacks_of_isNullish (hS : S.Valid) (h : S.isNullish s = true) : S.Lacks segment s := by
  constructor
  · rw [kind_of_isNullish h]
    exact nofun
  · exact branchwise_below.not_of_isNullish hS not_opens_primitive not_opens_primitive h

/-- A union lacks a segment if and only if one of the members lacks it and none has it. -/
theorem lacks_union_iff (hS : S.Valid) : S.Lacks segment (.union ss) ↔
    (∃ s ∈ ss, S.Lacks segment s) ∧ ¬ ∃ s ∈ ss, S.Below segment (fun _ => True) s := by
  unfold Lacks
  rw [← hasValues_iff hS, branchwise_hasValues.union, below_union_iff]
  simp only [← hasValues_iff hS]
  constructor
  · rintro ⟨⟨s, hs, hvalues⟩, hnone⟩
    exact ⟨⟨s, hs, hvalues, fun h => hnone ⟨s, hs, h⟩⟩, hnone⟩
  · rintro ⟨⟨s, hs, hvalues, -⟩, hnone⟩
    exact ⟨⟨s, hs, hvalues⟩, hnone⟩

theorem lacks_of_deref (hS : S.Valid) (h : S.deref s = .ok t) :
    S.Lacks segment s ↔ S.Lacks segment t := by
  rw [← lacks_iff hS, ← lacks_iff hS, expand_of_deref hS h]

theorem reaches_of_vague (hS : S.Valid) (hany : A .any) (hunknown : A .unknown) (hs : S.Vague s) :
    S.Reaches marks (b + 1) (segment :: rest) A s := by
  rcases (vague_iff_kind hS).mp hs with hk | hk
  · exact ⟨_, resolve_of_any hk, hany⟩
  · exact ⟨_, resolve_of_unknown hk, hunknown⟩

theorem reaches_of_deref (hS : S.Valid) (h : S.deref s = .ok t) :
    S.Reaches marks (b + 1) (segment :: rest) A s ↔
      S.Reaches marks (b + 1) (segment :: rest) A t := by
  unfold Reaches
  rw [resolve_of_deref hS h]

theorem Reaches.possible {segments : List String} (h : S.Reaches marks b segments A s) :
    S.Reaches marks b segments (fun _ => True) s := by
  obtain ⟨t, ht, -⟩ := h
  exact ⟨t, ht, trivial⟩

/-- Something is found in a union if and only if something is found in one of the members. -/
theorem reaches_true_union (hS : S.Valid) :
    S.Reaches marks (b + 1) (segment :: rest) (fun _ => True) (.union ss) ↔
      ∃ s ∈ ss, S.Reaches marks (b + 1) (segment :: rest) (fun _ => True) s := by
  simp only [reaches_cons hS distributive_true, below_union_iff]

/-- Something is found in a shape if and only if something is found without its nullish members. -/
theorem reaches_true_strip (hS : S.Valid) :
    S.Reaches marks (b + 1) (segment :: rest) (fun _ => True) (S.strip s) ↔
      S.Reaches marks (b + 1) (segment :: rest) (fun _ => True) s :=
  reaches_strip_iff hS distributive_true.unmarked (List.cons_ne_nil segment rest)

/-- What is found in a union whose members are traversed side by side. -/
theorem reaches_union (hS : S.Valid) (hA : Memberwise A) (hside : S.SideBySide (.union ss)) :
    S.Reaches marks (b + 1) (segment :: rest) A (.union ss) ↔
      (∃ s ∈ ss, S.Reaches marks (b + 1) (segment :: rest) A s) ∨
        marks.union = true ∧ A .undefined ∧ (∃ s ∈ ss, S.Lacks segment s) ∧
          S.Reaches marks (b + 1) (segment :: rest) (fun _ => True) (.union ss) := by
  unfold Reaches
  rw [resolve_union hside, Expansion.combine_iff_lacks hA]
  simp only [List.mem_map, exists_exists_and_eq_and, lacks_iff hS, and_true]

/-- What is found in a nullable union. -/
theorem reaches_nullable {us : List Shape} (hS : S.Valid) (hA : Memberwise A)
    (hk : S.kind s = .nullable us) :
    S.Reaches marks (b + 1) (segment :: rest) A s ↔
      S.Reaches marks (b + 1) (segment :: rest) A (S.strip s) ∨
        marks.optional = true ∧ A .undefined ∧
          S.Reaches marks (b + 1) (segment :: rest) (fun _ => True) s := by
  rw [← reaches_true_strip hS, reaches_true]
  unfold Reaches
  rw [resolve_of_nullable hS hk, hA.map_markIf_iff]

/-- A shape of which something is known is traversed side by side, unless it is nullable. -/
theorem sideBySide_or_nullable (hS : S.Valid) (hs : ¬ S.Vague s) :
    S.SideBySide s ∨ ∃ us, S.kind s = .nullable us := by
  rw [vague_iff_kind hS, not_or] at hs
  rcases S.kind_cases s with hany | hunknown | hnullable | hside
  · exact absurd hany hs.1
  · exact absurd hunknown hs.2
  · exact .inr hnullable
  · exact .inl hside

/-! ### What is left of a nullable shape -/

/-- A branch that is not nullish lacks the segment, or stands for anything at all. -/
def LacksWithin (S : Schema) (segment : String) (s : Shape) : Prop :=
  ∃ t, S.Branch s t ∧ (t = .any ∨ t = .unknown ∨
    t ≠ .never ∧ t ≠ .null ∧ t ≠ .undefined ∧ t.slot? segment = none)

theorem branchwise_lacksWithin : S.Branchwise (S.LacksWithin segment) := by
  refine branchwise_of_branches (.inl rfl) (.inr (.inl rfl)) ?_ ?_
  · rintro (h | h | ⟨h, -⟩)
    · cases h
    · cases h
    · exact h rfl
  · rintro s t hsame (rfl | rfl | ⟨hnever, hnull, hundefined, hslot⟩)
    · exact .inl (same_any hsame)
    · exact .inr (.inl (same_unknown hsame))
    · refine .inr (.inr ⟨?_, ?_, ?_, ?_⟩)
      · rintro rfl
        exact hnever (same_never hsame.symm)
      · rintro rfl
        exact hnull (same_primitive hsame.symm)
      · rintro rfl
        exact hundefined (same_primitive hsame.symm)
      · rw [Option.eq_none_iff_forall_ne_some]
        intro slot ht
        obtain ⟨slot', hs, -⟩ := hsame.symm.slot? ht
        cases hslot.symm.trans hs

/-- A nullish shape lacks nothing within, for it is not asked for the segment. -/
theorem not_lacksWithin_of_nullish {p : Primitive} (hp : p = .null ∨ p = .undefined) :
    ¬ S.LacksWithin segment (.primitive p) := by
  rintro ⟨t, ht, h⟩
  obtain rfl := (branch_concrete_iff (s := .primitive p) trivial).mp ht
  rcases h with h | h | ⟨-, hnull, hundefined, -⟩
  · cases h
  · cases h
  · rcases hp with rfl | rfl
    · exact hnull rfl
    · exact hundefined rfl

/-- A shape that stands for no union has no branch but the one it stands for. -/
theorem branch_of_leaf (hS : S.Valid) {u : Shape} (hs : S.expand s = .leaf u) (ht : S.Branch s t) :
    t = u := by
  induction ht with
  | concrete hconcrete => exact Expansion.leaf.inj ((expand_concrete hconcrete).symm.trans hs)
  | member =>
    rw [expand_union] at hs
    cases hs
  | ref hn _ ih =>
    rw [expand_ref hS hn] at hs
    exact ih hs

/-- What a segment finds in a shape that is no union. -/
theorem reaches_leaf_iff (hS : S.Valid) (hA : Memberwise A) {u : Shape} (hs : S.expand s = .leaf u) :
    S.Reaches marks (b + 1) (segment :: rest) A s ↔
      S.Opens segment (S.Enters marks b rest A) s := by
  unfold Reaches
  rw [resolve_cons, hs, Expansion.select]
  exact select_expand_iff hA.any hA.unknown hS hs

/-- Whether a shape that is no union lacks a segment is asked of its only branch. -/
theorem lacks_leaf_iff (hS : S.Valid) {u : Shape} (hs : S.expand s = .leaf u)
    (hnullish : S.isNullish s = false) (hvague : ¬ S.Vague s) :
    S.Lacks segment s ↔ S.LacksWithin segment s := by
  have hvalue : u ≠ .null ∧ u ≠ .undefined := by
    unfold isNullish at hnullish
    rw [hs] at hnullish
    simpa [Expansion.isNullish, Shape.isNullish] using hnullish
  unfold Lacks
  rw [← hasValues_iff hS]
  constructor
  · rintro ⟨⟨t, ht, hnever⟩, hbelow⟩
    obtain rfl := branch_of_leaf hS hs ht
    refine ⟨t, ht, .inr (.inr ⟨hnever, hvalue.1, hvalue.2, ?_⟩)⟩
    rw [Option.eq_none_iff_forall_ne_some]
    exact fun slot hslot => hbelow ⟨t, ht, .inr (.inr ⟨slot, hslot, trivial⟩)⟩
  · rintro ⟨t, ht, hany | hunknown | ⟨hnever, -, -, hnone⟩⟩
    · exact absurd ⟨t, ht, .inl hany⟩ hvague
    · exact absurd ⟨t, ht, .inr hunknown⟩ hvague
    · refine ⟨⟨t, ht, hnever⟩, ?_⟩
      rintro ⟨t', ht', hany | hunknown | ⟨slot, hslot, -⟩⟩
      · exact hvague ⟨t', ht', .inl hany⟩
      · exact hvague ⟨t', ht', .inr hunknown⟩
      · rw [(branch_of_leaf hS hs ht').trans (branch_of_leaf hS hs ht).symm] at hslot
        cases hnone.symm.trans hslot

/-- What is found in what is left of a shape without its nullish members. -/
theorem reaches_strip (hS : S.Valid) (hA : Memberwise A) :
    S.Reaches marks (b + 1) (segment :: rest) A (S.strip s) ↔
      S.Opens segment (S.Enters marks b rest A) (S.strip s) ∨
        marks.union = true ∧ A .undefined ∧ S.LacksWithin segment (S.strip s) ∧
          S.Reaches marks (b + 1) (segment :: rest) (fun _ => True) (S.strip s) := by
  by_cases hvague : S.Vague s
  · obtain ⟨t, ht, h⟩ := (vague_strip_iff hS).mpr hvague
    exact iff_of_true (reaches_of_vague hS hA.any hA.unknown ⟨t, ht, h⟩)
      (.inl ⟨t, ht, h.imp_right .inl⟩)
  have hflat : S.Flat (S.strip s) := flat_strip hS s
  have hside : S.SideBySide (S.strip s) := sideBySide_strip hS hvague
  have hnullish : ∀ m ∈ (S.strip s).spread, S.isNullish m = false :=
    fun m => isNullish_of_mem_strip hS
  rw [← vague_strip_iff hS] at hvague
  generalize S.strip s = t at hvague hflat hside hnullish
  cases t with
  | union ts =>
    have hlacks : (∃ m ∈ ts, S.Lacks segment m) ↔ S.LacksWithin segment (.union ts) := by
      rw [branchwise_lacksWithin.union]
      refine exists_congr fun m => and_congr_right fun hm => ?_
      obtain ⟨u, hu⟩ := hflat m hm
      exact lacks_leaf_iff hS hu (hnullish m hm)
        fun h => hvague (branchwise_vague.union.mpr ⟨m, hm, h⟩)
    rw [reaches_union hS hA hside, opens_union_iff, hlacks]
    refine or_congr_left (exists_congr fun m => and_congr_right fun hm => ?_)
    obtain ⟨u, hu⟩ := hflat m hm
    exact reaches_leaf_iff hS hA hu
  | _ =>
    -- a single shape in which something is found does not lack the segment
    obtain ⟨u, hu⟩ := hflat _ (List.mem_singleton_self _)
    rw [reaches_leaf_iff hS hA hu]
    refine (or_iff_left ?_).symm
    rintro ⟨-, -, hwithin, hsome⟩
    have hlacks := (lacks_leaf_iff hS hu (hnullish _ (List.mem_singleton_self _)) hvague).mpr hwithin
    exact hlacks.2 (((reaches_cons hS distributive_true).mp hsome).mono fun _ _ => trivial)

/-- The same, asked of the shape itself, if what is found from slots agrees on shapes that are the
same. -/
theorem reaches_strip_of_branchwise (hS : S.Valid) (hA : Memberwise A)
    (hopens : S.Branchwise (S.Opens segment (S.Enters marks b rest A))) :
    S.Reaches marks (b + 1) (segment :: rest) A (S.strip s) ↔
      S.Opens segment (S.Enters marks b rest A) s ∨
        marks.union = true ∧ A .undefined ∧ S.LacksWithin segment s ∧
          S.Reaches marks (b + 1) (segment :: rest) (fun _ => True) s := by
  rw [reaches_strip hS hA, hopens.strip_iff hS not_opens_primitive not_opens_primitive,
    branchwise_lacksWithin.strip_iff hS (not_lacksWithin_of_nullish (.inl rfl))
      (not_lacksWithin_of_nullish (.inr rfl)), reaches_true_strip hS]

/-! ### Reading -/

/-- What is found in a union when it is read: what the members find, and `undefined` where a member
lacks the segment. -/
theorem reaches_union_reading (hS : S.Valid) (hA : Memberwise A) :
    S.Reaches .reading (b + 1) (segment :: rest) A (.union ss) ↔
      (∃ s ∈ ss, S.Reaches .reading (b + 1) (segment :: rest) A s) ∨
        A .undefined ∧ (∃ s ∈ ss, S.Lacks segment s) ∧
          S.Reaches .reading (b + 1) (segment :: rest) (fun _ => True) (.union ss) := by
  by_cases hundefined : A .undefined
  swap
  · -- marks are not noticed
    have hunmarked : Unmarked .reading A := (hA.distributive hundefined).unmarked
    simp only [hundefined, false_and, or_false, reaches_opens hS hunmarked, opens_union_iff]
  by_cases hvague : S.Vague (.union ss)
  · obtain ⟨s, hs, hvagues⟩ := branchwise_vague.union.mp hvague
    exact iff_of_true (reaches_of_vague hS hA.any hA.unknown hvague)
      (.inl ⟨s, hs, reaches_of_vague hS hA.any hA.unknown hvagues⟩)
  rcases sideBySide_or_nullable hS hvague with hside | ⟨us, hnullable⟩
  · exact (reaches_union hS hA hside).trans (or_congr_right (and_iff_right rfl))
  · -- what is found at all comes with `undefined`, and on the other side a nullish member lacks it
    obtain ⟨-, ⟨s, hs, hnullish⟩, -⟩ := (nullable_iff hS).mp ⟨us, hnullable⟩
    rw [reaches_nullable hS hA hnullable]
    constructor
    · intro h
      refine .inr ⟨hundefined, ⟨s, hs, lacks_of_isNullish hS hnullish⟩, ?_⟩
      rcases h with hstrip | ⟨-, -, hsome⟩
      · exact (reaches_true_strip hS).mp hstrip.possible
      · exact hsome
    · rintro (⟨s, hs, h⟩ | ⟨-, -, hsome⟩)
      · exact .inr ⟨rfl, hundefined, (reaches_true_union hS).mpr ⟨s, hs, h.possible⟩⟩
      · exact .inr ⟨rfl, hundefined, hsome⟩

end Schema
end TypedPaths

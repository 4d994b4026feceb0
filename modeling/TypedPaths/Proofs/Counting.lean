/-
TypedPaths/Proofs/Counting.lean

Kinds of unions, by which members there are.

Design.  The kind of a union is decided by counting: how many members are nullish, how many have
values.  But the numbers are only compared, and what a comparison says can be said of the members
themselves.  A union is nullable if one member is nullish and another one has values and is not
(`nullable_iff`).  So nothing depends on the order of the members or on how often one occurs, and
a member without values is not noticed.

Main results: `Kind.bare_ofMembers_congr`, `hasValues_iff`, `nullable_iff`.
-/
import TypedPaths.Proofs.Anchoring

namespace TypedPaths

namespace Kind

variable {members : List Shape} {kinds : List Kind} {nullish : Nat}

theorem any_isAny_iff : kinds.any isAny = true ↔ any ∈ kinds := by
  simp only [List.any_eq_true, isAny_iff, exists_eq_right]

theorem any_isUnknown_iff : kinds.any isUnknown = true ↔ unknown ∈ kinds := by
  simp only [List.any_eq_true, isUnknown_iff, exists_eq_right]

theorem all_isNever_iff : kinds.all isNever = true ↔ ∀ k ∈ kinds, k = never := by
  simp only [List.all_eq_true, isNever_iff]

/-- A union of members without values has none. -/
theorem ofMembers_of_never (h : ∀ k ∈ kinds, k = never) :
    ofMembers members kinds nullish = never := by
  have hany : any ∉ kinds := fun ha => absurd (h _ ha) nofun
  have hunknown : unknown ∉ kinds := fun hu => absurd (h _ hu) nofun
  unfold ofMembers
  rw [if_neg (any_isAny_iff.not.mpr hany), if_neg (any_isUnknown_iff.not.mpr hunknown),
    if_pos (all_isNever_iff.mpr h)]

/-- A union is nullable if something in it is nullish and not all that has values is, unless the
union is absorbed. -/
theorem exists_nullable_iff :
    (∃ us, ofMembers members kinds nullish = nullable us) ↔ any ∉ kinds ∧ unknown ∉ kinds ∧
      0 < nullish ∧ nullish < (kinds.filter fun k => !k.isNever).length := by
  unfold ofMembers
  split
  · next hany => exact iff_of_false nofun fun h => h.1 (any_isAny_iff.mp hany)
  · next hany =>
    rw [and_iff_right (any_isAny_iff.not.mp hany)]
    split
    · next hunknown => exact iff_of_false nofun fun h => h.1 (any_isUnknown_iff.mp hunknown)
    · next hunknown =>
      rw [and_iff_right (any_isUnknown_iff.not.mp hunknown)]
      split
      · next hnever =>
        -- no member is counted as one with values
        have hnone : kinds.filter (fun k => !k.isNever) = [] := by
          rw [List.filter_eq_nil_iff]
          intro k hk
          simp [List.all_eq_true.mp hnever k hk]
        rw [hnone]
        exact iff_of_false nofun fun h => Nat.not_lt_zero _ h.2
      · split
        · next hnullable => exact iff_of_true ⟨_, rfl⟩ hnullable
        · next hnullable =>
          refine iff_of_false ?_ hnullable
          split <;> exact nofun

/-- The kind, without the members of a union. -/
def bare : Kind → Kind
  | nullable _ => nullable []
  | union _ => union []
  | k => k

theorem isTerminal_bare (k : Kind) : k.bare.isTerminal = k.isTerminal := by
  cases k <;> rfl

/-- The kind of a union depends on its members only as far as it is asked. -/
theorem bare_ofMembers_congr {ms ns : List Shape} {ks ls : List Kind} {m n : Nat}
    (hany : any ∈ ks ↔ any ∈ ls) (hunknown : unknown ∈ ks ↔ unknown ∈ ls)
    (hnever : (∀ k ∈ ks, k = never) ↔ ∀ k ∈ ls, k = never)
    (hnullable : (0 < m ∧ m < (ks.filter fun k => !k.isNever).length) ↔
      0 < n ∧ n < (ls.filter fun k => !k.isNever).length)
    (hprimitive : (∀ k ∈ ks, k = primitive ∨ k = never) ↔ ∀ k ∈ ls, k = primitive ∨ k = never) :
    (ofMembers ms ks m).bare = (ofMembers ns ls n).bare := by
  unfold ofMembers
  simp only [List.any_eq_true, List.all_eq_true, Bool.or_eq_true, isAny_iff, isUnknown_iff,
    isNever_iff, isPrimitive_iff, exists_eq_right, hany, hunknown, hnever, hnullable, hprimitive]
  split
  · rfl
  · split
    · rfl
    · split
      · rfl
      · split
        · rfl
        · split <;> rfl

end Kind

namespace Schema

open Shape

variable {S : Schema} {s t : Shape} {ss ts : List Shape}

/-! ### Members with values -/

/-- The shape has a branch with values. -/
def HasValues (S : Schema) (s : Shape) : Prop := ∃ t, S.Branch s t ∧ t ≠ .never

theorem branchwise_hasValues : S.Branchwise S.HasValues := by
  refine branchwise_of_branches nofun nofun (fun h => h rfl) fun {s t} hsame hs ht => hs ?_
  subst ht
  exact same_never hsame.symm

/-- A shape is of kind `never` if and only if none of its branches has values. -/
theorem hasValues_iff (hS : S.Valid) : S.HasValues s ↔ S.kind s ≠ .never := by
  constructor
  · rintro ⟨t, ht, hne⟩ hk
    exact hne (branch_of_kind_never hS hk ht)
  · intro hk
    induction s using hS.induction with
    | concrete s hs =>
      refine ⟨s, .concrete hs, ?_⟩
      rintro rfl
      exact hk (kind_concrete hs)
    | union ss ih =>
      -- if no member has values, then all of them are of kind `never`, and so is the union
      by_contra hnone
      refine hk ?_
      rw [kind_union]
      refine Kind.ofMembers_of_never fun k hmem => ?_
      obtain ⟨s, hs, rfl⟩ := List.mem_map.mp hmem
      by_contra hne
      exact hnone (branchwise_hasValues.union.mpr ⟨s, hs, ih s hs hne⟩)
    | ref n s hn ih =>
      rw [kind_ref hS hn] at hk
      exact (branchwise_hasValues.ref hn).mpr (ih hk)
    | dangling n hn => exact absurd (kind_dangling hn) hk

/-! ### Nullish members -/

theorem expand_of_isNullish (h : S.isNullish s = true) :
    S.expand s = .leaf .null ∨ S.expand s = .leaf .undefined := by
  unfold isNullish at h
  cases hs : S.expand s with
  | leaf t =>
    rw [hs, Expansion.isNullish, Shape.isNullish, decide_eq_true_iff] at h
    exact h.imp (congrArg _) (congrArg _)
  | union members =>
    rw [hs] at h
    cases h

/-- `null` and `undefined` are values without parts. -/
theorem kind_of_isNullish (h : S.isNullish s = true) : S.kind s = .primitive := by
  unfold kind
  rcases expand_of_isNullish h with hs | hs <;> rw [hs] <;> rfl

/-- The nullish members are less than those with values if and only if one of the latter is not
nullish. -/
theorem countP_isNullish_lt_iff :
    ss.countP S.isNullish < ((ss.map S.kind).filter fun k => !k.isNever).length ↔
      ∃ s ∈ ss, S.kind s ≠ .never ∧ S.isNullish s = false := by
  have hlength : ((ss.map S.kind).filter fun k => !k.isNever).length =
      (ss.filter fun s => !(S.kind s).isNever).length := by
    rw [List.filter_map, List.length_map]
    rfl
  -- nullish members have values, so they are counted among those
  have hcount : ss.countP S.isNullish =
      (ss.filter fun s => !(S.kind s).isNever).countP S.isNullish := by
    rw [List.countP_filter]
    refine List.countP_congr fun s _ => ?_
    rw [Bool.and_eq_true, Bool.not_eq_true', ← Bool.not_eq_true, Kind.isNever_iff]
    refine ⟨fun h => ⟨h, ?_⟩, fun h => h.1⟩
    rw [kind_of_isNullish h]
    exact nofun
  rw [hlength, hcount, Nat.lt_iff_le_and_ne, and_iff_right List.countP_le_length, ne_eq,
    List.countP_eq_length]
  simp only [List.mem_filter, Bool.not_eq_true', not_forall, Bool.not_eq_true, exists_prop,
    ← Bool.not_eq_true (Kind.isNever _), Kind.isNever_iff, and_assoc]

/-- A union is nullable if and only if it does not stand for everything, a member is nullish, and one
that has values is not. -/
theorem nullable_iff (hS : S.Valid) :
    (∃ us, S.kind (.union ss) = .nullable us) ↔ ¬ S.Vague (.union ss) ∧
      (∃ s ∈ ss, S.isNullish s = true) ∧ ∃ s ∈ ss, S.kind s ≠ .never ∧ S.isNullish s = false := by
  have hvague : S.Vague (.union ss) ↔ .any ∈ ss.map S.kind ∨ .unknown ∈ ss.map S.kind := by
    simp only [branchwise_vague.union, vague_iff_kind hS, List.mem_map, and_or_left, exists_or]
  rw [kind_union, Kind.exists_nullable_iff, hvague, not_or, and_assoc, List.countP_pos_iff,
    countP_isNullish_lt_iff]

end Schema

end TypedPaths

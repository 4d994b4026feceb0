/-
TypedPaths/Proofs/Kind.lean

Kinds in valid schemas.

Design.  The kind of a union is decided by counting and comparing the kinds of its members.  What
the other modules need of it are facts about branches: a shape is of kind `any` if `any` is
one of its branches, of kind `unknown` if `unknown` is one and `any` is none, a shape of kind
`never` has no branch with values, and one of kind `primitive` has no branch with slots.

Where a shape is listed, `any` shows everything and `unknown` hides what the other branches have
(`Schema.Shows`).

Main results: `Kind.ofMembers_forms`, `kind_eq_any_iff`, `kind_eq_unknown_iff`,
`branch_of_kind_never`, `shows_iff`, `not_isTerminal`.
-/
import TypedPaths.Schema.Kind
import TypedPaths.Schema.Slot
import TypedPaths.Proofs.Expansion

namespace TypedPaths

namespace Kind

theorem isAny_iff {k : Kind} : k.isAny = true ↔ k = any := by
  cases k <;> simp [isAny]

theorem isUnknown_iff {k : Kind} : k.isUnknown = true ↔ k = unknown := by
  cases k <;> simp [isUnknown]

theorem isNever_iff {k : Kind} : k.isNever = true ↔ k = never := by
  cases k <;> simp [isNever]

theorem isPrimitive_iff {k : Kind} : k.isPrimitive = true ↔ k = primitive := by
  cases k <;> simp [isPrimitive]

theorem isTerminal_iff {k : Kind} :
    k.isTerminal = true ↔ k = primitive ∨ k = never ∨ k = unknown := by
  cases k <;> simp [isTerminal, isPrimitive, isNever, isUnknown]

/-! ### Concrete shapes -/

/-- The kinds of `any` and of `unknown` are those of no other concrete shape. -/
theorem ofConcrete_eq_iff {s t : Shape} (ht : t = .any ∨ t = .unknown) :
    ofConcrete s = ofConcrete t ↔ s = t := by
  rcases ht with rfl | rfl
  all_goals
    cases s with
    | struct fs i => cases i <;> simp [ofConcrete]
    | _ => simp [ofConcrete]

theorem ofConcrete_eq_any_iff {s : Shape} : ofConcrete s = any ↔ s = .any :=
  ofConcrete_eq_iff (.inl rfl)

theorem ofConcrete_eq_unknown_iff {s : Shape} : ofConcrete s = unknown ↔ s = .unknown :=
  ofConcrete_eq_iff (.inr rfl)

/-- Of the concrete shapes only `never` has no values. -/
theorem eq_never_of_ofConcrete {s : Shape} (hs : s.IsConcrete) (h : ofConcrete s = never) :
    s = .never := by
  cases s with
  | struct fs i => cases i <;> simp [ofConcrete] at h
  | union => exact hs.elim
  | ref => exact hs.elim
  | never => rfl
  | _ => simp [ofConcrete] at h

/-- Values without parts have no slots. -/
theorem slots_of_ofConcrete {s : Shape} (h : ofConcrete s = primitive) : s.slots = [] := by
  cases s with
  | struct fs i => cases i <;> simp [ofConcrete] at h
  | primitive => rfl
  | literal => rfl
  | _ => simp [ofConcrete] at h

/-! ### Unions -/

variable {members : List Shape} {kinds : List Kind} {nullish : Nat}

/-- What the kind of a union says about the kinds of its members, and the other way round. -/
theorem ofMembers_forms (members : List Shape) (kinds : List Kind) (nullish : Nat) :
    any ∈ kinds ∧ ofMembers members kinds nullish = any ∨
    any ∉ kinds ∧ unknown ∈ kinds ∧ ofMembers members kinds nullish = unknown ∨
    any ∉ kinds ∧ unknown ∉ kinds ∧
      ((∀ k ∈ kinds, k = never) ∧ ofMembers members kinds nullish = never ∨
        0 < nullish ∧ ofMembers members kinds nullish = nullable members ∨
        (∀ k ∈ kinds, k = primitive ∨ k = never) ∧
          ofMembers members kinds nullish = primitive ∨
        ofMembers members kinds nullish = union members) := by
  have hany : kinds.any isAny = true ↔ any ∈ kinds := by
    simp only [List.any_eq_true, isAny_iff, exists_eq_right]
  have hunknown : kinds.any isUnknown = true ↔ unknown ∈ kinds := by
    simp only [List.any_eq_true, isUnknown_iff, exists_eq_right]
  unfold ofMembers
  by_cases ha : any ∈ kinds
  · exact .inl ⟨ha, if_pos (hany.mpr ha)⟩
  rw [if_neg (hany.not.mpr ha)]
  by_cases hu : unknown ∈ kinds
  · exact .inr (.inl ⟨ha, hu, if_pos (hunknown.mpr hu)⟩)
  rw [if_neg (hunknown.not.mpr hu)]
  refine .inr (.inr ⟨ha, hu, ?_⟩)
  split
  · next hall => exact .inl ⟨fun k hk => isNever_iff.mp (List.all_eq_true.mp hall k hk), rfl⟩
  · split
    · next hnullish => exact .inr (.inl ⟨hnullish.1, rfl⟩)
    · split
      · next hall =>
        refine .inr (.inr (.inl ⟨fun k hk => ?_, rfl⟩))
        have hkind := List.all_eq_true.mp hall k hk
        rw [Bool.or_eq_true, isNever_iff] at hkind
        exact hkind.imp_left isPrimitive_iff.mp
      · exact .inr (.inr (.inr rfl))

/-- `any` absorbs every other member of a union. -/
theorem ofMembers_eq_any_iff : ofMembers members kinds nullish = any ↔ any ∈ kinds := by
  rcases ofMembers_forms members kinds nullish with ⟨ha, h⟩ | ⟨ha, -, h⟩ | ⟨ha, -, h⟩
  · exact iff_of_true h ha
  · refine iff_of_false (fun heq => ?_) ha
    cases h.symm.trans heq
  · refine iff_of_false (fun heq => ?_) ha
    rcases h with ⟨-, h⟩ | ⟨-, h⟩ | ⟨-, h⟩ | h <;> cases h.symm.trans heq

/-- `unknown` absorbs every other member but `any`. -/
theorem ofMembers_eq_unknown_iff :
    ofMembers members kinds nullish = unknown ↔ any ∉ kinds ∧ unknown ∈ kinds := by
  rcases ofMembers_forms members kinds nullish with ⟨ha, h⟩ | ⟨ha, hu, h⟩ | ⟨-, hu, h⟩
  · refine iff_of_false (fun heq => ?_) fun hnone => hnone.1 ha
    cases h.symm.trans heq
  · exact iff_of_true h ⟨ha, hu⟩
  · refine iff_of_false (fun heq => ?_) fun hsome => hu hsome.2
    rcases h with ⟨-, h⟩ | ⟨-, h⟩ | ⟨-, h⟩ | h <;> cases h.symm.trans heq

/-- A union of values without parts has no other members with values. -/
theorem primitive_of_ofMembers (h : ofMembers members kinds nullish = primitive) :
    ∀ k ∈ kinds, k = primitive ∨ k = never := by
  rcases ofMembers_forms members kinds nullish with
    ⟨-, heq⟩ | ⟨-, -, heq⟩ | ⟨-, -, ⟨-, heq⟩ | ⟨-, heq⟩ | ⟨hall, -⟩ | heq⟩
  case inr.inr.inr.inr.inl => exact hall
  all_goals cases heq.symm.trans h

/-- A union is nullable for its nullish members alone. -/
theorem pos_of_ofMembers {ms : List Shape}
    (h : ofMembers members kinds nullish = nullable ms) : 0 < nullish := by
  rcases ofMembers_forms members kinds nullish with
    ⟨-, heq⟩ | ⟨-, -, heq⟩ | ⟨-, -, ⟨-, heq⟩ | ⟨hpos, -⟩ | ⟨-, heq⟩ | heq⟩
  case inr.inr.inr.inl => exact hpos
  all_goals cases heq.symm.trans h

theorem never_of_ofMembers (h : ofMembers members kinds nullish = never) :
    ∀ k ∈ kinds, k = never := by
  rcases ofMembers_forms members kinds nullish with
    ⟨-, heq⟩ | ⟨-, -, heq⟩ | ⟨-, -, ⟨hall, -⟩ | ⟨-, heq⟩ | ⟨-, heq⟩ | heq⟩
  case inr.inr.inl => exact hall
  all_goals cases heq.symm.trans h

end Kind

namespace Schema

open Kind

variable {S : Schema}

theorem kind_concrete {s : Shape} (hs : s.IsConcrete) : S.kind s = .ofConcrete s := by
  unfold kind
  rw [expand_concrete hs, Expansion.kind]

theorem kind_ref (hS : S.Valid) {n : String} {s : Shape} (hn : S.definitions.find? n = some s) :
    S.kind (.ref n) = S.kind s := by
  unfold kind
  rw [expand_ref hS hn]

theorem kind_dangling {n : String} (hn : S.definitions.find? n = none) :
    S.kind (.ref n) = .never := by
  unfold kind
  rw [expand_dangling hn, Expansion.kind, ofConcrete]

/-- The kind of a union is found from the kinds of its members, and from how many of them are
nullish. -/
theorem kind_union (ss : List Shape) :
    S.kind (.union ss) = .ofMembers ss (ss.map S.kind) (ss.countP S.isNullish) := by
  unfold kind
  rw [expand_union, Expansion.kind, Expansion.kinds_eq_map, List.map_map, List.map_map,
    List.countP_map]
  have hfst : (Prod.fst ∘ fun s => (s, S.expand s)) = id := rfl
  rw [hfst, List.map_id]
  rfl

/-! ### Kinds by branches -/

/-- A shape is of kind `any` exactly if one of its branches is `any`. -/
theorem kind_eq_any_iff (hS : S.Valid) {s : Shape} : S.kind s = .any ↔ S.Branch s .any := by
  induction s using hS.induction with
  | concrete s hs =>
    rw [kind_concrete hs, ofConcrete_eq_any_iff, branch_concrete_iff hs, eq_comm]
  | union ss ih =>
    rw [kind_union, ofMembers_eq_any_iff, branch_union_iff, List.mem_map]
    exact exists_congr fun s => and_congr_right fun hs => ih s hs
  | ref n s hn ih => rw [kind_ref hS hn, branch_ref_iff hn, ih]
  | dangling n hn =>
    rw [kind_dangling hn]
    exact ⟨fun h => (nomatch h), fun h => absurd h (not_branch_dangling hn)⟩

/-- A shape is of kind `unknown` exactly if one of its branches is `unknown` and none is `any`. -/
theorem kind_eq_unknown_iff (hS : S.Valid) {s : Shape} :
    S.kind s = .unknown ↔ ¬ S.Branch s .any ∧ S.Branch s .unknown := by
  induction s using hS.induction with
  | concrete s hs =>
    rw [kind_concrete hs, ofConcrete_eq_unknown_iff, branch_concrete_iff hs, branch_concrete_iff hs]
    refine ⟨fun h => ?_, fun h => h.2.symm⟩
    subst h
    exact ⟨nofun, rfl⟩
  | union ss ih =>
    rw [kind_union, ofMembers_eq_unknown_iff, List.mem_map, List.mem_map, branch_union_iff,
      branch_union_iff]
    have hany : (∃ s ∈ ss, S.kind s = .any) ↔ ∃ s ∈ ss, S.Branch s .any :=
      exists_congr fun s => and_congr_right fun _ => kind_eq_any_iff hS
    rw [hany]
    -- no member has a branch `any`, since the union has none
    refine and_congr_right fun hnone => exists_congr fun s => and_congr_right fun hs => ?_
    rw [ih s hs]
    exact ⟨fun h => h.2, fun h => ⟨fun ha => hnone ⟨s, hs, ha⟩, h⟩⟩
  | ref n s hn ih => rw [kind_ref hS hn, branch_ref_iff hn, branch_ref_iff hn, ih]
  | dangling n hn =>
    rw [kind_dangling hn]
    exact ⟨fun h => (nomatch h), fun h => absurd h.2 (not_branch_dangling hn)⟩

/-- All branches of a shape without values are `never`. -/
theorem branch_of_kind_never (hS : S.Valid) {s t : Shape} (hk : S.kind s = .never)
    (h : S.Branch s t) : t = .never := by
  induction h with
  | concrete ht =>
    rw [kind_concrete ht] at hk
    exact eq_never_of_ofConcrete ht hk
  | member hs _ ih =>
    rw [kind_union] at hk
    exact ih (never_of_ofMembers hk _ (List.mem_map_of_mem hs))
  | ref hn _ ih =>
    rw [kind_ref hS hn] at hk
    exact ih hk

/-- A shape of values without parts has no branches with slots. -/
theorem slots_of_kind_primitive (hS : S.Valid) {s t : Shape} (hk : S.kind s = .primitive)
    (h : S.Branch s t) : t.slots = [] := by
  induction h with
  | concrete ht =>
    rw [kind_concrete ht] at hk
    exact slots_of_ofConcrete hk
  | @member ss s t hs hst ih =>
    rw [kind_union] at hk
    rcases primitive_of_ofMembers hk _ (List.mem_map_of_mem hs) with hk | hk
    · exact ih hk
    · rw [branch_of_kind_never hS hk hst]
      rfl
  | ref hn _ ih =>
    rw [kind_ref hS hn] at hk
    exact ih hk

/-! ### What is shown below a shape -/

/-- The shape stands for everything, or a branch has the property and none is `unknown`. -/
def Shows (S : Schema) (P : Shape → Prop) (s : Shape) : Prop :=
  S.Branch s .any ∨ ¬ S.Branch s .unknown ∧ ∃ t, S.Branch s t ∧ P t

variable {P Q : Shape → Prop} {s : Shape}

theorem Shows.mono (hPQ : ∀ t, P t → Q t) (h : S.Shows P s) : S.Shows Q s := by
  rcases h with hany | ⟨hunknown, t, ht, hP⟩
  · exact .inl hany
  · exact .inr ⟨hunknown, t, ht, hPQ t hP⟩

theorem shows_congr (hPQ : ∀ t, P t ↔ Q t) : S.Shows P s ↔ S.Shows Q s :=
  ⟨.mono fun t => (hPQ t).mp, .mono fun t => (hPQ t).mpr⟩

theorem shows_iff_kind (hS : S.Valid) : S.Shows P s ↔
    S.kind s = .any ∨ S.kind s ≠ .unknown ∧ ∃ t, S.Branch s t ∧ P t := by
  unfold Shows
  rw [ne_eq, kind_eq_unknown_iff hS, kind_eq_any_iff hS]
  by_cases hany : S.Branch s .any
  · exact iff_of_true (.inl hany) (.inl hany)
  · rw [or_iff_right hany, or_iff_right hany, and_iff_right hany]

/-- What is shown is what a branch has or stands for, unless the shape is of kind `unknown`. -/
theorem shows_iff (hS : S.Valid) : S.Shows P s ↔
    (∃ t, S.Branch s t ∧ (t = .any ∨ t = .unknown ∨ P t)) ∧ S.kind s ≠ .unknown := by
  rw [shows_iff_kind hS, kind_eq_any_iff hS]
  constructor
  · rintro (hany | ⟨hk, t, ht, hP⟩)
    · rw [(kind_eq_any_iff hS).mpr hany]
      exact ⟨⟨.any, hany, .inl rfl⟩, nofun⟩
    · exact ⟨⟨t, ht, .inr (.inr hP)⟩, hk⟩
  · rintro ⟨⟨t, ht, rfl | rfl | hP⟩, hk⟩
    · exact .inl ht
    · -- a branch `unknown` makes the whole shape `unknown`, unless another one is `any`
      by_contra h
      exact hk ((kind_eq_unknown_iff hS).mpr ⟨fun hany => h (.inl hany), ht⟩)
    · exact .inr ⟨hk, t, ht, hP⟩

/-- A shape that shows a slot can be traversed. -/
theorem not_isTerminal (hS : S.Valid) (h : S.Shows (fun t => t.slots ≠ []) s) :
    (S.kind s).isTerminal = false := by
  rcases (shows_iff_kind hS).mp h with hany | ⟨hunknown, t, ht, hslots⟩
  · rw [hany]
    rfl
  · rw [← Bool.not_eq_true, isTerminal_iff]
    rintro (hk | hk | hk)
    · exact hslots (slots_of_kind_primitive hS hk ht)
    · rw [branch_of_kind_never hS hk ht] at hslots
      exact hslots rfl
    · exact hunknown hk

end Schema

end TypedPaths

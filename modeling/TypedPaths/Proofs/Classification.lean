/-
TypedPaths/Proofs/Classification.lean

Kinds, found by following references.

Design.  What is asked of the outermost form of a shape is computed from its expansion, which
follows all references at once.  Without an expansion, one follows the reference that the shape is,
if it is one, and where this leads to a union asks the same of each member.  The rules of
`Schema.Classifies`, `Schema.FindsNullish` and `Schema.Strips` say so, with a rule for each case;
whether a member is nullish itself is seen from where it leads (`isNullish_iff_deref`).
A derivation is a tree of calls that has come to an end, and the answer stands at its root: that
there is one for each shape says that following references always ends.

Every shape that comes up on the way is a member of a union that the shape before it leads to, so
one induction carries all three (`Valid.derefInduction`).  The rules of `Classifies` also ask for a
property of each shape that is classified.  If shapes hand on the property to their parts, and it
holds of what is made of such parts (`Schema.Hereditary`), all of them have it once the first one
does.

Main results: `classifies_iff`, `findsNullish_iff`, `strips_iff`.
-/
import TypedPaths.Proofs.Memberwise
import TypedPaths.Proofs.Validity

namespace TypedPaths

namespace Schema

open Shape

variable {S : Schema} {n : String} {s t : Shape} {ms : List Shape} {e : Error}

/-! ### Where a shape leads -/

/-- References are followed up to a shape that is none. -/
theorem ne_ref_of_deref (h : S.deref s = .ok t) : ∀ n, t ≠ .ref n := by
  have hstands : S.StandsFor s t := standsFor_of_derefWithin h
  clear h
  induction hstands with
  | self hs => exact hs
  | ref _ _ ih => exact ih

/-- A shape leads nowhere, to a concrete shape, or to a union. -/
theorem deref_cases (S : Schema) (s : Shape) :
    (∃ e, S.deref s = .error e) ∨ (∃ t, S.deref s = .ok t ∧ t.IsConcrete) ∨
      ∃ ms, S.deref s = .ok (.union ms) := by
  rcases h : S.deref s with e | t
  · exact .inl ⟨e, rfl⟩
  · have hne : ∀ n, t ≠ .ref n := ne_ref_of_deref h
    cases t with
    | ref n => exact absurd rfl (hne n)
    | union ms => exact .inr (.inr ⟨ms, rfl⟩)
    | _ => exact .inr (.inl ⟨_, rfl, trivial⟩)

theorem deref_of_ne (hs : ∀ n, s ≠ .ref n) : S.deref s = .ok s := derefWithin_of_ne hs

theorem deref_concrete (hs : s.IsConcrete) : S.deref s = .ok s := by
  apply deref_of_ne
  rintro n rfl
  exact hs

theorem deref_union (ms : List Shape) : S.deref (.union ms) = .ok (.union ms) := deref_of_ne nofun

/-- Only a reference without a definition leads nowhere. -/
theorem exists_dangling_of_deref (hS : S.Valid) (h : S.deref s = .error e) :
    ∃ n, s = .ref n ∧ S.definitions.find? n = none := by
  by_contra hall
  have hdefined : ∀ n, s = .ref n → ∃ t, S.definitions.find? n = some t := by
    intro n hs
    cases hn : S.definitions.find? n with
    | none => exact absurd ⟨n, hs, hn⟩ hall
    | some t => exact ⟨t, rfl⟩
  obtain ⟨t, ht⟩ := hS.exists_deref hdefined
  rw [h] at ht
  cases ht

/-- A name without a definition leads nowhere. -/
theorem exists_deref_dangling (hn : S.definitions.find? n = none) :
    ∃ e, S.deref (.ref n) = .error e := by
  rcases h : S.deref (.ref n) with e | t
  · exact ⟨e, rfl⟩
  · obtain ⟨-, k, s, -, hs, -⟩ := derefWithin_ref_eq_ok_iff.mp h
    rw [hn] at hs
    cases hs

/-- Induction on the members of the unions that shapes lead to.  In a valid schema it reaches every
shape, also one that does not occur in the schema. -/
theorem Valid.derefInduction {Q : Shape → Prop} (hS : S.Valid)
    (step : ∀ s, (∀ ms, S.deref s = .ok (.union ms) → ∀ m ∈ ms, Q m) → Q s) (s : Shape) : Q s := by
  -- what leads to the same shape has the property as well, so references can be passed
  suffices h : ∀ u, S.deref u = S.deref s → Q u from h s rfl
  induction s using hS.induction with
  | concrete s hs =>
    intro u hu
    refine step u fun ms hms => ?_
    rw [hu, deref_concrete hs] at hms
    cases hms
    exact hs.elim
  | union ss ih =>
    intro u hu
    refine step u fun ms hms m hm => ?_
    rw [hu, deref_union] at hms
    cases hms
    exact ih m hm m rfl
  | ref n s hn ih =>
    intro u hu
    rw [deref_ref hS hn] at hu
    exact ih u hu
  | dangling n hn =>
    intro u hu
    obtain ⟨e, he⟩ := exists_deref_dangling hn
    refine step u fun ms hms => ?_
    rw [hu, he] at hms
    cases hms

/-- A shape has the expansion of where it leads. -/
theorem expand_of_deref (hS : S.Valid) (h : S.deref s = .ok t) : S.expand s = S.expand t := by
  have hstands : S.StandsFor s t := standsFor_of_derefWithin h
  clear h
  induction hstands with
  | self => rfl
  | ref hn _ ih => rw [expand_ref hS hn, ih]

theorem expand_of_deref_concrete (hS : S.Valid) (h : S.deref s = .ok t) (ht : t.IsConcrete) :
    S.expand s = .leaf t := by
  rw [expand_of_deref hS h, expand_concrete ht]

/-- A shape that leads to a union expands to the expansions of its members. -/
theorem expand_of_deref_union (hS : S.Valid) (h : S.deref s = .ok (.union ms)) :
    S.expand s = .union (ms.map fun m => (m, S.expand m)) := by
  rw [expand_of_deref hS h, expand_union]

/-- What leads nowhere has no values. -/
theorem expand_of_deref_error (hS : S.Valid) (h : S.deref s = .error e) :
    S.expand s = .leaf .never := by
  obtain ⟨n, rfl, hn⟩ := exists_dangling_of_deref hS h
  exact expand_dangling hn

/-- Unless it leads to a union, a shape stands for a single one. -/
theorem exists_leaf_of_deref (hS : S.Valid) (h : ∀ ms, S.deref s ≠ .ok (.union ms)) :
    ∃ t, S.expand s = .leaf t := by
  rcases S.deref_cases s with ⟨e, he⟩ | ⟨t, ht, htc⟩ | ⟨ms, hms⟩
  · exact ⟨.never, expand_of_deref_error hS he⟩
  · exact ⟨t, expand_of_deref_concrete hS ht htc⟩
  · exact absurd hms (h ms)

/-- A shape is nullish if it leads to `null` or `undefined`. -/
theorem isNullish_iff_deref (hS : S.Valid) :
    S.isNullish s = true ↔ S.deref s = .ok .null ∨ S.deref s = .ok .undefined := by
  unfold isNullish
  rcases S.deref_cases s with ⟨e, he⟩ | ⟨t, ht, htc⟩ | ⟨ms, hms⟩
  · rw [expand_of_deref_error hS he, he]
    simp [Expansion.isNullish, Shape.isNullish]
  · rw [expand_of_deref_concrete hS ht htc, ht]
    simp [Expansion.isNullish, Shape.isNullish]
  · rw [expand_of_deref_union hS hms, hms]
    simp [Expansion.isNullish]

/-! ### Properties that are handed on -/

/-- A property that a shape hands on to its parts and to the definition of its name, and that holds
of what is made of such parts. -/
structure Hereditary (S : Schema) (P : Shape → Prop) : Prop where
  part : ∀ {s t}, P s → t ∈ s.parts → P t
  definition : ∀ {n s}, S.definitions.find? n = some s → P (.ref n) → P s
  assemble : ∀ {s}, (∀ n, s ≠ .ref n) → (∀ t ∈ s.parts, P t) → P s

theorem hereditary_true (S : Schema) : S.Hereditary fun _ => True where
  part := fun _ _ => trivial
  definition := fun _ _ => trivial
  assemble := fun _ _ => trivial

namespace Hereditary

variable {P : Shape → Prop} (hP : S.Hereditary P)

include hP

theorem of_parts_nil (hs : ∀ n, s ≠ .ref n) (hparts : s.parts = []) : P s := by
  apply hP.assemble hs
  rw [hparts]
  exact nofun

theorem union (h : ∀ m ∈ ms, P m) : P (.union ms) := hP.assemble nofun h

/-- The property is handed on along references. -/
theorem deref (hs : P s) (h : S.deref s = .ok t) : P t := by
  have hstands : S.StandsFor s t := standsFor_of_derefWithin h
  clear h
  induction hstands with
  | self => exact hs
  | ref hn _ ih => exact ih (hP.definition hn hs)

theorem member (hs : P s) (h : S.deref s = .ok (.union ms)) : ∀ m ∈ ms, P m :=
  fun _ hm => hP.part (hP.deref hs h) hm

theorem spread (hs : P s) : ∀ t ∈ s.spread, P t := by
  intro t ht
  cases s with
  | union ms => exact hP.part hs ht
  | _ =>
    obtain rfl := List.mem_singleton.mp ht
    exact hs

/-- A normalised union has the property if all that it is built from has. -/
theorem unionOf (h : ∀ s ∈ ms, P s) : P (unionOf ms) := by
  obtain ⟨kept, hunion, hkept⟩ := exists_unionOf_eq ms
  have hkept : ∀ t ∈ kept, P t := by
    intro t ht
    obtain ⟨s, hs, hts⟩ := hkept t ht
    exact hP.spread (h s hs) t hts
  rw [hunion]
  rcases kept with - | ⟨s, - | ⟨t, ss⟩⟩
  · exact hP.of_parts_nil nofun rfl
  · exact hkept s List.mem_cons_self
  · exact hP.union hkept

/-- Adding `undefined` keeps the property, and so do marks. -/
theorem orUndefined (hs : P s) : P s.orUndefined := by
  apply hP.unionOf
  intro t ht
  rcases List.mem_pair.mp ht with rfl | rfl
  · exact hs
  · exact hP.of_parts_nil nofun rfl

theorem markIf {mark : Bool} (hs : P s) : P (s.markIf mark) := by
  cases mark
  · exact hs
  · exact hP.orUndefined hs

end Hereditary

/-! ### Kinds -/

/-- How the kind of a shape is found: it is that of where the shape leads, and the kind of a union
comes from those of its members.  Each shape whose kind is found has the property. -/
inductive Classifies (S : Schema) (P : Shape → Prop) : Shape → Kind → Prop
  | unresolved {s : Shape} {e : Error} : P s → S.deref s = .error e → Classifies S P s .never
  | concrete {s t : Shape} :
      P s → S.deref s = .ok t → t.IsConcrete → Classifies S P s (.ofConcrete t)
  | union {s : Shape} {ms : List Shape} {kinds : Shape → Kind} :
      P s → S.deref s = .ok (.union ms) → (∀ m ∈ ms, Classifies S P m (kinds m)) →
      Classifies S P s (.ofMembers ms (ms.map kinds) (ms.countP S.isNullish))

theorem kind_of_deref_error (hS : S.Valid) (h : S.deref s = .error e) : S.kind s = .never := by
  unfold kind
  rw [expand_of_deref_error hS h, Expansion.kind, Kind.ofConcrete]

/-- The kind of a shape is that of where it leads. -/
theorem kind_of_deref (hS : S.Valid) (h : S.deref s = .ok t) : S.kind s = S.kind t := by
  unfold kind
  rw [expand_of_deref hS h]

variable {P : Shape → Prop} {k : Kind}

/-- The rules find no other kind than the one computed from the expansion. -/
theorem Classifies.eq (hS : S.Valid) (h : S.Classifies P s k) : S.kind s = k := by
  induction h with
  | unresolved _ hd => exact kind_of_deref_error hS hd
  | concrete _ hd ht => rw [kind_of_deref hS hd, kind_concrete ht]
  | @union s ms kinds _ hd _ ih =>
    have hkinds : ms.map S.kind = ms.map kinds := List.map_congr_left ih
    rw [kind_of_deref hS hd, kind_union, hkinds]

/-- By induction on where shapes lead, the rules find that kind. -/
theorem classifies (hS : S.Valid) (hP : S.Hereditary P) (hs : P s) :
    S.Classifies P s (S.kind s) := by
  induction s using hS.derefInduction with
  | step s ih =>
    rcases S.deref_cases s with ⟨e, hd⟩ | ⟨t, hd, ht⟩ | ⟨ms, hd⟩
    · rw [kind_of_deref_error hS hd]
      exact .unresolved hs hd
    · rw [kind_of_deref hS hd, kind_concrete ht]
      exact .concrete hs hd ht
    · rw [kind_of_deref hS hd, kind_union]
      exact .union hs hd fun m hm => ih ms hd m hm (hP.member hs hd m hm)

/-- Finding the kind of a shape always ends, with its kind. -/
theorem classifies_iff (hS : S.Valid) (hP : S.Hereditary P) (hs : P s) :
    S.Classifies P s k ↔ S.kind s = k := by
  constructor
  · exact Classifies.eq hS
  · rintro rfl
    exact classifies hS hP hs

/-! ### Nullish members -/

/-- How nullish members are found: a union has one if a member is nullish or has one itself. -/
inductive FindsNullish (S : Schema) : Shape → Bool → Prop
  | union {s : Shape} {ms : List Shape} {found : Shape → Bool} :
      S.deref s = .ok (.union ms) →
      (∀ m ∈ ms, S.isNullish m = false → FindsNullish S m (found m)) →
      FindsNullish S s (ms.any fun m => S.isNullish m || found m)
  | other {s : Shape} :
      (∀ ms, S.deref s ≠ .ok (.union ms)) → FindsNullish S s (S.isNullish s)

theorem hasNullish_leaf (h : S.expand s = .leaf t) : S.hasNullish s = S.isNullish s := by
  unfold hasNullish isNullish
  rw [h, Expansion.hasNullish, Expansion.isNullish]

theorem hasNullishAny_eq_any (members : List (Shape × Expansion)) :
    Expansion.hasNullishAny members = members.any fun m => m.2.hasNullish := by
  induction members with
  | nil => rfl
  | cons m members ih =>
    obtain ⟨s, e⟩ := m
    rw [Expansion.hasNullishAny, ih, List.any_cons]

theorem hasNullish_of_isNullish (h : S.isNullish s = true) : S.hasNullish s = true := by
  cases hs : S.expand s with
  | leaf t => rwa [hasNullish_leaf hs]
  | union members =>
    unfold isNullish at h
    rw [hs] at h
    cases h

/-- A union has a nullish member at some depth if a member is nullish or has one itself. -/
theorem hasNullish_union (hS : S.Valid) (h : S.deref s = .ok (.union ms)) :
    S.hasNullish s = ms.any fun m => S.isNullish m || S.hasNullish m := by
  have hmember : ∀ m, (S.isNullish m || S.hasNullish m) = S.hasNullish m := by
    intro m
    cases hm : S.isNullish m with
    | false => rfl
    | true => rw [hasNullish_of_isNullish hm, Bool.true_or]
  simp only [hmember]
  unfold hasNullish
  rw [expand_of_deref_union hS h, Expansion.hasNullish, hasNullishAny_eq_any, List.any_map]
  rfl

theorem FindsNullish.eq (hS : S.Valid) {found : Bool} (h : S.FindsNullish s found) :
    S.hasNullish s = found := by
  induction h with
  | @union s ms found hd _ ih =>
    rw [hasNullish_union hS hd]
    rw [Bool.eq_iff_iff, List.any_eq_true, List.any_eq_true]
    refine exists_congr fun m => and_congr_right fun hm => ?_
    cases hnullish : S.isNullish m with
    | false => rw [ih m hm hnullish]
    | true => rfl
  | other hne =>
    obtain ⟨t, ht⟩ := exists_leaf_of_deref hS hne
    exact hasNullish_leaf ht

theorem findsNullish (hS : S.Valid) (s : Shape) : S.FindsNullish s (S.hasNullish s) := by
  induction s using hS.derefInduction with
  | step s ih =>
    by_cases hunion : ∃ ms, S.deref s = .ok (.union ms)
    · obtain ⟨ms, hd⟩ := hunion
      rw [hasNullish_union hS hd]
      exact .union hd fun m hm _ => ih ms hd m hm
    · have hne : ∀ ms, S.deref s ≠ .ok (.union ms) := fun ms hd => hunion ⟨ms, hd⟩
      obtain ⟨t, ht⟩ := exists_leaf_of_deref hS hne
      rw [hasNullish_leaf ht]
      exact .other hne

/-- Looking for nullish members always ends. -/
theorem findsNullish_iff (hS : S.Valid) {found : Bool} :
    S.FindsNullish s found ↔ S.hasNullish s = found := by
  constructor
  · exact FindsNullish.eq hS
  · rintro rfl
    exact findsNullish hS s

/-! ### Stripping -/

/-- How nullish members are dropped: a union is built again of its other members, each of them
stripped. -/
inductive Strips (S : Schema) : Shape → Shape → Prop
  | union {s : Shape} {ms : List Shape} {stripped : Shape → Shape} :
      S.deref s = .ok (.union ms) →
      (∀ m ∈ ms, S.isNullish m = false → Strips S m (stripped m)) →
      Strips S s (.unionOf ((ms.filter fun m => !S.isNullish m).map stripped))
  | nullish {s : Shape} : S.isNullish s = true → Strips S s .never
  | kept {s : Shape} :
      (∀ ms, S.deref s ≠ .ok (.union ms)) → S.isNullish s = false → Strips S s s

theorem of_mem_kept {m : Shape} (hm : m ∈ ms.filter fun m => !S.isNullish m) :
    m ∈ ms ∧ S.isNullish m = false := by
  obtain ⟨hm, hkept⟩ := List.mem_filter.mp hm
  rw [Bool.not_eq_true'] at hkept
  exact ⟨hm, hkept⟩

theorem strip_of_isNullish (h : S.isNullish s = true) : S.strip s = .never := by
  unfold isNullish at h
  unfold strip
  cases hs : S.expand s with
  | leaf t =>
    rw [hs] at h
    exact if_pos h
  | union members =>
    rw [hs] at h
    cases h

/-- A shape that is no union and not nullish is left as it is. -/
theorem strip_leaf (h : S.expand s = .leaf t) (hs : S.isNullish s = false) : S.strip s = s := by
  unfold isNullish at hs
  unfold strip
  rw [h] at hs ⊢
  rw [Expansion.isNullish] at hs
  rw [Expansion.strip, hs, if_neg Bool.false_ne_true]

/-- A union is stripped member by member, and the nullish members are left out. -/
theorem strip_of_deref_union (hS : S.Valid) (h : S.deref s = .ok (.union ms)) :
    S.strip s = .unionOf ((ms.filter fun m => !S.isNullish m).map S.strip) := by
  rw [← strip_union]
  unfold strip
  rw [expand_of_deref hS h, expand_union, Expansion.strip, Expansion.strip]

theorem Strips.eq (hS : S.Valid) (h : S.Strips s t) : S.strip s = t := by
  induction h with
  | @union s ms stripped hd _ ih =>
    rw [strip_of_deref_union hS hd]
    refine congrArg Shape.unionOf (List.map_congr_left fun m hm => ?_)
    obtain ⟨hm, hkept⟩ := of_mem_kept hm
    exact ih m hm hkept
  | nullish hs => exact strip_of_isNullish hs
  | kept hne hs =>
    obtain ⟨t, ht⟩ := exists_leaf_of_deref hS hne
    exact strip_leaf ht hs

theorem strips (hS : S.Valid) (s : Shape) : S.Strips s (S.strip s) := by
  induction s using hS.derefInduction with
  | step s ih =>
    by_cases hunion : ∃ ms, S.deref s = .ok (.union ms)
    · obtain ⟨ms, hd⟩ := hunion
      rw [strip_of_deref_union hS hd]
      exact .union hd fun m hm _ => ih ms hd m hm
    · have hne : ∀ ms, S.deref s ≠ .ok (.union ms) := fun ms hd => hunion ⟨ms, hd⟩
      obtain ⟨t, ht⟩ := exists_leaf_of_deref hS hne
      cases hs : S.isNullish s with
      | true =>
        rw [strip_of_isNullish hs]
        exact .nullish hs
      | false =>
        rw [strip_leaf ht hs]
        exact .kept hne hs

/-- Dropping nullish members always ends. -/
theorem strips_iff (hS : S.Valid) : S.Strips s t ↔ S.strip s = t := by
  constructor
  · exact Strips.eq hS
  · rintro rfl
    exact strips hS s

theorem isNullish_never (hS : S.Valid) : S.isNullish .never = false := by
  rw [← Bool.not_eq_true, isNullish_iff_deref hS, deref_concrete (s := .never) trivial]
  rintro (h | h) <;> cases h

/-- Nothing that is left after stripping is nullish. -/
theorem isNullish_of_mem_strip (hS : S.Valid) (ht : t ∈ (S.strip s).spread) :
    S.isNullish t = false := by
  have hstrips : S.Strips s (S.strip s) := strips hS s
  generalize S.strip s = u at ht hstrips
  induction hstrips with
  | @union s ms stripped hd hms ih =>
    have hflat : ∀ u ∈ (ms.filter fun m => !S.isNullish m).map stripped, S.Flat u := by
      intro u hu
      obtain ⟨m, hm, rfl⟩ := List.mem_map.mp hu
      obtain ⟨hm, hkept⟩ := of_mem_kept hm
      rw [← (hms m hm hkept).eq hS]
      exact flat_strip hS m
    rcases mem_spread_unionOf hflat ht with rfl | ⟨u, hu, htu⟩
    · exact isNullish_never hS
    · obtain ⟨m, hm, rfl⟩ := List.mem_map.mp hu
      obtain ⟨hm, hkept⟩ := of_mem_kept hm
      exact ih m hm hkept htu
  | nullish =>
    rw [List.mem_singleton.mp ht]
    exact isNullish_never hS
  | @kept s hne hs =>
    obtain ⟨u, hu⟩ := exists_leaf_of_deref hS hne
    rw [spread_of_expand hu] at ht
    rw [List.mem_singleton.mp ht]
    exact hs

/-- Stripping keeps the property, for all that it does is to make a union of members. -/
theorem Hereditary.strip (hS : S.Valid) (hP : S.Hereditary P) (hs : P s) : P (S.strip s) := by
  have hstrips : S.Strips s (S.strip s) := strips hS s
  generalize S.strip s = t at hstrips
  induction hstrips with
  | @union s ms stripped hd _ ih =>
    apply hP.unionOf
    intro t ht
    obtain ⟨m, hm, rfl⟩ := List.mem_map.mp ht
    obtain ⟨hm, hkept⟩ := of_mem_kept hm
    exact ih m hm hkept (hP.member hs hd m hm)
  | nullish => exact hP.of_parts_nil nofun rfl
  | kept => exact hs

end Schema

end TypedPaths

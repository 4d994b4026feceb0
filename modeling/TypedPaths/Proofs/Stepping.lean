/-
TypedPaths/Proofs/Stepping.lean

One segment, kind by kind.

Design.  What a segment finds is computed from the expansion of a shape.  Here it is expressed by
the kind of the shape and by what is found in other shapes: in the slots of a container, in what is
left of a nullable shape, or in the members of a union, each of which is asked for the next segment
alone and for all segments (`Shape.gather`).

The segments and the levels stay the same at unions and at nullable shapes.  But what is left of a
nullable shape is flat and without nullish members, so it is not nullable again, and its members
stand for no unions.  That is why induction can go through both (`Valid.stripInduction`).

Main results: `resolve_of_isContainer`, `resolve_of_nullable`, `resolve_of_members`,
`resolve_of_union`, `Valid.stripInduction`.
-/
import TypedPaths.Proofs.Anchoring
import TypedPaths.Proofs.Enumeration

namespace TypedPaths

/-! ### Members of a union -/

namespace Shape

variable {kinds kinds' : Shape → Kind} {first first' whole whole' : Shape → Option Shape}
  {m : Shape} {ms : List Shape}

/-- The members with values. -/
def inhabited (kinds : Shape → Kind) (members : List Shape) : List Shape :=
  members.filter fun m => !(kinds m).isNever

/-- The members with values in which the next segment finds something. -/
def defined (kinds : Shape → Kind) (first : Shape → Option Shape) (members : List Shape) :
    List Shape :=
  (inhabited kinds members).filter fun m => (first m).isSome

/-- What a union finds, from the kinds of its members, what the next segment finds in them and what
all segments do: members without values are passed over, and those that lack the segment leave a
mark. -/
def gather (marks : AbsenceMarks) (members : List Shape) (kinds : Shape → Kind)
    (first whole : Shape → Option Shape) : Option Shape :=
  let values := (defined kinds first members).filterMap whole
  if values.isEmpty then none
  else some ((unionOf values).markIf (marks.union &&
    decide ((defined kinds first members).length < (inhabited kinds members).length)))

theorem mem_inhabited_iff : m ∈ inhabited kinds ms ↔ m ∈ ms ∧ kinds m ≠ .never := by
  unfold inhabited
  rw [List.mem_filter, Bool.not_eq_true', ← Bool.not_eq_true, Kind.isNever_iff]

theorem mem_defined_iff :
    m ∈ defined kinds first ms ↔ (m ∈ ms ∧ kinds m ≠ .never) ∧ first m ≠ none := by
  unfold defined
  rw [List.mem_filter, mem_inhabited_iff, Option.isSome_iff_ne_none]

/-- What is gathered depends on what is asked of the members. -/
theorem gather_congr {marks : AbsenceMarks} (hkinds : ∀ m ∈ ms, kinds m = kinds' m)
    (hfirst : ∀ m ∈ ms, kinds m ≠ .never → first m = first' m)
    (hwhole : ∀ m ∈ ms, kinds m ≠ .never → first m ≠ none → whole m = whole' m) :
    gather marks ms kinds first whole = gather marks ms kinds' first' whole' := by
  have hinhabited : inhabited kinds ms = inhabited kinds' ms :=
    List.filter_congr fun m hm => by rw [hkinds m hm]
  have hdefined : defined kinds first ms = defined kinds' first' ms := by
    unfold defined
    rw [← hinhabited]
    refine List.filter_congr fun m hm => ?_
    obtain ⟨hm, hk⟩ := mem_inhabited_iff.mp hm
    rw [hfirst m hm hk]
  have hvalues : (defined kinds first ms).filterMap whole =
      (defined kinds first ms).filterMap whole' := by
    refine List.filterMap_congr fun m hm => ?_
    obtain ⟨⟨hm, hk⟩, hsome⟩ := mem_defined_iff.mp hm
    exact hwhole m hm hk hsome
  unfold gather
  dsimp only
  rw [hvalues, hdefined, hinhabited]

/-- What is gathered is a union of what the members find, of which there is at least one. -/
theorem exists_of_gather {marks : AbsenceMarks} {t : Shape}
    (h : gather marks ms kinds first whole = some t) :
    ∃ values mark, values ≠ [] ∧ t = (unionOf values).markIf mark ∧
      ∀ v ∈ values, ∃ m ∈ ms, kinds m ≠ .never ∧ first m ≠ none ∧ whole m = some v := by
  unfold gather at h
  dsimp only at h
  split at h
  · cases h
  · next hne =>
    rw [List.isEmpty_iff] at hne
    refine ⟨_, _, hne, (Option.some.inj h).symm, fun v hv => ?_⟩
    obtain ⟨m, hm, hmv⟩ := List.mem_filterMap.mp hv
    obtain ⟨⟨hm, hk⟩, hsome⟩ := mem_defined_iff.mp hm
    exact ⟨m, hm, hk, hsome, hmv⟩

/-- A property that marks do not take away is handed on to what is marked. -/
theorem forall_map_markIf {P : Shape → Prop} {mark : Bool} {found : Option Shape}
    (hmark : ∀ {s}, P s → P (s.markIf mark)) (h : ∀ s, found = some s → P s) :
    ∀ t, found.map (markIf mark) = some t → P t := by
  intro t ht
  obtain ⟨s, hs, rfl⟩ := Option.map_eq_some_iff.mp ht
  exact hmark (h s hs)

end Shape

theorem Expansion.definesAny_eq_any (segment : String) (members : List (Shape × Expansion)) :
    definesAny segment members = members.any fun m => m.2.defines segment := by
  induction members with
  | nil => rfl
  | cons m members ih =>
    obtain ⟨s, e⟩ := m
    rw [definesAny, ih, List.any_cons]

namespace Schema

open Shape

variable {S : Schema} {P : Shape → Prop} {marks : AbsenceMarks} {b : Nat} {segment : String}
  {rest : List String} {s t : Shape} {ms : List Shape} {slot : Slot}

/-! ### Equations by kinds -/

theorem resolve_of_deref (hS : S.Valid) (h : S.deref s = .ok t) :
    S.resolve marks (b + 1) (segment :: rest) s = S.resolve marks (b + 1) (segment :: rest) t := by
  rw [resolve_cons, resolve_cons, expand_of_deref hS h]
  exact Expansion.select_congr _ _ _ _

/-- Below a shape without values, or of values without parts, there is nothing. -/
theorem resolve_of_nowhere (hS : S.Valid) (hk : S.kind s = .never ∨ S.kind s = .primitive) :
    S.resolve marks (b + 1) (segment :: rest) s = none := by
  have hvague : ¬ S.Vague s := by
    rw [vague_iff_kind hS]
    rcases hk with hk | hk <;> rw [hk] <;> exact not_or.mpr ⟨nofun, nofun⟩
  cases hresolve : S.resolve marks (b + 1) (segment :: rest) s with
  | none => rfl
  | some t =>
    have hreaches : S.Reaches marks (b + 1) (segment :: rest) (fun _ => True) s :=
      ⟨t, hresolve, trivial⟩
    obtain ⟨u, hu, hany | hunknown | ⟨slot, hslot, -⟩⟩ :=
      (reaches_cons hS distributive_true).mp hreaches
    · exact absurd ⟨u, hu, .inl hany⟩ hvague
    · exact absurd ⟨u, hu, .inr hunknown⟩ hvague
    · obtain ⟨p, hp, -⟩ := mem_slots_of_slot? hslot
      have hshows : S.Shows (fun t => t.slots ≠ []) s :=
        .inr ⟨fun h => hvague ⟨_, h, .inr rfl⟩, u, hu, List.ne_nil_of_mem hp⟩
      have hterminal : (S.kind s).isTerminal = true := by
        rcases hk with hk | hk <;> rw [hk] <;> rfl
      rw [not_isTerminal hS hshows] at hterminal
      cases hterminal

/-- A segment finds in a container what it finds in the slot it stands for. -/
theorem resolve_of_isContainer (hS : S.Valid) (hk : (S.kind s).isContainer = true) :
    S.resolve marks (b + 1) (segment :: rest) s =
      ((S.kind s).slot? segment).bind (S.enter marks b rest) := by
  obtain ⟨t, hd, ht, heq, hany, hunknown⟩ := deref_of_isContainer hS hk
  rw [heq, Kind.slot?_ofConcrete, resolve_of_deref hS hd, resolve_concrete ht,
    select_of_ne hany hunknown]

/-! ### Nullable shapes -/

theorem deref_of_flat (hS : S.Valid) (ht : S.Flat t) (h : S.deref t = .ok (.union ms)) :
    t = .union ms := by
  cases t with
  | union ts =>
    rw [deref_union] at h
    cases h
    rfl
  | _ =>
    obtain ⟨u, hu⟩ := ht _ (List.mem_singleton_self _)
    rw [expand_of_deref_union hS h] at hu
    cases hu

theorem not_vague_of_nullable (hS : S.Valid) (hk : S.kind s = .nullable ms) : ¬ S.Vague s := by
  rw [vague_iff_kind hS, hk]
  exact not_or.mpr ⟨nofun, nofun⟩

/-- What is left of a shape without its nullish members is not nullable again. -/
theorem kind_strip_ne_nullable (hS : S.Valid) (s : Shape) (us : List Shape) :
    S.kind (S.strip s) ≠ .nullable us := by
  intro hus
  have hd : S.deref (S.strip s) = .ok (.union us) := deref_of_members hS (.inl hus)
  have hstrip : S.strip s = .union us := deref_of_flat hS (flat_strip hS s) hd
  rw [hstrip, kind_union] at hus
  obtain ⟨m, hm, hnullish⟩ := List.countP_pos_iff.mp (Kind.pos_of_ofMembers hus)
  rw [isNullish_of_mem_strip hS (s := s) (hstrip ▸ hm)] at hnullish
  cases hnullish

theorem sideBySide_strip (hS : S.Valid) (hvague : ¬ S.Vague s) : S.SideBySide (S.strip s) := by
  rw [← vague_strip_iff hS, vague_iff_kind hS, not_or] at hvague
  exact ⟨hvague.1, hvague.2, kind_strip_ne_nullable hS s⟩

/-- A flat shape that is traversed side by side needs no more than one look at its members. -/
theorem selectFlat_eq_resolve (ht : S.Flat t) (hside : S.SideBySide t) :
    (S.expand t).selectFlat marks (S.enter marks b rest) segment =
      S.resolve marks (b + 1) (segment :: rest) t := by
  cases t with
  | union ts =>
    rw [resolve_union hside, expand_union, Expansion.selectFlat, List.map_map]
    refine congrArg (Expansion.combine marks segment) (List.map_congr_left fun m hm => ?_)
    obtain ⟨u, hu⟩ := ht m hm
    rw [resolve_cons, Function.comp_apply, hu, Expansion.select]
  | _ =>
    obtain ⟨u, hu⟩ := ht _ (List.mem_singleton_self _)
    rw [resolve_cons, hu, Expansion.selectFlat, Expansion.select]

/-- A nullable shape is resolved by resolving what is left of it. -/
theorem resolve_of_nullable (hS : S.Valid) (hk : S.kind s = .nullable ms) :
    S.resolve marks (b + 1) (segment :: rest) s =
      (S.resolve marks (b + 1) (segment :: rest) (S.strip s)).map (markIf marks.optional) := by
  have hd : S.deref s = .ok (.union ms) := deref_of_members hS (.inl hk)
  have hstrip : S.strip s = S.strip (.union ms) := by rw [strip_of_deref_union hS hd, strip_union]
  have hside : S.SideBySide (S.strip s) := sideBySide_strip hS (not_vague_of_nullable hS hk)
  rw [← selectFlat_eq_resolve (flat_strip hS s) hside, resolve_of_deref hS hd, hstrip]
  rw [kind_of_deref hS hd] at hk
  exact resolve_union_nullable hk

/-- Induction on the members of the unions that shapes lead to, and on what is left of nullable
shapes. -/
theorem Valid.stripInduction {Q : Shape → Prop} (hS : S.Valid)
    (step : ∀ s, (∀ ms, S.deref s = .ok (.union ms) → ∀ m ∈ ms, Q m) →
      ((∃ ms, S.kind s = .nullable ms) → Q (S.strip s)) → Q s) (s : Shape) : Q s := by
  have hnullable : ∀ s ms, S.kind s = .nullable ms → S.deref s = .ok (.union ms) :=
    fun s ms hk => deref_of_members hS (.inl hk)
  have hleaf : ∀ s u, S.expand s = .leaf u → Q s := by
    intro s u hu
    have hne : ∀ ms, S.deref s ≠ .ok (.union ms) := by
      intro ms hd
      rw [expand_of_deref_union hS hd] at hu
      cases hu
    refine step s (fun ms hd => absurd hd (hne ms)) ?_
    rintro ⟨ms, hk⟩
    exact absurd (hnullable s ms hk) (hne ms)
  -- what is left of a nullable shape has members that are no unions, and is not nullable
  have hstrip : ∀ s ms, S.kind s = .nullable ms → Q (S.strip s) := by
    intro s ms hk
    have hflat : S.Flat (S.strip s) := flat_strip hS s
    refine step _ (fun us hd m hm => ?_) ?_
    · have heq : S.strip s = .union us := deref_of_flat hS hflat hd
      obtain ⟨u, hu⟩ := hflat m (heq ▸ hm)
      exact hleaf m u hu
    · rintro ⟨us, hus⟩
      exact absurd hus (kind_strip_ne_nullable hS s us)
  induction s using hS.derefInduction with
  | step s ih =>
    refine step s ih ?_
    rintro ⟨ms, hk⟩
    exact hstrip s ms hk

/-! ### Unions -/

theorem defines_iff (hS : S.Valid) :
    (S.expand s).defines segment = true ↔ S.Below segment (fun _ => True) s := by
  induction s using hS.induction with
  | concrete s hs =>
    unfold Below
    simp only [branch_concrete_iff hs, exists_eq_left, and_true]
    rw [expand_concrete hs, Expansion.defines, ← Option.isSome_iff_exists]
    cases s <;> simp [Shape.defines]
  | union ss ih =>
    rw [expand_union, Expansion.defines, Expansion.definesAny_eq_any, List.any_map,
      List.any_eq_true, below_union_iff]
    exact exists_congr fun s => and_congr_right fun hs => ih s hs
  | ref n s hn ih => rw [expand_ref hS hn, below_ref_iff hn, ih]
  | dangling n hn =>
    rw [expand_dangling hn]
    exact iff_of_false Bool.false_ne_true (not_below_dangling hn)

/-- A member has the segment if the segment alone leads somewhere. -/
theorem isSome_resolve_singleton (hS : S.Valid) :
    (S.resolve marks (b + 1) [segment] s).isSome = (S.expand s).defines segment := by
  rw [Bool.eq_iff_iff, defines_iff hS, Option.isSome_iff_exists, ← reaches_true,
    reaches_cons hS distributive_true]
  exact below_congr fun t => reaches_nil

/-- Where a path leads somewhere, its first segment does. -/
theorem isSome_first_of_resolve (hS : S.Valid)
    (h : S.resolve marks (b + 1) (segment :: rest) s = some t) :
    (S.resolve marks (b + 1) [segment] s).isSome = true := by
  have hreaches : S.Reaches marks (b + 1) (segment :: rest) (fun _ => True) s := ⟨t, h, trivial⟩
  rw [isSome_resolve_singleton hS, defines_iff hS]
  exact ((reaches_cons hS distributive_true).mp hreaches).mono fun _ _ => trivial

/-- The members that are passed over would find nothing. -/
theorem filterMap_defined (hS : S.Valid) :
    (defined S.kind (S.resolve marks (b + 1) [segment]) ms).filterMap
      (S.resolve marks (b + 1) (segment :: rest)) =
      ms.filterMap (S.resolve marks (b + 1) (segment :: rest)) := by
  unfold defined inhabited
  rw [List.filterMap_filter, List.filterMap_filter]
  refine List.filterMap_congr fun m _ => ?_
  cases hwhole : S.resolve marks (b + 1) (segment :: rest) m with
  | none => rw [ite_self, ite_self]
  | some t =>
    have hnever : (S.kind m).isNever = false := by
      rw [← Bool.not_eq_true, Kind.isNever_iff]
      intro hk
      rw [resolve_of_nowhere hS (.inl hk)] at hwhole
      cases hwhole
    rw [isSome_first_of_resolve hS hwhole, hnever]
    rfl

/-- Some members with values lack the segment if and only if there are less that have it. -/
theorem length_defined_lt (hS : S.Valid) :
    decide ((defined S.kind (S.resolve marks (b + 1) [segment]) ms).length <
      (inhabited S.kind ms).length) = ms.any fun m => (S.expand m).lacks segment := by
  unfold defined
  rw [Bool.eq_iff_iff, decide_eq_true_iff, List.length_filter_lt_length_iff_exists,
    List.any_eq_true]
  refine exists_congr fun m => ?_
  simp only [isSome_resolve_singleton hS, inhabited, List.mem_filter, and_assoc, Expansion.lacks,
    Bool.and_eq_true, Bool.not_eq_true', Bool.not_eq_true]
  exact Iff.rfl

/-- A union is traversed member by member. -/
theorem resolve_of_members (hS : S.Valid) (hk : S.kind s = .union ms) :
    S.resolve marks (b + 1) (segment :: rest) s = Expansion.combine marks segment
      (ms.map fun m => (S.expand m, S.resolve marks (b + 1) (segment :: rest) m)) := by
  have hd : S.deref s = .ok (.union ms) := deref_of_members hS (.inr hk)
  rw [kind_of_deref hS hd] at hk
  have hside : S.SideBySide (.union ms) := by
    refine ⟨?_, ?_, fun us => ?_⟩ <;>
      · rw [hk]
        exact nofun
  rw [resolve_of_deref hS hd, resolve_union hside]

/-- A union finds what it gathers from its members. -/
theorem resolve_of_union (hS : S.Valid) (hk : S.kind s = .union ms) :
    S.resolve marks (b + 1) (segment :: rest) s =
      gather marks ms S.kind (S.resolve marks (b + 1) [segment])
        (S.resolve marks (b + 1) (segment :: rest)) := by
  have hvalues : (Prod.snd ∘ fun m =>
      (S.expand m, S.resolve marks (b + 1) (segment :: rest) m)) =
      S.resolve marks (b + 1) (segment :: rest) := rfl
  rw [resolve_of_members hS hk]
  unfold gather Expansion.combine
  dsimp only
  rw [filterMap_defined hS, length_defined_lt hS, List.filterMap_map, List.any_map, hvalues]
  cases ms.filterMap (S.resolve marks (b + 1) (segment :: rest)) <;> rfl

end Schema

end TypedPaths

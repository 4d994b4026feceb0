/-
TypedPaths/Proofs/Descent.lean

What segments lead to, found step by step.

Design.  A program that knows kinds alone finds what segments lead to by going on from a slot with
the rest of them, by starting again on what is left of a nullable shape, and by asking the members
of a union.  The rules of `Schema.Resolves` say so, and a derivation is a tree of such calls that
has come to an end.  Each rule is matched by an equation of `Schema.resolve`, so that the result of a
run is what the segments lead to.  A run is found for every shape by induction on the segments, and
for each of them on members of unions and on what is left of nullable shapes.

A property that shapes hand on to their parts is handed on along a run as well, and to its result.

Main results: `resolves_iff`, `Hereditary.resolve`.
-/
import TypedPaths.Proofs.Stepping

namespace TypedPaths

namespace Schema

open Shape

variable {S : Schema} {P : Shape → Prop} {marks : AbsenceMarks} {b : Nat} {segment : String}
  {rest : List String} {s t : Shape} {ms : List Shape} {slot : Slot}

/-! ### Runs -/

/-- How what segments lead to is found.  Each shape whose kind is found has the property. -/
inductive Resolves (S : Schema) (P : Shape → Prop) (marks : AbsenceMarks) :
    Budget → List String → Shape → Option Shape → Prop
  | here {b : Budget} {s : Shape} : Resolves S P marks b [] s (some s)
  | exhausted {segment : String} {rest : List String} {s : Shape} :
      Resolves S P marks 0 (segment :: rest) s (some .unknown)
  | any {b : Budget} {segment : String} {rest : List String} {s : Shape} :
      S.Classifies P s .any → Resolves S P marks (b + 1) (segment :: rest) s (some .any)
  | unknown {b : Budget} {segment : String} {rest : List String} {s : Shape} :
      S.Classifies P s .unknown → Resolves S P marks (b + 1) (segment :: rest) s (some .unknown)
  | nowhere {b : Budget} {segment : String} {rest : List String} {s : Shape} {k : Kind} :
      S.Classifies P s k → k = .never ∨ k = .primitive →
      Resolves S P marks (b + 1) (segment :: rest) s none
  | nullable {b : Budget} {segment : String} {rest : List String} {s t : Shape}
      {ms : List Shape} {found : Option Shape} :
      S.Classifies P s (.nullable ms) → S.Strips s t →
      Resolves S P marks (b + 1) (segment :: rest) t found →
      Resolves S P marks (b + 1) (segment :: rest) s (found.map (markIf marks.optional))
  | union {b : Budget} {segment : String} {rest : List String} {s : Shape} {ms : List Shape}
      {kinds : Shape → Kind} {first whole : Shape → Option Shape} :
      S.Classifies P s (.union ms) → (∀ m ∈ ms, S.Classifies P m (kinds m)) →
      (∀ m ∈ ms, kinds m ≠ .never → Resolves S P marks (b + 1) [segment] m (first m)) →
      (∀ m ∈ ms, kinds m ≠ .never → first m ≠ none →
        Resolves S P marks (b + 1) (segment :: rest) m (whole m)) →
      Resolves S P marks (b + 1) (segment :: rest) s (gather marks ms kinds first whole)
  | lacking {b : Budget} {segment : String} {rest : List String} {s : Shape} {k : Kind} :
      S.Classifies P s k → k.isContainer = true → k.slot? segment = none →
      Resolves S P marks (b + 1) (segment :: rest) s none
  | certain {b : Budget} {segment : String} {rest : List String} {s : Shape} {k : Kind}
      {slot : Slot} {found : Option Shape} :
      S.Classifies P s k → k.isContainer = true → k.slot? segment = some slot →
      slot.presence = .certain → Resolves S P marks b rest slot.shape found →
      Resolves S P marks (b + 1) (segment :: rest) s found
  | unchecked {b : Budget} {segment : String} {rest : List String} {s : Shape} {k : Kind}
      {slot : Slot} {found : Option Shape} :
      S.Classifies P s k → k.isContainer = true → k.slot? segment = some slot →
      slot.presence = .unchecked → Resolves S P marks b rest slot.shape found →
      Resolves S P marks (b + 1) (segment :: rest) s (found.map (markIf marks.index))
  | last {b : Budget} {segment : String} {s : Shape} {k : Kind} {slot : Slot} :
      S.Classifies P s k → k.isContainer = true → k.slot? segment = some slot →
      slot.presence = .optional →
      Resolves S P marks (b + 1) [segment] s (some slot.shape.orUndefined)
  | optional {b : Budget} {segment : String} {rest : List String} {s t : Shape} {k : Kind}
      {slot : Slot} {found : Option Shape} :
      S.Classifies P s k → k.isContainer = true → k.slot? segment = some slot →
      slot.presence = .optional → rest ≠ [] → S.Strips slot.shape t →
      Resolves S P marks b rest t found →
      Resolves S P marks (b + 1) (segment :: rest) s (found.map (markIf marks.optional))

variable {segments : List String} {found : Option Shape}

/-- The rules find no other shape than the one that is computed. -/
theorem Resolves.eq (hS : S.Valid) (h : S.Resolves P marks b segments s found) :
    S.resolve marks b segments s = found := by
  induction h with
  | here => exact resolve_nil _
  | exhausted => exact resolve_zero
  | any hclass => exact resolve_of_any (hclass.eq hS)
  | unknown hclass => exact resolve_of_unknown (hclass.eq hS)
  | nowhere hclass hk =>
    obtain rfl := hclass.eq hS
    exact resolve_of_nowhere hS hk
  | nullable hclass hstrips _ ih =>
    rw [resolve_of_nullable hS (hclass.eq hS), hstrips.eq hS, ih]
  | union hclass hkinds _ _ ihfirst ihwhole =>
    rw [resolve_of_union hS (hclass.eq hS)]
    have heq : ∀ m ∈ _, S.kind m = _ := fun m hm => (hkinds m hm).eq hS
    refine gather_congr heq (fun m hm hk => ?_) fun m hm hk hfirst => ?_
    · exact ihfirst m hm (heq m hm ▸ hk)
    · have hk := heq m hm ▸ hk
      exact ihwhole m hm hk (ihfirst m hm hk ▸ hfirst)
  | lacking hclass hk hslot =>
    obtain rfl := hclass.eq hS
    rw [resolve_of_isContainer hS hk, hslot, Option.bind_none]
  | certain hclass hk hslot hpresence _ ih =>
    obtain rfl := hclass.eq hS
    rw [resolve_of_isContainer hS hk, hslot, Option.bind_some, enter, hpresence, ih]
  | unchecked hclass hk hslot hpresence _ ih =>
    obtain rfl := hclass.eq hS
    rw [resolve_of_isContainer hS hk, hslot, Option.bind_some, enter, hpresence, ih]
  | last hclass hk hslot hpresence =>
    obtain rfl := hclass.eq hS
    rw [resolve_of_isContainer hS hk, hslot, Option.bind_some, enter, hpresence]
    exact if_pos rfl
  | optional hclass hk hslot hpresence hrest hstrips _ ih =>
    obtain rfl := hclass.eq hS
    rw [resolve_of_isContainer hS hk, hslot, Option.bind_some, enter, hpresence]
    rw [hstrips.eq hS, ih]
    exact if_neg hrest

section

variable (hS : S.Valid) (hP : S.Hereditary P)

include hS hP

theorem Hereditary.slot? (hs : P s) (hk : (S.kind s).isContainer = true)
    (hslot : (S.kind s).slot? segment = some slot) : P slot.shape := by
  obtain ⟨p, hp, rfl⟩ := Option.map_eq_some_iff.mp hslot
  exact hP.slot hS hs hk (List.mem_of_find?_eq_some hp)

/-- From a container, the run goes on in one of its slots. -/
theorem resolves_container (hs : P s) (hk : (S.kind s).isContainer = true)
    (hrest : ∀ t, P t → S.Resolves P marks b rest t (S.resolve marks b rest t)) :
    S.Resolves P marks (b + 1) (segment :: rest) s
      (S.resolve marks (b + 1) (segment :: rest) s) := by
  have hclass : S.Classifies P s (S.kind s) := classifies hS hP hs
  rw [resolve_of_isContainer hS hk]
  cases hslot : (S.kind s).slot? segment with
  | none => exact .lacking hclass hk hslot
  | some slot =>
    have hshape : P slot.shape := hP.slot? hS hs hk hslot
    rw [Option.bind_some, enter]
    cases hpresence : slot.presence with
    | certain => exact .certain hclass hk hslot hpresence (hrest _ hshape)
    | unchecked => exact .unchecked hclass hk hslot hpresence (hrest _ hshape)
    | optional =>
      by_cases hnil : rest = []
      · subst hnil
        exact .last hclass hk hslot hpresence
      · have hstripped : P (S.strip slot.shape) := hP.strip hS hshape
        dsimp only
        rw [if_neg hnil]
        exact .optional hclass hk hslot hpresence hnil (strips hS _) (hrest _ hstripped)

/-- A segment takes a run as far as the slots below a shape, if it does so below the members of a
union and below what is left of a nullable shape. -/
theorem resolves_cons (hs : P s)
    (hrest : ∀ t, P t → S.Resolves P marks b rest t (S.resolve marks b rest t))
    (hmember : ∀ ms, S.deref s = .ok (.union ms) → ∀ m ∈ ms, P m →
      S.Resolves P marks (b + 1) [segment] m (S.resolve marks (b + 1) [segment] m) ∧
        S.Resolves P marks (b + 1) (segment :: rest) m
          (S.resolve marks (b + 1) (segment :: rest) m))
    (hstrip : (∃ ms, S.kind s = .nullable ms) → P (S.strip s) →
      S.Resolves P marks (b + 1) (segment :: rest) (S.strip s)
        (S.resolve marks (b + 1) (segment :: rest) (S.strip s))) :
    S.Resolves P marks (b + 1) (segment :: rest) s
      (S.resolve marks (b + 1) (segment :: rest) s) := by
  have hclass : S.Classifies P s (S.kind s) := classifies hS hP hs
  rcases (S.kind s).forms with hk | hk | ⟨ms, hk | hk⟩ | hk
  · rcases Kind.isTerminal_iff.mp hk with hk | hk | hk
    · rw [resolve_of_nowhere hS (.inr hk)]
      exact .nowhere hclass (.inr hk)
    · rw [resolve_of_nowhere hS (.inl hk)]
      exact .nowhere hclass (.inl hk)
    · rw [resolve_of_unknown hk]
      exact .unknown (hk ▸ hclass)
  · rw [resolve_of_any hk]
    exact .any (hk ▸ hclass)
  · rw [resolve_of_nullable hS hk]
    exact .nullable (hk ▸ hclass) (strips hS s) (hstrip ⟨ms, hk⟩ (hP.strip hS hs))
  · have hd : S.deref s = .ok (.union ms) := deref_of_members hS (.inr hk)
    have hms : ∀ m ∈ ms, P m := hP.member hs hd
    rw [resolve_of_union hS hk]
    exact .union (hk ▸ hclass) (fun m hm => classifies hS hP (hms m hm))
      (fun m hm _ => (hmember ms hd m hm (hms m hm)).1)
      fun m hm _ _ => (hmember ms hd m hm (hms m hm)).2
  · exact resolves_container hS hP hs hk hrest

/-- By induction on the segments, and on where shapes lead, the rules find what is computed. -/
theorem resolves (hs : P s) :
    S.Resolves P marks b segments s (S.resolve marks b segments s) := by
  induction segments generalizing b s with
  | nil =>
    rw [resolve_nil]
    exact .here
  | cons segment rest ih =>
    cases b with
    | zero => exact .exhausted
    | succ b =>
      -- a union asks for the first segment alone, so this is needed before all of them
      have hfirst : ∀ s, P s →
          S.Resolves P marks (b + 1) [segment] s (S.resolve marks (b + 1) [segment] s) := by
        intro s
        induction s using hS.stripInduction with
        | step s ihmember ihstrip =>
          intro hs
          refine resolves_cons hS hP hs (fun t _ => ?_) (fun ms hd m hm hPm => ?_) ihstrip
          · rw [resolve_nil]
            exact .here
          · exact ⟨ihmember ms hd m hm hPm, ihmember ms hd m hm hPm⟩
      induction s using hS.stripInduction with
      | step s ihmember ihstrip =>
        refine resolves_cons hS hP hs (fun t ht => ih ht) (fun ms hd m hm hPm => ?_) ihstrip
        exact ⟨hfirst m hPm, ihmember ms hd m hm hPm⟩

/-- Following segments always ends, where they lead. -/
theorem resolves_iff (hs : P s) :
    S.Resolves P marks b segments s found ↔ S.resolve marks b segments s = found := by
  constructor
  · exact Resolves.eq hS
  · rintro rfl
    exact resolves hS hP hs

end

/-! ### What is handed on to the result -/

/-- What a union gathers has the property if all that its members find has. -/
theorem Hereditary.gather (hP : S.Hereditary P) {kinds : Shape → Kind}
    {first whole : Shape → Option Shape}
    (hwhole : ∀ m ∈ ms, kinds m ≠ .never → first m ≠ none → ∀ u, whole m = some u → P u)
    (h : gather marks ms kinds first whole = some t) : P t := by
  obtain ⟨values, mark, -, rfl, hvalues⟩ := exists_of_gather h
  refine hP.markIf (hP.unionOf fun u hu => ?_)
  obtain ⟨m, hm, hk, hfirst, hmu⟩ := hvalues u hu
  exact hwhole m hm hk hfirst u hmu

theorem Hereditary.map_markIf (hP : S.Hereditary P) {mark : Bool}
    (hfound : ∀ u, found = some u → P u) :
    ∀ u, found.map (Shape.markIf mark) = some u → P u :=
  forall_map_markIf hP.markIf hfound

theorem Resolves.property (hS : S.Valid) (hP : S.Hereditary P)
    (h : S.Resolves P marks b segments s found) (hs : P s) : ∀ t, found = some t → P t := by
  induction h with
  | here =>
    rintro t ⟨⟩
    exact hs
  | exhausted =>
    rintro t ⟨⟩
    exact hP.of_parts_nil nofun rfl
  | any =>
    rintro t ⟨⟩
    exact hP.of_parts_nil nofun rfl
  | unknown =>
    rintro t ⟨⟩
    exact hP.of_parts_nil nofun rfl
  | nowhere => exact nofun
  | nullable _ hstrips _ ih =>
    obtain rfl := hstrips.eq hS
    exact hP.map_markIf (ih (hP.strip hS hs))
  | union hclass _ _ _ _ ihwhole =>
    have hms := hP.member hs (deref_of_members hS (.inr (hclass.eq hS)))
    intro t ht
    exact hP.gather (fun m hm hk hfirst => ihwhole m hm hk hfirst (hms m hm)) ht
  | lacking => exact nofun
  | certain hclass hk hslot _ _ ih =>
    obtain rfl := hclass.eq hS
    exact ih (hP.slot? hS hs hk hslot)
  | unchecked hclass hk hslot _ _ ih =>
    obtain rfl := hclass.eq hS
    exact hP.map_markIf (ih (hP.slot? hS hs hk hslot))
  | last hclass hk hslot _ =>
    obtain rfl := hclass.eq hS
    rintro t ⟨⟩
    exact hP.orUndefined (hP.slot? hS hs hk hslot)
  | optional hclass hk hslot _ _ hstrips _ ih =>
    obtain rfl := hclass.eq hS
    obtain rfl := hstrips.eq hS
    exact hP.map_markIf (ih (hP.strip hS (hP.slot? hS hs hk hslot)))

/-- A shape hands on the property to what segments lead to from it. -/
theorem Hereditary.resolve (hS : S.Valid) (hP : S.Hereditary P) (hs : P s)
    (h : S.resolve marks b segments s = some t) : P t :=
  (resolves hS hP hs).property hS hP hs t h

end Schema

end TypedPaths

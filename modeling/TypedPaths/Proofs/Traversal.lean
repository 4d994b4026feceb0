/-
TypedPaths/Proofs/Traversal.lean

Valid schemas are safe to traverse.

Design.  In a valid schema, a shape can be resolved if the names in it have definitions: it leads
somewhere, and the names in the shape it leads to have definitions too (`Schema.Resolvable`).
Shapes hand this on to their parts, and it holds of what is made of such parts.  So it holds of every
shape that comes up in a traversal from the root, whether it is part of the schema or was made on the
way, by stripping, by marks or of what the members of a union found.  The rule for a shape that leads
nowhere is never used there.

The rules of the four questions that are asked of the root say which traversals are made, and in
which order: `Schema.FindsPaths`, `Schema.FindsValueType`, `Schema.FindsCompletions` and
`Schema.Checks`.

Main results: `hereditary_resolvable`, `traversal_ends`.
-/
import TypedPaths.Proofs.Depth
import TypedPaths.Proofs.Descent

namespace TypedPaths

namespace Schema

open Shape

variable {S : Schema} {P : Shape → Prop} {s t : Shape} {options : ListingOptions}
  {marks : AbsenceMarks} {path offset : String}

/-! ### Shapes that can be resolved -/

/-- Every name in the shape has a definition. -/
def Defines (S : Schema) (s : Shape) : Prop :=
  ∀ n, s.Mentions n → ∃ t, S.definitions.find? n = some t

/-- The shape leads somewhere, and the names in it and where it leads have definitions. -/
def Resolvable (S : Schema) (s : Shape) : Prop :=
  S.Defines s ∧ ∃ t, S.deref s = .ok t ∧ S.Defines t

/-- A shape made of parts mentions no other names than they do, and a definition only names that are
defined. -/
theorem hereditary_defines (hS : S.Valid) : S.Hereditary S.Defines where
  part := fun hs ht n hn => hs n (.part ht hn)
  definition := fun hn _ => hS.closed _ (mem_shapes_of_find? hn)
  assemble := by
    intro s hs hparts n hn
    obtain ⟨t, ht, hn⟩ := (mentions_iff_exists_part hs).mp hn
    exact hparts t ht n hn

/-- In a valid schema, definitions for all names are enough for a shape to lead somewhere. -/
theorem resolvable_iff (hS : S.Valid) : S.Resolvable s ↔ S.Defines s := by
  refine ⟨fun h => h.1, fun h => ⟨h, ?_⟩⟩
  have hdefined : ∀ n, s = .ref n → ∃ t, S.definitions.find? n = some t := by
    rintro n rfl
    exact h n .ref
  obtain ⟨t, ht⟩ := hS.exists_deref hdefined
  exact ⟨t, ht, (hereditary_defines hS).deref h ht⟩

/-- Shapes that can be resolved hand this on to their parts and to what they lead to, and what is
made of them can be resolved as well. -/
theorem hereditary_resolvable (hS : S.Valid) : S.Hereditary S.Resolvable where
  part := by
    intro s t hs ht
    rw [resolvable_iff hS] at hs ⊢
    exact (hereditary_defines hS).part hs ht
  definition := by
    intro n s hn hs
    rw [resolvable_iff hS] at hs ⊢
    exact (hereditary_defines hS).definition hn hs
  assemble := by
    intro s hs hparts
    rw [resolvable_iff hS]
    exact (hereditary_defines hS).assemble hs fun t ht => (hparts t ht).1

theorem resolvable_root (hS : S.Valid) : S.Resolvable S.root :=
  (resolvable_iff hS).mpr (hS.closed _ List.mem_cons_self)

/-! ### Questions that are asked of the root -/

/-- How the paths of the schema are found. -/
inductive FindsPaths (S : Schema) (P : Shape → Prop) (options : ListingOptions) :
    Except Error PatternSet → Prop
  | invalid {e : Error} : options.validate = .error e → FindsPaths S P options (.error e)
  | listed {found : List Pattern} :
      options.validate = .ok () →
      S.Enumerates P options.writableOnly options.depth S.root found →
      FindsPaths S P options (.ok (.ofList found))

/-- How the shape of the value at a path is found. -/
inductive FindsValueType (S : Schema) (P : Shape → Prop) (marks : AbsenceMarks) (path : String) :
    Except Error Shape → Prop
  | found {t : Shape} :
      S.Resolves P marks resolveDepth (Path.segments path) S.root (some t) →
      FindsValueType S P marks path (.ok t)
  | missing :
      S.Resolves P marks resolveDepth (Path.segments path) S.root none →
      FindsValueType S P marks path (.error (.invalidPath path))

/-- How the shape that all segments but the last lead to is found, however many they are. -/
def FindsParent (S : Schema) (P : Shape → Prop) (path : String) (found : Option Shape) : Prop :=
  S.Resolves P .writing (max resolveDepth (Path.segments path).dropLast.length)
    (Path.segments path).dropLast S.root found

/-- How the paths that continue a partial path are found. -/
inductive FindsCompletions (S : Schema) (P : Shape → Prop) (offset : String)
    (options : ListingOptions) : Except Error PatternSet → Prop
  | invalid {e : Error} :
      options.validate = .error e → FindsCompletions S P offset options (.error e)
  | short {answer : Except Error PatternSet} :
      options.validate = .ok () → (Path.segments offset).dropLast = [] →
      S.FindsPaths P options answer → FindsCompletions S P offset options answer
  | below {s : Shape} {found : List Pattern} :
      options.validate = .ok () → (Path.segments offset).dropLast ≠ [] →
      S.FindsParent P offset (some s) →
      S.Enumerates P options.writableOnly options.depth s found →
      FindsCompletions S P offset options
        (.ok (PatternSet.below (Path.segments offset).dropLast (.ofList found)))
  | lost {answer : Except Error PatternSet} :
      options.validate = .ok () → (Path.segments offset).dropLast ≠ [] →
      S.FindsParent P offset none → S.FindsPaths P options answer →
      FindsCompletions S P offset options answer

/-- How it is found whether a path is allowed. -/
inductive Checks (S : Schema) (P : Shape → Prop) (path : String) (options : ListingOptions) :
    Except Error Unit → Prop
  | root : Path.segments path = [] → Checks S P path options (.ok ())
  | lost :
      Path.segments path ≠ [] → S.FindsParent P path none →
      Checks S P path options (.error (.invalidPath path))
  | invalid {s : Shape} {e : Error} :
      Path.segments path ≠ [] → S.FindsParent P path (some s) →
      S.FindsCompletions P path options (.error e) → Checks S P path options (.error e)
  | listed {s : Shape} {set : PatternSet} :
      Path.segments path ≠ [] → S.FindsParent P path (some s) →
      S.FindsCompletions P path options (.ok set) →
      Checks S P path options
        (if set.contains path then .ok () else .error (.invalidPath path))

section

variable (hS : S.Valid) (hP : S.Hereditary P) (hroot : P S.root)

include hS hP hroot

/-- The rules list the paths of a schema as they are computed, or refuse the options. -/
theorem findsPaths_iff {answer : Except Error PatternSet} :
    S.FindsPaths P options answer ↔ S.paths options = answer := by
  have hlist : S.Enumerates P options.writableOnly options.depth S.root _ :=
    enumerates hS hP hroot
  unfold paths
  constructor
  · intro h
    cases h with
    | invalid hv => rw [hv, Except.map]
    | listed hv hfound =>
      obtain rfl := hfound.eq hS
      rw [hv, Except.map, patterns]
  · rintro rfl
    cases hv : options.validate with
    | error e => exact .invalid hv
    | ok => exact .listed hv hlist

theorem findsValueType_iff {answer : Except Error Shape} :
    S.FindsValueType P marks path answer ↔ S.valueType marks path = answer := by
  have hresolves : S.Resolves P marks resolveDepth (Path.segments path) S.root _ :=
    resolves hS hP hroot
  unfold valueType shapeBelow
  constructor
  · intro h
    cases h with
    | found h => rw [h.eq hS]
    | missing h => rw [h.eq hS]
  · rintro rfl
    cases hfound : S.resolve marks resolveDepth (Path.segments path) S.root with
    | some t => exact .found (hfound ▸ hresolves)
    | none => exact .missing (hfound ▸ hresolves)

theorem findsParent_iff {found : Option Shape} :
    S.FindsParent P path found ↔ S.resolveParent (Path.segments path).dropLast = found :=
  resolves_iff hS hP hroot

/-- The rules complete a partial path as it is computed, from its parent or else from the root. -/
theorem findsCompletions_iff {answer : Except Error PatternSet} :
    S.FindsCompletions P offset options answer ↔ S.completions offset options = answer := by
  have hpaths : S.FindsPaths P options (S.paths options) := (findsPaths_iff hS hP hroot).mpr rfl
  have hparent : S.FindsParent P offset _ := (findsParent_iff hS hP hroot).mpr rfl
  unfold completions
  constructor
  · intro h
    cases h with
    | invalid hv => rw [hv, Except.bind]
    | short hv hnil h =>
      rw [hv, Except.bind]
      dsimp only
      rw [if_pos hnil]
      exact (findsPaths_iff hS hP hroot).mp h
    | below hv hnil hs hfound =>
      obtain rfl := hfound.eq hS
      rw [hv, Except.bind]
      dsimp only
      rw [if_neg hnil, (findsParent_iff hS hP hroot).mp hs]
      rfl
    | lost hv hnil hnone h =>
      rw [hv, Except.bind]
      dsimp only
      rw [if_neg hnil, (findsParent_iff hS hP hroot).mp hnone]
      exact (findsPaths_iff hS hP hroot).mp h
  · rintro rfl
    cases hv : options.validate with
    | error e => exact .invalid hv
    | ok =>
      rw [Except.bind]
      dsimp only
      by_cases hnil : (Path.segments offset).dropLast = []
      · rw [if_pos hnil]
        exact .short hv hnil hpaths
      · rw [if_neg hnil]
        cases hs : S.resolveParent (Path.segments offset).dropLast with
        | none => exact .lost hv hnil (hs ▸ hparent) hpaths
        | some s =>
          have hPs : P s := hP.resolve hS hroot hs
          exact .below hv hnil (hs ▸ hparent) (enumerates hS hP hPs)

/-- The rules allow the paths that are allowed, and refuse the others with the same error. -/
theorem checks_iff {answer : Except Error Unit} :
    S.Checks P path options answer ↔ Catalog.check ⟨S, hS⟩ path options = answer := by
  have hparent : S.FindsParent P path _ := (findsParent_iff hS hP hroot).mpr rfl
  have hcompletions : S.FindsCompletions P path options (S.completions path options) :=
    (findsCompletions_iff hS hP hroot).mpr rfl
  have hcheck : Catalog.check ⟨S, hS⟩ path options =
      if Path.segments path = [] then .ok ()
      else if (S.resolveParent (Path.segments path).dropLast).isNone then
        .error (.invalidPath path)
      else (S.completions path options).bind fun set =>
        if set.contains path then .ok () else .error (.invalidPath path) := by
    rw [← Catalog.completions_eq (C := ⟨S, hS⟩)]
    rfl
  rw [hcheck]
  constructor
  · intro h
    cases h with
    | root hnil => rw [if_pos hnil]
    | lost hne hnone =>
      rw [if_neg hne, (findsParent_iff hS hP hroot).mp hnone]
      rfl
    | invalid hne hs he =>
      rw [if_neg hne, (findsParent_iff hS hP hroot).mp hs,
        (findsCompletions_iff hS hP hroot).mp he]
      rfl
    | listed hne hs hset =>
      rw [if_neg hne, (findsParent_iff hS hP hroot).mp hs,
        (findsCompletions_iff hS hP hroot).mp hset]
      rfl
  · rintro rfl
    by_cases hnil : Path.segments path = []
    · rw [if_pos hnil]
      exact .root hnil
    · rw [if_neg hnil]
      cases hs : S.resolveParent (Path.segments path).dropLast with
      | none => exact .lost hnil (hs ▸ hparent)
      | some s =>
        have hparent : S.FindsParent P path (some s) := hs ▸ hparent
        cases hset : S.completions path options with
        | error e => exact .invalid hnil hparent (hset ▸ hcompletions)
        | ok set => exact .listed hnil hparent (hset ▸ hcompletions)

end

/-- Every traversal of a valid schema ends, also one that starts at a shape which is not part of the
schema, and with the answer that is computed from expansions.  In a traversal from the root, every
shape whose kind is found can be resolved, and so can every shape that segments lead to. -/
theorem traversal_ends (hS : S.Valid) :
    (∀ s : Shape,
      (∀ k, S.Classifies (fun _ => True) s k ↔ S.kind s = k) ∧
      (∀ t, S.Strips s t ↔ S.strip s = t) ∧
      (∀ found, S.FindsNullish s found ↔ S.hasNullish s = found) ∧
      (∀ w b found, S.Enumerates (fun _ => True) w b s found ↔ S.listing w b s = found) ∧
      (∀ marks b segments found,
        S.Resolves (fun _ => True) marks b segments s found ↔
          S.resolve marks b segments s = found)) ∧
    (∀ options answer,
      S.FindsPaths S.Resolvable options answer ↔ S.paths options = answer) ∧
    (∀ marks path answer,
      S.FindsValueType S.Resolvable marks path answer ↔ S.valueType marks path = answer) ∧
    (∀ offset options answer,
      S.FindsCompletions S.Resolvable offset options answer ↔
        S.completions offset options = answer) ∧
    (∀ path options answer,
      S.Checks S.Resolvable path options answer ↔
        Catalog.check ⟨S, hS⟩ path options = answer) ∧
    (∀ marks b segments t, S.resolve marks b segments S.root = some t → S.Resolvable t) := by
  have hall : S.Hereditary fun _ => True := hereditary_true S
  have hresolvable : S.Hereditary S.Resolvable := hereditary_resolvable hS
  have hroot : S.Resolvable S.root := resolvable_root hS
  refine ⟨fun s => ⟨fun k => ?_, fun t => ?_, fun found => ?_, fun w b found => ?_,
    fun marks b segments found => ?_⟩, fun options answer => ?_, fun marks path answer => ?_,
    fun offset options answer => ?_, fun path options answer => ?_, fun marks b segments t h => ?_⟩
  · exact classifies_iff hS hall trivial
  · exact strips_iff hS
  · exact findsNullish_iff hS
  · exact enumerates_iff hS hall trivial
  · exact resolves_iff hS hall trivial
  · exact findsPaths_iff hS hresolvable hroot
  · exact findsValueType_iff hS hresolvable hroot
  · exact findsCompletions_iff hS hresolvable hroot
  · exact checks_iff hS hresolvable hroot
  · exact hresolvable.resolve hS hroot h

theorem traversal_of_persons_ends :
    persons.Valid ∧
    persons.Classifies (fun _ => True) (.union [.ref "nobody", .null, .ref "person"])
      (.nullable [.ref "nobody", .null, .ref "person"]) ∧
    persons.FindsValueType persons.Resolvable .reading "partner.name"
      (.ok (Shape.primitive .string).orUndefined) ∧
    persons.Resolvable (.union [.null, .ref "person"]) := by
  have hvalid : persons.Valid := by decide +kernel
  obtain ⟨hshapes, -, hvalueType, -, -, hled⟩ := traversal_ends hvalid
  refine ⟨hvalid, ((hshapes _).1 _).mpr ?_, (hvalueType _ _ _).mpr ?_,
    hled .reading 1 ["partner"] _ ?_⟩
  · decide +kernel
  · decide +kernel
  · decide +kernel

end Schema

end TypedPaths

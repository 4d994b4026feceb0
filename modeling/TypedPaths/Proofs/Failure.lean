/-
TypedPaths/Proofs/Failure.lean

When a write fails, and what it reports.

Design.  A write walks down the data along its segments.  It fails where the walk leaves the data,
or where the value at its end cannot hold the last segment.  It reports that place, the segment
that could not be used there and what the place holds (`Refuses`).  The place is an initial part
of the segments, and what is reported of it is what a look-up finds there (`refuses_of_update`).

The report has the place as a text, and a path of one empty segment has no text of its own: it
reads as the top of the data.  So a write that fails at the entry with the empty name reports the
top (`set_below_empty_name`).  Every other place is read back from its text.

Main results: `exists_update_iff`, `refuses_of_update`, `set_outcome`.
-/
import TypedPaths.Proofs.Writing

namespace TypedPaths

/-- The kind of what is found at a place. -/
def DataKind.ofFound (found : Option Json) : DataKind := found.elim undefined of

theorem DataKind.of_ne_undefined (v : Json) : DataKind.of v ≠ undefined := by
  cases v <;> exact nofun

namespace Json

variable {v w : Json} {key last : String} {trail place ps : List String} {found : Option Json}
  {e : Error}

/-! ### Which writes succeed -/

/-- A value can be put under the segment: an object takes every name, an array a position that it has
or the one after its end. -/
def Takes (key : String) : Json → Prop
  | object _ => True
  | array items => ∃ i, Path.index? key = some i ∧ i ≤ items.length
  | _ => False

/-- A write to a single segment succeeds exactly if the value takes it. -/
theorem exists_assign_iff : (∃ u, assign trail key w v = .ok u) ↔ v.Takes key := by
  cases v with
  | object fields => exact ⟨fun _ => trivial, fun _ => ⟨_, rfl⟩⟩
  | array items =>
    rw [assign, Takes]
    cases Path.index? key with
    | none => simp
    | some i =>
      dsimp only
      split
      · next hlt => exact ⟨fun _ => ⟨i, rfl, Nat.le_of_lt hlt⟩, fun _ => ⟨_, rfl⟩⟩
      · split
        · next heq => exact ⟨fun _ => ⟨i, rfl, Nat.le_of_eq heq⟩, fun _ => ⟨_, rfl⟩⟩
        · next hlt hne =>
          simp only [reduceCtorEq, exists_const, Option.some.injEq, exists_eq_left', false_iff]
          omega
  | _ =>
    refine ⟨?_, False.elim⟩
    rintro ⟨u, hu⟩
    cases hu

/-- A write succeeds if and only if the segments before the last lead to a value that takes the last. -/
theorem exists_update_iff :
    (∃ u, update w trail (ps ++ [last]) v = .ok u) ↔
      ∃ parent, lookup? ps v = some parent ∧ parent.Takes last := by
  induction ps generalizing trail v with
  | nil =>
    rw [List.nil_append, update, exists_assign_iff]
    simp [lookup?]
  | cons key ps ih =>
    have hrest : ps ++ [last] ≠ [] := List.append_ne_nil_of_right_ne_nil ps (List.cons_ne_nil _ _)
    simp only [List.cons_append, update_cons_eq_ok_iff hrest, lookup?, Option.bind_eq_some_iff]
    constructor
    · rintro ⟨u, child, c, hchild, hc, -⟩
      obtain ⟨parent, hparent, htakes⟩ := ih.mp ⟨c, hc⟩
      exact ⟨parent, ⟨child, hchild, hparent⟩, htakes⟩
    · rintro ⟨parent, ⟨child, hchild, hparent⟩, htakes⟩
      obtain ⟨c, hc⟩ := ih.mpr ⟨parent, hparent, htakes⟩
      exact ⟨_, child, c, hchild, hc, rfl⟩

/-! ### What a failed write reports -/

/-- The failure of a write that cannot use the segment `key` at a place where this is found. -/
inductive Refuses (place : List String) (key : String) (found : Option Json) : Error → Prop
  | kind : Refuses place key found (.notAContainer (Path.join place) key (.ofFound found))
  | position {items : List Json} {i : Nat} : found = some (.array items) →
      Path.index? key = some i → items.length < i →
      Refuses place key found (.indexOutOfBounds (Path.join place) i items.length)

theorem refuses_of_assign (h : assign trail key w v = .error e) : Refuses trail key (some v) e := by
  cases v with
  | object fields => cases h
  | array items =>
    rw [assign] at h
    cases hkey : Path.index? key with
    | none =>
      rw [hkey] at h
      cases h
      exact .kind
    | some i =>
      simp only [hkey] at h
      split at h
      · cases h
      · split at h
        · cases h
        · next hlt hne =>
          cases h
          exact .position rfl hkey (by omega)
  | _ =>
    cases h
    exact .kind

/-- A write fails at an initial part of its segments, and reports what is found there. -/
theorem refuses_of_update (hps : ps ≠ []) (h : update w trail ps v = .error e) :
    ∃ place key, place ++ [key] <+: ps ∧ Refuses (trail ++ place) key (lookup? place v) e := by
  induction ps generalizing trail v e with
  | nil => exact absurd rfl hps
  | cons key rest ih =>
    cases rest with
    | nil =>
      refine ⟨[], key, List.prefix_refl _, ?_⟩
      rw [List.append_nil]
      exact refuses_of_assign h
    | cons next rest =>
      rw [update] at h
      split at h
      · cases hchild : v.child? key with
        | none =>
          -- the part that the first segment names is missing
          rw [hchild] at h
          cases h
          have hfound : lookup? [key] v = none := by rw [lookup?, hchild, Option.bind_none]
          exact ⟨[key], next, by simp, hfound ▸ .kind⟩
        | some child =>
          simp only [hchild] at h
          cases hc : update w (trail ++ [key]) (next :: rest) child with
          | ok c => rw [hc] at h; cases h
          | error e' =>
            rw [hc] at h
            cases h
            obtain ⟨place, k, hplace, hrefuses⟩ := ih (List.cons_ne_nil _ _) hc
            refine ⟨key :: place, k, List.cons_prefix_cons.mpr ⟨rfl, hplace⟩, ?_⟩
            rw [List.append_assoc, List.singleton_append] at hrefuses
            rwa [lookup?, hchild, Option.bind_some]
      · -- the value has no parts
        cases h
        refine ⟨[], key, by simp, ?_⟩
        rw [List.append_nil]
        exact .kind

/-! ### Writing at a path -/

variable {data value : Json} {path : String}

/-- A place that is an initial part of the segments of a path is read back from its text, unless it is
that of the empty name. -/
theorem segments_join_of_initial (hplace : place <+: Path.segments path) (hne : place ≠ [""]) :
    Path.segments (Path.join place) = place :=
  Path.segments_join (fun _ h => Path.isSegment_of_mem (hplace.subset h)) hne

theorem get?_join_of_initial (hplace : place <+: Path.segments path) (hne : place ≠ [""]) :
    data.get? (Path.join place) = lookup? place data := by
  rw [get?, segments_join_of_initial hplace hne]

/-- A write that fails reports a place on its way, and the segment that cannot be used there. -/
theorem refuses_of_set (hpath : path ≠ "") (h : data.set path value = .error e) :
    ∃ place key, place ++ [key] <+: Path.segments path ∧
      Refuses place key (lookup? place data) e := by
  have hne : Path.segments path ≠ [] := fun hnil => hpath (Path.segments_eq_nil_iff.mp hnil)
  obtain ⟨place, key, hplace, hrefuses⟩ := refuses_of_update hne h
  exact ⟨place, key, hplace, by simpa using hrefuses⟩

/-- A write succeeds exactly if the parent of the path is there and takes the last segment. -/
theorem exists_set_iff (hpath : path ≠ "") :
    (∃ written, data.set path value = .ok written) ↔
      ∃ head last parent, Path.segments path = head ++ [last] ∧
        lookup? head data = some parent ∧ parent.Takes last := by
  have hne : Path.segments path ≠ [] := fun hnil => hpath (Path.segments_eq_nil_iff.mp hnil)
  unfold set
  constructor
  · intro h
    rw [← List.dropLast_append_getLast hne, exists_update_iff] at h
    obtain ⟨parent, hparent, htakes⟩ := h
    exact ⟨_, _, parent, (List.dropLast_append_getLast hne).symm, hparent, htakes⟩
  · rintro ⟨head, last, parent, hsegments, hparent, htakes⟩
    rw [hsegments]
    exact exists_update_iff.mpr ⟨parent, hparent, htakes⟩

/-- A write succeeds if and only if all segments but the last lead to a value that takes the last.
Otherwise it reports a place that is an initial part of its segments.  Either the place holds nothing or
a value of the kind reported, and the segment reported is the next one; or it holds an array of the
length reported, behind whose end the position lies.  This is also what is found at the path reported,
unless the place is that of the empty name. -/
theorem set_outcome (data : Json) (hpath : path ≠ "") (value : Json) :
    ((∃ written, data.set path value = .ok written) ↔
      ∃ head last parent, Path.segments path = head ++ [last] ∧
        lookup? head data = some parent ∧ parent.Takes last) ∧
    (∀ e, data.set path value = .error e →
      (∃ reported key kind, e = .notAContainer reported key kind) ∨
        ∃ reported i n, e = .indexOutOfBounds reported i n) ∧
    (∀ reported key kind, data.set path value = .error (.notAContainer reported key kind) →
      ∃ place, reported = Path.join place ∧ place ++ [key] <+: Path.segments path ∧
        kind = .ofFound (lookup? place data) ∧
        (place ≠ [""] → Path.segments reported = place ∧
          (data.get? reported = none ↔ kind = .undefined) ∧
          ∀ v, data.get? reported = some v → kind = .of v)) ∧
    ∀ reported i n, data.set path value = .error (.indexOutOfBounds reported i n) →
      ∃ place items, reported = Path.join place ∧ place <+: Path.segments path ∧
        lookup? place data = some (.array items) ∧ n = items.length ∧ n < i ∧
        (place ≠ [""] →
          Path.segments reported = place ∧ data.get? reported = some (.array items)) := by
  refine ⟨exists_set_iff hpath, fun e h => ?_, fun _ key _ h => ?_, fun _ i n h => ?_⟩
  · obtain ⟨place, key, -, hrefuses⟩ := refuses_of_set hpath h
    cases hrefuses with
    | kind => exact .inl ⟨_, _, _, rfl⟩
    | position => exact .inr ⟨_, _, _, rfl⟩
  · obtain ⟨place, key', hplace, hrefuses⟩ := refuses_of_set hpath h
    cases hrefuses
    refine ⟨place, rfl, hplace, rfl, fun hne => ?_⟩
    have hprefix : place <+: Path.segments path := (List.prefix_append place [key]).trans hplace
    rw [get?_join_of_initial hprefix hne]
    refine ⟨segments_join_of_initial hprefix hne, ?_, fun v hv => ?_⟩
    · cases lookup? place data with
      | none => exact iff_of_true rfl rfl
      | some v => exact iff_of_false nofun (DataKind.of_ne_undefined v)
    · rw [hv]
      rfl
  · obtain ⟨place, key, hplace, hrefuses⟩ := refuses_of_set hpath h
    have hprefix : place <+: Path.segments path := (List.prefix_append place [key]).trans hplace
    cases hrefuses with
    | position hfound hkey hlength =>
      refine ⟨place, _, rfl, hprefix, hfound, rfl, hlength, fun hne => ?_⟩
      rw [get?_join_of_initial hprefix hne]
      exact ⟨segments_join_of_initial hprefix hne, hfound⟩

/-- A text below an entry with the empty name. -/
def unnamedEntry : Json := .object [("a", .object [("", .object [("b", .string "x")])])]

theorem set_outcome_unnamed_entry :
    "a..b.c" ≠ "" ∧
    unnamedEntry.set "a..b.c" .null = .error (.notAContainer "a..b" "c" .string) ∧
    Path.segments "a..b" ++ ["c"] <+: Path.segments "a..b.c" ∧
    unnamedEntry.get? "a..b" ≠ none := by
  have hpath : "a..b.c" ≠ "" := by decide
  have hset : unnamedEntry.set "a..b.c" .null = .error (.notAContainer "a..b" "c" .string) := by
    decide
  obtain ⟨-, -, hkind, -⟩ := set_outcome unnamedEntry hpath .null
  obtain ⟨place, hplace, hprefix, -, hread⟩ := hkind _ _ _ hset
  have hne : place ≠ [""] := by
    rintro rfl
    exact absurd hplace (by decide)
  obtain ⟨hsegments, hnone, -⟩ := hread hne
  refine ⟨hpath, hset, hsegments ▸ hprefix, fun h => ?_⟩
  cases hnone.mp h

/-- A write that fails at the entry with the empty name reports the top of the data as its place. -/
theorem set_below_empty_name :
    set (.object [("", .string "x")]) ".a" .null = .error (.notAContainer "" "a" .string) ∧
    get? (.object [("", .string "x")]) "" = some (.object [("", .string "x")]) ∧
    DataKind.of (.object [("", .string "x")]) ≠ .string ∧
    ¬ Path.segments "" ++ ["a"] <+: Path.segments ".a" := by
  decide

end Json

end TypedPaths

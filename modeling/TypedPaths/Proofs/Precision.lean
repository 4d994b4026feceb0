/-
TypedPaths/Proofs/Precision.lean

Types over too few levels.

Design.  As many levels as a path has segments are enough, and further ones change nothing
(`resolve_of_length_le`).  With less of them a run ends before the path does.  It may end where a
branch has no slot, or where it stands for everything; everywhere else it comes to a place where the
levels are used up, of which nothing is known.  One lemma for each way to go on says that such an
answer survives on the way back: it is marked, and it is merged with others of its kind, and still is
`any` or `unknown` (`Resolves.imprecise`).

With less levels more paths are possible, since what lies below them is not looked at.

Main results: `Resolves.imprecise`, `levels_add_precision`.
-/
import TypedPaths.Proofs.Descent

namespace TypedPaths

namespace Shape

variable {s t : Shape} {ss : List Shape} {mark : Bool} {found : Option Shape}

/-! ### Answers that say nothing -/

/-- The shape of everything. -/
def Imprecise (s : Shape) : Prop := s = any ∨ s = unknown

theorem imprecise_unionOf (hs : s ∈ ss) (h : s.Imprecise) : (unionOf ss).Imprecise := by
  -- neither of the two is a union, so it is still there once the members are flattened
  have hflat : s ∈ ss.flatMap spread := by
    refine List.mem_flatMap.mpr ⟨s, hs, ?_⟩
    rcases h with rfl | rfl <;> exact List.mem_singleton_self _
  unfold Shape.unionOf
  dsimp only
  split
  · exact .inl rfl
  · next hany =>
    split
    · exact .inr rfl
    · next hunknown =>
      rcases h with rfl | rfl
      · exact absurd hflat hany
      · exact absurd hflat hunknown

theorem imprecise_markIf (h : s.Imprecise) : (s.markIf mark).Imprecise := by
  cases mark with
  | false => exact h
  | true => exact imprecise_unionOf List.mem_cons_self h

theorem imprecise_map_markIf (h : ∀ s, found = some s → s.Imprecise) :
    ∀ t, found.map (markIf mark) = some t → t.Imprecise :=
  forall_map_markIf imprecise_markIf h

/-- A union of answers that say nothing says nothing. -/
theorem imprecise_gather {marks : AbsenceMarks} {ms : List Shape} {kinds : Shape → Kind}
    {first whole : Shape → Option Shape}
    (hwhole : ∀ m ∈ ms, kinds m ≠ .never → first m ≠ none → ∀ u, whole m = some u → u.Imprecise)
    (h : gather marks ms kinds first whole = some t) : t.Imprecise := by
  obtain ⟨values, mark, hne, rfl, hvalues⟩ := exists_of_gather h
  -- one of them is enough
  obtain ⟨v, hv⟩ := List.exists_mem_of_ne_nil values hne
  obtain ⟨m, hm, hk, hfirst, hmv⟩ := hvalues v hv
  exact imprecise_markIf (imprecise_unionOf hv (hwhole m hm hk hfirst v hmv))

end Shape

namespace Schema

variable {S : Schema} {P : Shape → Prop} {marks : AbsenceMarks} {b : Nat} {s : Shape}
  {segments : List String} {path : String} {found : Option Shape}

/-! ### Runs that end too early -/

/-- A run over less levels than there are segments leads nowhere, or to a shape that says nothing. -/
theorem Resolves.imprecise (h : S.Resolves P marks b segments s found)
    (hb : b < segments.length) : ∀ t, found = some t → t.Imprecise := by
  -- unions and nullable shapes spend neither a level nor a segment, so the bound is handed on
  induction h with
  | here => exact absurd hb (Nat.not_lt_zero _)
  | exhausted =>
    rintro t ⟨⟩
    exact .inr rfl
  | any =>
    rintro t ⟨⟩
    exact .inl rfl
  | unknown =>
    rintro t ⟨⟩
    exact .inr rfl
  | nowhere => exact nofun
  | nullable _ _ _ ih => exact Shape.imprecise_map_markIf (ih hb)
  | union _ _ _ _ _ ihwhole =>
    intro t ht
    exact Shape.imprecise_gather (fun m hm hk hfirst => ihwhole m hm hk hfirst hb) ht
  | lacking => exact nofun
  | certain _ _ _ _ _ ih => exact ih (Nat.lt_of_succ_lt_succ hb)
  | unchecked _ _ _ _ _ ih => exact Shape.imprecise_map_markIf (ih (Nat.lt_of_succ_lt_succ hb))
  | last => exact absurd (Nat.lt_of_succ_lt_succ hb) (Nat.not_lt_zero _)
  | optional _ _ _ _ _ _ _ ih =>
    exact Shape.imprecise_map_markIf (ih (Nat.lt_of_succ_lt_succ hb))

/-- Over less levels than there are segments, a path is rejected or its type says nothing. -/
theorem shapeBelow_of_lt (hS : S.Valid) (hb : b < (Path.segments path).length) :
    S.shapeBelow marks b s path = .error (.invalidPath path) ∨
      S.shapeBelow marks b s path = .ok .any ∨ S.shapeBelow marks b s path = .ok .unknown := by
  have hrun : S.Resolves (fun _ => True) marks b (Path.segments path) s
      (S.resolve marks b (Path.segments path) s) := resolves hS (hereditary_true S) trivial
  unfold shapeBelow
  cases hfound : S.resolve marks b (Path.segments path) s with
  | none => exact .inl rfl
  | some t =>
    rcases hrun.imprecise hb t hfound with rfl | rfl
    · exact .inr (.inl rfl)
    · exact .inr (.inr rfl)

/-! ### Different numbers of levels -/

/-- Once there are as many levels as segments, further levels change nothing. -/
theorem shapeBelow_of_length_le {c : Nat} (hb : (Path.segments path).length ≤ b)
    (hc : (Path.segments path).length ≤ c) :
    S.shapeBelow marks b s path = S.shapeBelow marks c s path := by
  unfold shapeBelow
  rw [resolve_of_length_le hb hc]

/-- A path that is possible over some levels is possible over less of them. -/
theorem exists_shapeBelow_of_le (hS : S.Valid) {c : Nat} (hbc : b ≤ c) {t : Shape}
    (h : S.shapeBelow marks c s path = .ok t) : ∃ u, S.shapeBelow marks b s path = .ok u := by
  have hreaches : S.Reaches marks c (Path.segments path) (fun _ => True) s :=
    ⟨t, shapeBelow_eq_ok.mp h, trivial⟩
  obtain ⟨u, hu⟩ := reaches_true.mp (Reaches.of_le hS Shape.distributive_true hbc hreaches)
  exact ⟨u, shapeBelow_eq_ok.mpr hu⟩

/-- Levels add precision and nothing else: from the length of the path on the answer stays the same,
below it the path is rejected or its type is `any` or `unknown`, and a path that is possible stays so
with less levels.  So the value type of a path is exact for up to 25 segments; that of a longer one
says nothing, and a longer path that is possible is not rejected. -/
theorem levels_add_precision (hS : S.Valid) (marks : AbsenceMarks) (s : Shape) (path : String) :
    (∀ b c : Nat, (Path.segments path).length ≤ b → (Path.segments path).length ≤ c →
      S.shapeBelow marks b s path = S.shapeBelow marks c s path) ∧
    (∀ b : Nat, b < (Path.segments path).length →
      S.shapeBelow marks b s path = .error (.invalidPath path) ∨
        S.shapeBelow marks b s path = .ok .any ∨ S.shapeBelow marks b s path = .ok .unknown) ∧
    (∀ (b : Nat) (t : Shape), S.shapeBelow marks (b + 1) s path = .ok t →
      ∃ u, S.shapeBelow marks b s path = .ok u) ∧
    ((Path.segments path).length ≤ 25 → ∀ b : Nat, (Path.segments path).length ≤ b →
      S.valueType marks path = S.shapeBelow marks b S.root path) ∧
    (25 < (Path.segments path).length →
      (S.valueType marks path = .error (.invalidPath path) ∨
        S.valueType marks path = .ok .any ∨ S.valueType marks path = .ok .unknown) ∧
      ∀ (b : Nat) (t : Shape), (Path.segments path).length ≤ b →
        S.shapeBelow marks b S.root path = .ok t → ∃ u, S.valueType marks path = .ok u) := by
  refine ⟨fun b c hb hc => shapeBelow_of_length_le hb hc, fun b hb => shapeBelow_of_lt hS hb,
    fun b t => exists_shapeBelow_of_le hS (Nat.le_succ b), fun hlength b hb => ?_, fun hlength => ?_⟩
  · exact shapeBelow_of_length_le hlength hb
  · refine ⟨shapeBelow_of_lt hS hlength, fun b t hb => exists_shapeBelow_of_le hS ?_⟩
    exact Nat.le_of_lt (Nat.lt_of_lt_of_le hlength hb)

/-- Comments with a text and with comments in reply to them. -/
def comments : Schema where
  root := .ref "comment"
  definitions := .ofList
    [("comment", .struct [⟨"text", .primitive .string, false, false, false⟩,
      ⟨"replies", .array (.ref "comment") false, false, false, false⟩] none)]

theorem levels_add_precision_comments :
    comments.Valid ∧
    comments.shapeBelow .reading 3 comments.root "replies.0.text" =
      .ok (.union [.primitive .string, .undefined]) ∧
    comments.shapeBelow .reading 7 comments.root "replies.0.text" =
      .ok (.union [.primitive .string, .undefined]) ∧
    comments.valueType .reading "replies.0.text" =
      .ok (.union [.primitive .string, .undefined]) ∧
    (∃ u, comments.shapeBelow .reading 2 comments.root "replies.0.text" = .ok u) ∧
    (comments.shapeBelow .reading 2 comments.root "replies.0.text" =
        .error (.invalidPath "replies.0.text") ∨
      comments.shapeBelow .reading 2 comments.root "replies.0.text" = .ok .any ∨
      comments.shapeBelow .reading 2 comments.root "replies.0.text" = .ok .unknown) := by
  have hvalid : comments.Valid := by decide +kernel
  have hlength : (Path.segments "replies.0.text").length = 3 := by decide
  have htype : comments.shapeBelow .reading 3 comments.root "replies.0.text" =
      .ok (.union [.primitive .string, .undefined]) := by decide +kernel
  obtain ⟨hmore, hless, hpossible, hexact, -⟩ :=
    levels_add_precision hvalid .reading comments.root "replies.0.text"
  rw [hlength] at hmore hless hexact
  refine ⟨hvalid, htype, ?_, ?_, hpossible 2 _ htype, hless 2 (by decide)⟩
  · rw [hmore 7 3 (by decide) (by decide), htype]
  · rw [hexact (by decide) 3 (by decide), htype]

end Schema

end TypedPaths

/-
TypedPaths/Proofs/Acceptance.lean

Whether a path that is listed is allowed.

Design.  A pattern without wildcards is the text of a path (`segments_text`), and the path is
checked against a listing of the one shape that its parent leads to.  This shape is made of all
that the branches on the way hold, and the slot that the pattern was listed from is among that
(`reaches_offers_or_strays`).  So the check finds the slot again, but for two reasons.  The pattern
may stray, for what is listed below a second field of one name is no place that a path leads to;
and the shape may be of kind `unknown`, which takes the place of all that the other branches hold.

Main results: `check_text_iff`, `check_absorbed_by_unknown`.
-/
import TypedPaths.Proofs.Checking
import TypedPaths.Proofs.Straying

namespace TypedPaths

open Shape

/-! ### The text of a pattern -/

/-- The positions in a pattern are numbers that a segment can stand for. -/
def Pattern.HasIndices (p : Pattern) : Prop := ∀ n, PatternPart.index n ∈ p → n < UInt64.size

namespace PatternPart

/-- A segment that the part covers. -/
def sample : PatternPart → String
  | key name => name
  | index n => toString n
  | _ => "0"

theorem covers_sample {part : PatternPart} (hindex : ∀ n, part = .index n → n < UInt64.size) :
    part.covers part.sample = true := by
  cases part with
  | key name => exact beq_self_eq_true name
  | index n =>
    have hn : Path.index? (toString n) = some n := Path.index?_toString (hindex n rfl)
    exact beq_iff_eq.mpr hn
  | anyIndex => decide
  | anyKey => rfl
  | rest => rfl

/-- A part that is no wildcard covers its own text. -/
theorem text_eq_sample {part : PatternPart} (hconcrete : part.isConcrete = true) :
    part.text = part.sample := by
  cases part with
  | key => rfl
  | index => rfl
  | _ => cases hconcrete

end PatternPart

namespace Pattern

variable {p : Pattern}

theorem hasIndices_cons_iff {part : PatternPart} :
    HasIndices (part :: p) ↔ (∀ n, part = .index n → n < UInt64.size) ∧ p.HasIndices := by
  unfold HasIndices
  simp only [List.mem_cons]
  constructor
  · intro h
    exact ⟨fun n hn => h n (.inl hn.symm), fun n hn => h n (.inr hn)⟩
  · rintro ⟨hpart, hp⟩ n (hn | hn)
    · exact hpart n hn.symm
    · exact hp n hn

/-- A pattern covers the samples of its parts, in front of what the rest of it covers. -/
theorem covers_samples {q : Pattern} (hindices : q.HasIndices) {segments : List String}
    (h : p.covers segments = true) :
    covers (q ++ p) (q.map PatternPart.sample ++ segments) = true := by
  induction q with
  | nil => exact h
  | cons part q ih =>
    rw [hasIndices_cons_iff] at hindices
    have hrest := ih hindices.2
    have hpart : part.covers part.sample = true := PatternPart.covers_sample hindices.1
    by_cases hend : part = .rest
    · subst hend
      rfl
    · rw [List.cons_append, List.map_cons, List.cons_append, covers_cons hend, hpart, hrest]
      rfl

/-- A pattern without wildcards covers the path whose segments are the texts of its parts. -/
theorem covers_texts (hconcrete : p.isConcrete = true) (hindices : p.HasIndices) :
    covers p (p.map PatternPart.text) = true := by
  have htexts : p.map PatternPart.text = p.map PatternPart.sample := by
    refine List.map_congr_left fun part hpart => ?_
    exact PatternPart.text_eq_sample (List.all_eq_true.mp hconcrete part hpart)
  have hnil : covers [] [] = true := rfl
  simpa [htexts] using covers_samples hindices hnil

end Pattern

namespace Schema

variable {S : Schema} {w : Bool} {b n : Nat} {p : Pattern} {segment : String} {head : List String}
  {marks : AbsenceMarks} {s t : Shape}

/-- Without levels, only a wildcard is listed. -/
theorem exists_eq_succ_of_concrete (hp : p ∈ S.listing w b s) (hconcrete : p.isConcrete = true) :
    ∃ k, b = k + 1 := by
  cases b with
  | zero =>
    rw [listing] at hp
    split at hp
    · cases hp
    · rw [List.mem_singleton.mp hp] at hconcrete
      cases hconcrete
  | succ b => exact ⟨b, rfl⟩

/-- The samples of the parts of a listed pattern can be segments. -/
theorem isSegment_sample (hS : S.Valid) (hp : p ∈ S.listing w b s) :
    ∀ part ∈ p, Path.IsSegment part.sample := by
  have hwildcard : Path.IsSegment "0" := Path.isSegment_toString 0
  induction b generalizing p s with
  | zero =>
    rw [listing] at hp
    split at hp
    · cases hp
    · intro part hpart
      obtain rfl := List.mem_singleton.mp (List.mem_singleton.mp hp ▸ hpart)
      exact hwildcard
  | succ b ih =>
    rcases (mem_listing_succ_iff hS).mp hp with ⟨-, rfl⟩ | ⟨-, -, t, -, q, hq, hp⟩
    · intro part hpart
      obtain rfl := List.mem_singleton.mp hpart
      exact hwildcard
    have hslot : Path.IsSegment q.1.sample := by
      rcases part_of_mem_slots hq with ⟨name, h, hname⟩ | ⟨i, h⟩ | h | h
      · rw [h]
        exact hname
      · rw [h]
        exact Path.isSegment_toString i
      · rw [h]
        exact hwildcard
      · rw [h]
        exact hwildcard
    rcases mem_slotListing_iff.mp hp with ⟨-, rfl⟩ | ⟨parts, hparts, rfl⟩
    · exact List.forall_mem_singleton.mpr hslot
    · exact List.forall_mem_cons.mpr ⟨hslot, ih hparts⟩

/-- The texts of the parts of a listed pattern without wildcards can be segments. -/
theorem isSegment_of_mem_listing (hS : S.Valid) (hp : p ∈ S.listing w b s)
    (hconcrete : p.isConcrete = true) :
    ∀ text ∈ p.map PatternPart.text, Path.IsSegment text := by
  intro text htext
  obtain ⟨part, hpart, rfl⟩ := List.mem_map.mp htext
  rw [PatternPart.text_eq_sample (List.all_eq_true.mp hconcrete part hpart)]
  exact isSegment_sample hS hp part hpart

/-- The segments of the text of a listed pattern without wildcards are the texts of its parts; a
single empty key has the text of the path without segments. -/
theorem segments_text (hS : S.Valid) (hp : p ∈ S.listing w b s) (hconcrete : p.isConcrete = true)
    (hempty : p.text ≠ "") : Path.segments p.text = p.map PatternPart.text := by
  apply Path.segments_join (isSegment_of_mem_listing hS hp hconcrete)
  intro htexts
  have htext : p.text = "" := by
    rw [Pattern.text, htexts]
    rfl
  exact hempty htext

/-! ### The slot that a pattern is listed from -/

/-- A branch of the shape lists the segment, or stands for anything at all. -/
def Offers (S : Schema) (w : Bool) (segment : String) (s : Shape) : Prop :=
  ∃ t, S.Branch s t ∧ (t = .any ∨ t = .unknown ∨ t.Lists w segment)

theorem lists_of_same (hsame : s.Same t) (h : s.Lists w segment) : t.Lists w segment := by
  obtain ⟨p, hp, hcovers, hkept⟩ := h
  obtain ⟨q, hq, hpart, hslot⟩ := exists_mem_of_forall₂ hsame.slots hp
  rw [hpart] at hcovers
  rw [hslot.readonly] at hkept
  exact ⟨q, hq, hcovers, hkept⟩

theorem branchwise_offers : S.Branchwise (S.Offers w segment) := by
  refine branchwise_of_branches (.inl rfl) (.inr (.inl rfl)) ?_ ?_
  · rintro (h | h | ⟨p, hp, -⟩)
    · cases h
    · cases h
    · cases hp
  · rintro s t hsame (rfl | rfl | h)
    · exact .inl (same_any hsame)
    · exact .inr (.inl (same_unknown hsame))
    · exact .inr (.inr (lists_of_same hsame h))

theorem distributive_offers : Distributive (S.Offers w segment) := by
  refine branchwise_offers.toMemberwise.distributive ?_
  rintro ⟨t, ht, h⟩
  obtain rfl := (branch_concrete_iff (s := .undefined) trivial).mp ht
  rcases h with h | h | ⟨p, hp, -⟩
  · cases h
  · cases h
  · cases hp

/-- A listing covers a segment if and only if the shape offers it and is not of kind `unknown`. -/
theorem covers_iff_offers (hS : S.Valid) (hb : 0 < b) :
    (S.patterns w b s).covers [segment] = true ↔
      S.Offers w segment s ∧ S.kind s ≠ .unknown :=
  (covers_singleton_iff hS hb).trans (shows_iff hS)

/-- The parent of a listed path leads to a shape that offers the last segment, unless the pattern
strays. -/
theorem reaches_offers_or_strays (hS : S.Valid) (hp : p ∈ S.listing w b s)
    (hconcrete : p.isConcrete = true) (hcovers : p.covers (head ++ [segment]) = true) :
    S.Reaches marks n head (S.Offers w segment) s ∨ S.Strays w b p (head ++ [segment]) s := by
  induction head generalizing b n p s with
  | nil =>
    obtain ⟨b, rfl⟩ := exists_eq_succ_of_concrete hp hconcrete
    rcases (mem_listing_succ_iff hS).mp hp with ⟨-, rfl⟩ | ⟨-, -, t, ht, q, hq, hp⟩
    · cases hconcrete
    rw [reaches_nil]
    obtain ⟨hsegment, ⟨-, hkept, -⟩ | ⟨parts, hparts, -, hrest⟩⟩ :=
      covers_of_mem_slotListing (ne_rest_of_mem_slots hq) hp hcovers
    · exact .inl ⟨t, ht, .inr (.inr ⟨q, hq, hsegment, hkept⟩)⟩
    · -- nothing is left of the path below the slot
      exact absurd (Pattern.covers_nil_iff.mp hrest) (ne_nil_of_mem_listing hS hparts)
  | cons name head ih =>
    obtain ⟨b, rfl⟩ := exists_eq_succ_of_concrete hp hconcrete
    cases n with
    | zero => exact .inl (reaches_zero distributive_offers.unknown)
    | succ n =>
      rw [reaches_cons hS distributive_offers]
      rcases (mem_listing_succ_iff hS).mp hp with ⟨-, rfl⟩ | ⟨-, -, t, ht, q, hq, hp⟩
      · cases hconcrete
      rw [List.cons_append] at hcovers ⊢
      obtain ⟨hname, ⟨hrest, -⟩ | ⟨parts, hparts, rfl, hrest⟩⟩ :=
        covers_of_mem_slotListing (ne_rest_of_mem_slots hq) hp hcovers
      · simp at hrest
      · rw [Pattern.isConcrete, List.all_cons, Bool.and_eq_true] at hconcrete
        by_cases hslot : t.slot? name = some q.2
        · rcases ih hparts hconcrete.2 hrest with h | h
          · exact .inl ⟨t, ht, .inr (.inr ⟨q.2, hslot, h⟩)⟩
          · exact .inr (.along ht hq hslot h)
        · exact .inr (.behind ht hq hname hslot hparts)

end Schema

namespace Catalog

open Schema

variable {C : Catalog} {options : ListingOptions} {p : Pattern} {set : PatternSet}

/-- Where a listing has a pattern without wildcards, the shape is not of kind `unknown`. -/
theorem kind_ne_unknown_of_mem_listing {w : Bool} {b : Nat} {s : Shape}
    (hp : p ∈ C.schema.listing w b s) (hconcrete : p.isConcrete = true) :
    C.schema.kind s ≠ .unknown := by
  obtain ⟨b, rfl⟩ := exists_eq_succ_of_concrete hp hconcrete
  rw [ne_eq, kind_eq_unknown_iff C.valid]
  rcases (mem_listing_succ_iff C.valid).mp hp with ⟨-, rfl⟩ | ⟨-, hunknown, -⟩
  · cases hconcrete
  · exact fun h => hunknown h.2

/-- A path whose parent offers the last segment is allowed if and only if the parent is not of kind
`unknown`. -/
theorem check_iff_of_offers {path segment : String} {head : List String} {s : Shape}
    (hdepth : 0 < options.depth) (hpath : Path.segments path = head ++ [segment])
    (hs : C.schema.resolveParent head = some s)
    (hoffers : C.schema.Offers options.writableOnly segment s) :
    C.check path options = .ok () ↔ C.schema.kind s ≠ .unknown := by
  have hcovers : (C.schema.patterns options.writableOnly options.depth s).covers [segment] = true ↔
      C.schema.Offers options.writableOnly segment s ∧ C.schema.kind s ≠ .unknown :=
    covers_iff_offers C.valid hdepth
  rw [check_eq_ok_iff_covers hdepth hpath, hs]
  simp [hcovers, hoffers]

/-- A path that is listed without wildcards, from a pattern that does not stray, has a parent, and
is allowed if and only if the parent is not of kind `unknown`. -/
theorem check_text_iff (hset : C.paths options = .ok set) (hp : p ∈ set)
    (hconcrete : p.isConcrete = true) (hindices : p.HasIndices)
    (hstrays : ¬ C.schema.Strays options.writableOnly options.depth p (p.map PatternPart.text)
      C.schema.root) :
    ∃ s, C.schema.resolveParent (Path.segments p.text).dropLast = some s ∧
      (C.check p.text options = .ok () ↔ C.schema.kind s ≠ .unknown) := by
  have hdepth := depth_pos_of_paths hset
  obtain rfl := paths_eq_ok hset
  have hlisted : p ∈ C.schema.listing options.writableOnly options.depth C.schema.root :=
    mem_patterns.mp hp
  by_cases hempty : p.text = ""
  · -- the path without segments, which is always allowed
    rw [hempty]
    exact ⟨C.schema.root, rfl,
      fun _ => kind_ne_unknown_of_mem_listing hlisted hconcrete, fun _ => rfl⟩
  have hsegments := segments_text C.valid hlisted hconcrete hempty
  have hne : Path.segments p.text ≠ [] := mt Path.segments_eq_nil_iff.mp hempty
  obtain ⟨head, segment, hpath⟩ : ∃ head segment, Path.segments p.text = head ++ [segment] :=
    ⟨_, _, (List.dropLast_concat_getLast hne).symm⟩
  have hcovers : p.covers (head ++ [segment]) = true := by
    rw [← hpath, hsegments]
    exact Pattern.covers_texts hconcrete hindices
  rw [← hsegments, hpath] at hstrays
  obtain ⟨s, hs, hoffers⟩ :=
    (reaches_offers_or_strays C.valid hlisted hconcrete hcovers).resolve_right hstrays
  rw [hpath, List.dropLast_concat]
  exact ⟨s, hs, check_iff_of_offers hdepth hpath hs hoffers⟩

/-- Objects with a name that is a text, or that has a first part. -/
def contacts : Catalog where
  schema := {
    root := .union [
      .struct [⟨"name", .primitive .string, false, false, false⟩] none,
      .struct [⟨"name", .struct [⟨"first", .primitive .string, false, false, false⟩] none,
        false, false, false⟩] none] }
  valid := by decide

theorem check_first_name :
    contacts.paths {} = .ok (.ofList [[.key "name"], [.key "name", .key "first"]]) ∧
    Pattern.HasIndices [.key "name", .key "first"] ∧
    Pattern.text [.key "name", .key "first"] = "name.first" ∧
    contacts.check "name.first" {} = .ok () := by
  have hpaths : contacts.paths {} =
      .ok (.ofList [[.key "name"], [.key "name", .key "first"]]) := by decide +kernel
  have hmem : [.key "name", .key "first"] ∈
      SortedSet.ofList [[PatternPart.key "name"], [.key "name", .key "first"]] :=
    SortedSet.mem_ofList.mpr (by simp)
  have hindices : Pattern.HasIndices [.key "name", .key "first"] := by simp [Pattern.HasIndices]
  have htext : Pattern.text [.key "name", .key "first"] = "name.first" := by decide
  have hstrays : ¬ contacts.schema.Strays false 3 [.key "name", .key "first"]
      ["name", "first"] contacts.schema.root := by
    apply not_strays_cons
    intro t ht slot hslot
    obtain ⟨s, hs, ht⟩ := branch_union_iff.mp ht
    -- each member has one field, of that name
    have hconcrete : s.IsConcrete := by
      rcases List.mem_pair.mp hs with rfl | rfl <;> trivial
    obtain rfl := (branch_concrete_iff hconcrete).mp ht
    refine ⟨?_, not_strays_singleton contacts.valid⟩
    rcases List.mem_pair.mp hs with rfl | rfl
    · obtain rfl := congrArg Prod.snd (List.mem_singleton.mp hslot)
      rfl
    · obtain rfl := congrArg Prod.snd (List.mem_singleton.mp hslot)
      rfl
  obtain ⟨s, hs, hcheck⟩ := check_text_iff hpaths hmem rfl hindices hstrays
  rw [htext] at hs hcheck
  have hparent : contacts.schema.resolveParent (Path.segments "name.first").dropLast = some
      (.union [.primitive .string,
        .struct [⟨"first", .primitive .string, false, false, false⟩] none]) := by decide +kernel
  obtain rfl := Option.some.inj (hparent.symm.trans hs)
  exact ⟨hpaths, hindices, htext, hcheck.mpr (by decide +kernel)⟩

/-- Objects with a part in which there is a text, or of which nothing is known. -/
def opaqueParts : Catalog where
  schema := {
    root := .union [
      .struct [⟨"a", .struct [⟨"x", .primitive .string, false, false, false⟩] none,
        false, false, false⟩] none,
      .struct [⟨"a", .unknown, false, false, false⟩] none] }
  valid := by decide

/-- What one member of a union lists is not allowed where another member is `unknown`. -/
theorem check_absorbed_by_unknown :
    opaqueParts.paths {} = .ok (.ofList [[.key "a"], [.key "a", .key "x"]]) ∧
    [.key "a", .key "x"] ∈ SortedSet.ofList [[PatternPart.key "a"], [.key "a", .key "x"]] ∧
    Pattern.text [.key "a", .key "x"] = "a.x" ∧
    opaqueParts.check "a.x" {} = .error (.invalidPath "a.x") := by
  have hmem : [.key "a", .key "x"] ∈
      SortedSet.ofList [[PatternPart.key "a"], [.key "a", .key "x"]] :=
    SortedSet.mem_ofList.mpr (by simp)
  exact ⟨by decide +kernel, hmem, by decide, by decide +kernel⟩

end Catalog

end TypedPaths

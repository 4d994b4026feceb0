/-
TypedPaths/Proofs/NormalForm.lean

The form of a normalised union.

Design.  A normalised union is built in two steps.  The unions among the shapes that it is built of
are opened up once (`Shape.opened`).  Of the list that comes out, `any` absorbs everything, then
`unknown` does, and else one shape of each sameness class but `never` is kept (`Shape.kept`).  So all
that can be said about its form is said about these two lists.

Opening up once is enough where no union is a member of a union, as is the case for all that is built
by normalising (`Shape.IsShallow`).  A union that is read from a document may be a member of a union
that is a member of a union.  It is not opened up: it stays a member of what should be a normal union,
and what it holds absorbs nothing (`isNormal_unionOf_iff`).

Main results: `unionOf_eq_any_iff`, `unionOf_eq_unknown_iff`, `isNormal_unionOf_iff`,
`unionOf_normal_form`, `not_isNormal_unionOf_nested`.
-/
import TypedPaths.Proofs.Leaves

namespace TypedPaths.Shape

variable {s t : Shape} {ss ts : List Shape}

/-! ### Normal shapes -/

/-- A union, in whatever form. -/
def IsUnion : Shape → Prop
  | union _ => True
  | _ => False

/-- The shape can be a member of a normal union: normalising neither opens it up nor leaves it out,
and it does not absorb the others. -/
structure IsMember (s : Shape) : Prop where
  ne_any : s ≠ any
  ne_unknown : s ≠ unknown
  ne_never : s ≠ never
  not_isUnion : ¬ s.IsUnion

/-- A normal union has two members or more, which are different from each other.  Any other shape is
normal. -/
def IsNormal : Shape → Prop
  | union ss =>
    2 ≤ ss.length ∧ (ss.Pairwise fun s t => ¬ s.Same t) ∧ ∀ s ∈ ss, s.IsMember
  | _ => True

/-- The shape is no union with a union for a member. -/
def IsShallow (s : Shape) : Prop := ∀ t ∈ s.spread, ¬ t.IsUnion

instance decidableIsUnion : DecidablePred IsUnion
  | union _ => isTrue trivial
  | primitive _ => isFalse id
  | literal _ => isFalse id
  | any => isFalse id
  | unknown => isFalse id
  | never => isFalse id
  | array _ _ => isFalse id
  | tuple _ _ => isFalse id
  | record _ => isFalse id
  | struct _ _ => isFalse id
  | ref _ => isFalse id

theorem spread_of_not_isUnion (h : ¬ s.IsUnion) : s.spread = [s] := by
  cases s with
  | union ss => exact absurd trivial h
  | _ => rfl

theorem isNormal_of_not_isUnion (h : ¬ s.IsUnion) : s.IsNormal := by
  cases s with
  | union ss => exact absurd trivial h
  | _ => trivial

theorem Same.isUnion (h : s.Same t) (hs : s.IsUnion) : t.IsUnion := by
  cases s with
  | union ss =>
    obtain ⟨ts, rfl, -⟩ := same_union h
    trivial
  | _ => exact hs.elim

theorem Same.isMember (h : s.Same t) (hs : s.IsMember) : t.IsMember where
  ne_any := by
    rintro rfl
    exact hs.ne_any (same_any h.symm)
  ne_unknown := by
    rintro rfl
    exact hs.ne_unknown (same_unknown h.symm)
  ne_never := by
    rintro rfl
    exact hs.ne_never (same_never h.symm)
  not_isUnion := fun ht => hs.not_isUnion (h.symm.isUnion ht)

theorem pairwise_of_same (h : List.Forall₂ Same ss ts)
    (hdifferent : ss.Pairwise fun s t => ¬ s.Same t) : ts.Pairwise fun s t => ¬ s.Same t := by
  induction h with
  | nil => exact .nil
  | cons hst hrest ih =>
    obtain ⟨hfirst, hdifferent⟩ := List.pairwise_cons.mp hdifferent
    refine List.pairwise_cons.mpr ⟨fun u hu hsame => ?_, ih hdifferent⟩
    obtain ⟨v, hv, huv⟩ := exists_mem_of_forall₂ hrest.flip hu
    exact hfirst v hv ((hst.trans hsame).trans huv.symm)

/-- A normal union is looked at no more closely than up to sameness. -/
theorem Same.isNormal (h : s.Same t) (hs : s.IsNormal) : t.IsNormal := by
  cases s with
  | union ss =>
    obtain ⟨ts, rfl, hts⟩ := same_union h
    obtain ⟨hlength, hdifferent, hmembers⟩ := hs
    refine ⟨hts.length_eq ▸ hlength, pairwise_of_same hts hdifferent, fun t ht => ?_⟩
    obtain ⟨s, hs, hst⟩ := exists_mem_of_forall₂ hts.flip ht
    exact Same.isMember hst (hmembers s hs)
  | _ => exact isNormal_of_not_isUnion fun ht => (h.symm.isUnion ht).elim

/-- What absorbs other members is no member of a normal shape. -/
theorem IsNormal.mem_spread_iff (hs : s.IsNormal) (ht : t = any ∨ t = unknown) :
    t ∈ s.spread ↔ s = t := by
  cases s with
  | union ss =>
    refine iff_of_false (fun hmem => ?_) ?_
    · exact ht.elim (hs.2.2 t hmem).ne_any (hs.2.2 t hmem).ne_unknown
    · rintro rfl
      rcases ht with h | h <;> cases h
  | _ => exact List.mem_singleton.trans eq_comm

/-! ### Members that are kept -/

/-- The shapes, with each union among them opened up once. -/
def opened (ss : List Shape) : List Shape := ss.flatMap spread

/-- What is left of the shapes once unions are opened up: no `never`, and of each sameness class the
first shape. -/
def kept (ss : List Shape) : List Shape := distinct ((opened ss).filter (· ≠ never))

theorem mem_opened_iff : t ∈ opened ss ↔ ∃ s ∈ ss, t ∈ s.spread := List.mem_flatMap

theorem mem_of_mem_kept (h : s ∈ kept ss) : s ∈ opened ss ∧ s ≠ never := by
  simpa using List.mem_filter.mp (mem_of_mem_distinct h)

/-- Every shape but `never` is kept, or one that is the same. -/
theorem exists_same_mem_kept (h : s ∈ opened ss) (hs : s ≠ never) : ∃ t ∈ kept ss, t.Same s :=
  exists_same_mem_distinct (List.mem_filter.mpr ⟨h, by simpa using hs⟩)

/-- No two shapes that are kept are the same. -/
theorem pairwise_kept (ss : List Shape) : (kept ss).Pairwise fun s t => ¬ s.Same t :=
  pairwise_distinct _

theorem unionOf_of_any (hany : any ∈ opened ss) : unionOf ss = any := if_pos hany

theorem unionOf_of_unknown (hany : any ∉ opened ss) (hunknown : unknown ∈ opened ss) :
    unionOf ss = unknown := (if_neg hany).trans (if_pos hunknown)

theorem unionOf_of_kept (hany : any ∉ opened ss) (hunknown : unknown ∉ opened ss) :
    unionOf ss = ofDistinct (kept ss) := (if_neg hany).trans (if_neg hunknown)

/-- A shape that is neither kept nor `never` does not come out as what is kept, unless it is a union. -/
theorem ofDistinct_ne (h : t ∉ ss) (hnever : t ≠ never) (hunion : ¬ t.IsUnion) :
    ofDistinct ss ≠ t := by
  rcases ss with - | ⟨s, - | ⟨u, ss⟩⟩
  · exact hnever.symm
  · rintro rfl
    exact h List.mem_cons_self
  · rintro rfl
    exact hunion trivial

/-- A union is `any` exactly if `any` is there once unions are opened up. -/
theorem unionOf_eq_any_iff : unionOf ss = any ↔ any ∈ opened ss := by
  refine ⟨fun h => ?_, unionOf_of_any⟩
  by_contra hany
  by_cases hunknown : unknown ∈ opened ss
  · cases (unionOf_of_unknown hany hunknown).symm.trans h
  · refine ofDistinct_ne (fun hmem => hany (mem_of_mem_kept hmem).1) nofun id ?_
    exact (unionOf_of_kept hany hunknown).symm.trans h

theorem unionOf_eq_unknown_iff (hany : any ∉ opened ss) :
    unionOf ss = unknown ↔ unknown ∈ opened ss := by
  refine ⟨fun h => ?_, unionOf_of_unknown hany⟩
  by_contra hunknown
  refine ofDistinct_ne (fun hmem => hunknown (mem_of_mem_kept hmem).1) nofun id ?_
  exact (unionOf_of_kept hany hunknown).symm.trans h

/-- Without `any` and `unknown`, what is kept makes up a normal shape if none of it is a union. -/
theorem isNormal_ofDistinct_kept (hany : any ∉ opened ss) (hunknown : unknown ∉ opened ss)
    (hunion : ∀ s ∈ kept ss, ¬ s.IsUnion) : (ofDistinct (kept ss)).IsNormal := by
  have hdifferent := pairwise_kept ss
  have hmembers : ∀ s ∈ kept ss, s.IsMember := by
    intro s hs
    obtain ⟨hopened, hnever⟩ := mem_of_mem_kept hs
    refine ⟨?_, ?_, hnever, hunion s hs⟩
    · rintro rfl
      exact hany hopened
    · rintro rfl
      exact hunknown hopened
  generalize kept ss = ks at hdifferent hmembers
  rcases ks with - | ⟨s, - | ⟨t, ts⟩⟩
  · trivial
  · exact isNormal_of_not_isUnion (hmembers s List.mem_cons_self).not_isUnion
  · exact ⟨by simp, hdifferent, hmembers⟩

/-- What is the same as a normal shape is kept at most once. -/
theorem isNormal_ofDistinct_of_same (hdifferent : ss.Pairwise fun s t => ¬ s.Same t)
    (hsame : ∀ s ∈ ss, s.Same t) (hnormal : t.IsNormal) : (ofDistinct ss).IsNormal := by
  rcases ss with - | ⟨s, - | ⟨u, us⟩⟩
  · trivial
  · exact (hsame s List.mem_cons_self).symm.isNormal hnormal
  · refine absurd ?_ ((List.pairwise_cons.mp hdifferent).1 u List.mem_cons_self)
    exact (hsame s List.mem_cons_self).trans (hsame u (by simp)).symm

/-- If what is kept makes up a normal shape, then none of it was a union, or it was one shape alone. -/
theorem exists_of_isNormal_ofDistinct (hnormal : (ofDistinct (kept ss)).IsNormal) :
    (∀ t ∈ opened ss, ¬ t.IsUnion) ∨
      ∃ t ∈ opened ss, t.IsNormal ∧ ∀ u ∈ opened ss, u = never ∨ u.Same t := by
  have hkept : ∀ u ∈ opened ss, u = never ∨ ∃ t ∈ kept ss, t.Same u := fun u hu =>
    or_iff_not_imp_left.mpr (exists_same_mem_kept hu)
  have hopened : ∀ t ∈ kept ss, t ∈ opened ss := fun t ht => (mem_of_mem_kept ht).1
  generalize kept ss = ks at hnormal hkept hopened
  rcases ks with - | ⟨s, - | ⟨t, ts⟩⟩
  · -- nothing is kept, so there is nothing but `never`
    refine .inl fun u hu => ?_
    rcases hkept u hu with rfl | ⟨t, ht, -⟩
    · exact id
    · cases ht
  · refine .inr ⟨s, hopened s List.mem_cons_self, hnormal, fun u hu => ?_⟩
    refine (hkept u hu).imp_right ?_
    rintro ⟨t, ht, htu⟩
    rw [List.mem_singleton.mp ht] at htu
    exact htu.symm
  · refine .inl fun u hu hunion => ?_
    rcases hkept u hu with rfl | ⟨v, hv, hvu⟩
    · exact hunion
    · exact (hnormal.2.2 v hv).not_isUnion (hvu.symm.isUnion hunion)

/-- A union is normal once it is normalised if something absorbs the members, if no union is met a
second time, or if what is met is a normal union and nothing else. -/
theorem isNormal_unionOf_iff : (unionOf ss).IsNormal ↔
    any ∈ opened ss ∨ unknown ∈ opened ss ∨ (∀ t ∈ opened ss, ¬ t.IsUnion) ∨
      ∃ t ∈ opened ss, t.IsNormal ∧ ∀ u ∈ opened ss, u = never ∨ u.Same t := by
  by_cases hany : any ∈ opened ss
  · rw [unionOf_of_any hany]
    exact iff_of_true trivial (.inl hany)
  by_cases hunknown : unknown ∈ opened ss
  · rw [unionOf_of_unknown hany hunknown]
    exact iff_of_true trivial (.inr (.inl hunknown))
  rw [unionOf_of_kept hany hunknown, or_iff_right hany, or_iff_right hunknown]
  refine ⟨exists_of_isNormal_ofDistinct, ?_⟩
  rintro (hnone | ⟨t, -, hnormal, hall⟩)
  · exact isNormal_ofDistinct_kept hany hunknown fun s hs => hnone s (mem_of_mem_kept hs).1
  · refine isNormal_ofDistinct_of_same (pairwise_kept ss) (fun s hs => ?_) hnormal
    exact (hall s (mem_of_mem_kept hs).1).resolve_left (mem_of_mem_kept hs).2

/-! ### Shapes that are opened up at once -/

theorem forall_isShallow_iff : (∀ s ∈ ss, s.IsShallow) ↔ ∀ t ∈ opened ss, ¬ t.IsUnion := by
  simp only [mem_opened_iff, forall_exists_index, and_imp]
  exact ⟨fun h t s hs ht => h s hs t ht, fun h s hs t ht => h t s hs ht⟩

/-- Where no union is a member of a union, normalising does what it should. -/
theorem isNormal_unionOf (h : ∀ s ∈ ss, s.IsShallow) : (unionOf ss).IsNormal :=
  isNormal_unionOf_iff.mpr (.inr (.inr (.inl (forall_isShallow_iff.mp h))))

/-- The leaves are found by opening up unions once, and then as often as it takes. -/
theorem leavesOfMembers_opened (ss : List Shape) :
    leavesOfMembers (opened ss) = leavesOfMembers ss := by
  rw [leavesOfMembers_eq_flatMap, leavesOfMembers_eq_flatMap, opened, List.flatMap_assoc]
  refine congrArg List.flatten (List.map_congr_left fun s _ => ?_)
  cases s with
  | union ts => rw [spread, leaves, leavesOfMembers_eq_flatMap]
  | _ => exact List.append_nil _

/-- Where no union is a member of a union, once is enough. -/
theorem mem_leavesOfMembers_iff (h : ∀ s ∈ ss, s.IsShallow) (hnever : t ≠ never) :
    t ∈ leavesOfMembers ss ↔ t ∈ opened ss := by
  have hleaves : ∀ u ∈ opened ss, t ∈ u.leaves ↔ t = u := by
    intro u hu
    by_cases hu' : u = never
    · subst hu'
      exact iff_of_false List.not_mem_nil hnever
    · have hunion : ¬ u.IsUnion := forall_isShallow_iff.mp h u hu
      have hne : ∀ us, u ≠ union us := by
        rintro us rfl
        exact hunion trivial
      rw [leaves_of_ne hne hu', List.mem_singleton]
  rw [← leavesOfMembers_opened, leavesOfMembers_eq_flatMap, List.mem_flatMap]
  constructor
  · rintro ⟨u, hu, htu⟩
    rwa [(hleaves u hu).mp htu]
  · intro ht
    exact ⟨t, ht, (hleaves t ht).mpr rfl⟩

/-- However a union is normalised, it keeps its leaves. -/
theorem sameLeaves_unionOf (ss : List Shape) : (unionOf ss).SameLeaves (union ss) := by
  rw [sameLeaves_iff]
  intro B same
  exact (memberwise_holds same).unionOf_iff.trans (memberwise_holds same).union.symm

/-! ### Normalised unions -/

/-- A normalised union of any shapes is `any` if that is one of them or of their members, and else
`unknown` if that is.  It is normal exactly where `isNormal_unionOf_iff` says so, which includes all
shapes without a union inside a union; for these, the level on which `any` or `unknown` stands makes no
difference.  The leaves are always kept. -/
theorem unionOf_normal_form (ss : List Shape) :
    (unionOf ss = any ↔ any ∈ opened ss) ∧
    (any ∉ opened ss → (unionOf ss = unknown ↔ unknown ∈ opened ss)) ∧
    ((unionOf ss).IsNormal ↔
      any ∈ opened ss ∨ unknown ∈ opened ss ∨ (∀ s ∈ ss, s.IsShallow) ∨
        ∃ t ∈ opened ss, t.IsNormal ∧ ∀ u ∈ opened ss, u = never ∨ u.Same t) ∧
    ((∀ s ∈ ss, s.IsShallow) →
      (unionOf ss = any ↔ any ∈ leavesOfMembers ss) ∧
        (any ∉ leavesOfMembers ss → (unionOf ss = unknown ↔ unknown ∈ leavesOfMembers ss))) ∧
    (unionOf ss).SameLeaves (union ss) := by
  refine ⟨unionOf_eq_any_iff, unionOf_eq_unknown_iff, ?_, fun h => ?_, sameLeaves_unionOf ss⟩
  · rw [forall_isShallow_iff]
    exact isNormal_unionOf_iff
  · have hany : any ∈ leavesOfMembers ss ↔ any ∈ opened ss := mem_leavesOfMembers_iff h nofun
    have hunknown : unknown ∈ leavesOfMembers ss ↔ unknown ∈ opened ss :=
      mem_leavesOfMembers_iff h nofun
    rw [hany, hunknown]
    exact ⟨unionOf_eq_any_iff, unionOf_eq_unknown_iff⟩

/-- Texts and numbers, in unions that overlap and next to a shape without values. -/
def overlapping : List Shape :=
  [union [primitive .string, never], primitive .number, union [primitive .string]]

theorem unionOf_normal_form_overlapping :
    (∀ s ∈ overlapping, s.IsShallow) ∧
    unionOf overlapping = union [primitive .string, primitive .number] ∧
    (unionOf overlapping).IsNormal ∧ any ∉ opened overlapping ∧ unknown ∉ opened overlapping ∧
    any ∉ leavesOfMembers overlapping ∧ unknown ∉ leavesOfMembers overlapping := by
  have hshallow : ∀ s ∈ overlapping, s.IsShallow := by
    rw [forall_isShallow_iff]
    decide
  have hunion : unionOf overlapping = union [primitive .string, primitive .number] := by
    decide +kernel
  obtain ⟨hany, hunknown, hnormal, hleaves, -⟩ := unionOf_normal_form overlapping
  obtain ⟨hanyleaf, hunknownleaf⟩ := hleaves hshallow
  have hnormal : (unionOf overlapping).IsNormal := hnormal.mpr (.inr (.inr (.inl hshallow)))
  rw [hunion] at hany hunknown hanyleaf hunknownleaf
  have hnone : any ∉ opened overlapping := fun h => by cases hany.mpr h
  have hnone' : unknown ∉ opened overlapping := fun h => by cases (hunknown hnone).mpr h
  have hnoleaf : any ∉ leavesOfMembers overlapping := fun h => by cases hanyleaf.mpr h
  have hnoleaf' : unknown ∉ leavesOfMembers overlapping :=
    fun h => by cases (hunknownleaf hnoleaf).mpr h
  exact ⟨hshallow, hunion, hnormal, hnone, hnone', hnoleaf, hnoleaf'⟩

/-- An `any` in a union inside a union inside the members absorbs nothing, and the union around it
stays where it is. -/
theorem not_isNormal_unionOf_nested :
    any ∈ leavesOfMembers [union [union [primitive .string, any]], primitive .number] ∧
    unionOf [union [union [primitive .string, any]], primitive .number] =
      union [union [primitive .string, any], primitive .number] ∧
    ¬ (unionOf [union [union [primitive .string, any]], primitive .number]).IsNormal := by
  have hunion : unionOf [union [union [primitive .string, any]], primitive .number] =
      union [union [primitive .string, any], primitive .number] := by decide +kernel
  refine ⟨by decide +kernel, hunion, fun hnormal => ?_⟩
  rw [hunion] at hnormal
  exact (hnormal.2.2 _ List.mem_cons_self).not_isUnion trivial

end TypedPaths.Shape

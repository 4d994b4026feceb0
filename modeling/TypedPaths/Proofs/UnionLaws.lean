/-
TypedPaths/Proofs/UnionLaws.lean

Laws of normalised unions.

Design.  In a list of shapes, a normalised union may stand for the shapes that it was built of: what
comes out in the end is the same shape, with its members in the same order (`unionOf_nest`).  Of the
three things that normalising does, two ask only whether `any` and `unknown` are there.  The third is
that of each sameness class the first shape is kept, and for this nothing changes if it was done
before for a part of the list (`distinct_append_append`).

That unions may be built in parts, and in what grouping, follows by using this once for each part.  All
of this is for shapes that are opened up at once (`Shape.IsShallow`).  For them a union with `never` or
with the shape itself is the shape, brought to normal form, and so only a normal shape is left as it is
(`unionOf_singleton_eq_iff`).

`undefined` is a member of whatever it is added to and can be added once only, in shapes of every form
(`orUndefined_orUndefined`, `includesUndefined_orUndefined_iff`).

Main results: `unionOf_nest`, `union_laws`, `unionOf_never_ne`.
-/
import TypedPaths.Proofs.NormalForm

namespace TypedPaths.Shape

variable {s t : Shape} {ss ts xs ys : List Shape}

/-! ### The first of each sameness class -/

theorem distinct_eq_self (h : ss.Pairwise fun s t => ¬ s.Same t) : distinct ss = ss := by
  induction ss with
  | nil => rfl
  | cons s ss ih =>
    obtain ⟨hfirst, hrest⟩ := List.pairwise_cons.mp h
    rw [distinct, ih hrest, List.filter_eq_self.mpr fun t ht => by simpa using hfirst t ht]

/-- Of a second list, those are kept that are not the same as a shape of the first. -/
theorem distinct_append (ss ts : List Shape) :
    distinct (ss ++ ts) = distinct ss ++ (distinct ts).filter fun t => ∀ s ∈ ss, ¬ s.Same t := by
  induction ss with
  | nil => simp [distinct]
  | cons s ss ih =>
    rw [List.cons_append, distinct, distinct, ih, List.filter_append, List.filter_filter,
      List.cons_append]
    refine congrArg (s :: (distinct ss).filter _ ++ ·) (List.filter_congr fun t _ => ?_)
    simp

theorem forall_distinct_iff :
    (∀ s ∈ distinct ss, ¬ s.Same t) ↔ ∀ s ∈ ss, ¬ s.Same t := by
  constructor
  · intro h s hs hst
    obtain ⟨u, hu, hus⟩ := exists_same_mem_distinct hs
    exact h u hu (hus.trans hst)
  · exact fun h s hs => h s (mem_of_mem_distinct hs)

/-- A part of a list may be looked through before the whole is. -/
theorem distinct_append_append (ss ts us : List Shape) :
    distinct (ss ++ distinct ts ++ us) = distinct (ss ++ ts ++ us) := by
  have hpart : distinct (ss ++ distinct ts) = distinct (ss ++ ts) := by
    rw [distinct_append, distinct_append, distinct_eq_self (pairwise_distinct ts)]
  rw [distinct_append, distinct_append (ss ++ ts), hpart]
  refine congrArg (distinct (ss ++ ts) ++ ·) (List.filter_congr fun u _ => ?_)
  simp only [List.forall_mem_append, forall_distinct_iff]

/-! ### Unions that are built in parts -/

/-- What a normalised union depends on. -/
theorem unionOf_congr (hany : any ∈ opened ss ↔ any ∈ opened ts)
    (hunknown : any ∉ opened ts → (unknown ∈ opened ss ↔ unknown ∈ opened ts))
    (hkept : any ∉ opened ts → unknown ∉ opened ts → kept ss = kept ts) :
    unionOf ss = unionOf ts := by
  by_cases ha : any ∈ opened ts
  · rw [unionOf_of_any ha, unionOf_of_any (hany.mpr ha)]
  have ha' : any ∉ opened ss := mt hany.mp ha
  by_cases hu : unknown ∈ opened ts
  · rw [unionOf_of_unknown ha hu, unionOf_of_unknown ha' ((hunknown ha).mpr hu)]
  · rw [unionOf_of_kept ha hu, unionOf_of_kept ha' (mt (hunknown ha).mp hu), hkept ha hu]

theorem opened_append (ss ts : List Shape) : opened (ss ++ ts) = opened ss ++ opened ts :=
  List.flatMap_append

theorem opened_cons (s : Shape) (ss : List Shape) : opened (s :: ss) = s.spread ++ opened ss :=
  List.flatMap_cons

/-- Opened up again, a normalised union has the members that were kept. -/
theorem filter_spread_unionOf (h : ∀ s ∈ ss, s.IsShallow) (hany : any ∉ opened ss)
    (hunknown : unknown ∉ opened ss) : (unionOf ss).spread.filter (· ≠ never) = kept ss := by
  have hmembers : ∀ s ∈ kept ss, s ≠ never ∧ ¬ s.IsUnion := fun s hs =>
    ⟨(mem_of_mem_kept hs).2, forall_isShallow_iff.mp h s (mem_of_mem_kept hs).1⟩
  have hfilter : (kept ss).filter (· ≠ never) = kept ss :=
    List.filter_eq_self.mpr fun s hs => by simpa using (hmembers s hs).1
  rw [unionOf_of_kept hany hunknown]
  generalize kept ss = ks at hmembers hfilter
  rcases ks with - | ⟨s, - | ⟨t, ts⟩⟩
  · decide +kernel
  · rw [ofDistinct, spread_of_not_isUnion (hmembers s List.mem_cons_self).2, hfilter]
  · exact hfilter

/-- Among other shapes, a normalised union may stand for the shapes that it was built of. -/
theorem unionOf_nest (h : ∀ s ∈ ss, s.IsShallow) (xs ys : List Shape) :
    unionOf (xs ++ unionOf ss :: ys) = unionOf (xs ++ ss ++ ys) := by
  have hnormal : (unionOf ss).IsNormal := isNormal_unionOf h
  have hany : any ∈ (unionOf ss).spread ↔ any ∈ opened ss :=
    (hnormal.mem_spread_iff (.inl rfl)).trans unionOf_eq_any_iff
  have hunknown : any ∉ opened ss → (unknown ∈ (unionOf ss).spread ↔ unknown ∈ opened ss) :=
    fun hnone => (hnormal.mem_spread_iff (.inr rfl)).trans (unionOf_eq_unknown_iff hnone)
  apply unionOf_congr
  · simp only [opened_append, opened_cons, List.mem_append, hany, or_assoc]
  · simp only [opened_append, opened_cons, List.mem_append, not_or]
    rintro ⟨⟨-, hnone⟩, -⟩
    rw [hunknown hnone, or_assoc]
  · simp only [opened_append, List.mem_append, not_or]
    rintro ⟨⟨-, hnone⟩, -⟩ ⟨⟨-, hnone'⟩, -⟩
    have hkept : (unionOf ss).spread.filter (· ≠ never) = kept ss :=
      filter_spread_unionOf h hnone hnone'
    unfold kept at hkept ⊢
    rw [opened_append, opened_append, opened_append, opened_cons, List.filter_append,
      List.filter_append, List.filter_append, List.filter_append, hkept, ← List.append_assoc]
    exact distinct_append_append _ _ _

/-- A union may be built in two parts. -/
theorem unionOf_append (hxs : ∀ s ∈ xs, s.IsShallow) (hys : ∀ s ∈ ys, s.IsShallow) :
    unionOf (xs ++ ys) = unionOf [unionOf xs, unionOf ys] :=
  calc unionOf (xs ++ ys)
      = unionOf (xs ++ [unionOf ys]) := by simpa using (unionOf_nest hys xs []).symm
    _ = unionOf [unionOf xs, unionOf ys] := (unionOf_nest hxs [] [unionOf ys]).symm

theorem unionOf_assoc {u : Shape} (hs : s.IsShallow) (ht : t.IsShallow) (hu : u.IsShallow) :
    unionOf [unionOf [s, t], u] = unionOf [s, unionOf [t, u]] := by
  have hst : ∀ x ∈ [s, t], x.IsShallow := by simp [hs, ht]
  have htu : ∀ x ∈ [t, u], x.IsShallow := by simp [ht, hu]
  exact (unionOf_nest hst [] [u]).trans (unionOf_nest htu [s] []).symm

/-! ### Normal shapes -/

/-- Shapes that differ from each other are all kept, unless something else becomes of them. -/
theorem unionOf_of_isMember (hmembers : ∀ t ∈ opened ss, t.IsMember)
    (hdifferent : (opened ss).Pairwise fun s t => ¬ s.Same t) :
    unionOf ss = ofDistinct (opened ss) := by
  have hkept : kept ss = opened ss := by
    unfold kept
    rw [List.filter_eq_self.mpr fun t ht => by simpa using (hmembers t ht).ne_never,
      distinct_eq_self hdifferent]
  rw [← hkept]
  exact unionOf_of_kept (fun h => (hmembers any h).ne_any rfl)
    fun h => (hmembers unknown h).ne_unknown rfl

theorem opened_eq_self (h : ∀ s ∈ ss, ¬ s.IsUnion) : opened ss = ss := by
  induction ss with
  | nil => rfl
  | cons s ss ih =>
    obtain ⟨hfirst, hrest⟩ := List.forall_mem_cons.mp h
    rw [opened_cons, spread_of_not_isUnion hfirst, ih hrest, List.singleton_append]

theorem opened_singleton (s : Shape) : opened [s] = s.spread := List.append_nil _

/-- Normalising leaves a normal union as it is, whether it is given as a whole or by its members. -/
theorem unionOf_of_isNormal (h : opened ss = ts) (hnormal : (union ts).IsNormal) :
    unionOf ss = union ts := by
  obtain ⟨hlength, hdifferent, hmembers⟩ := hnormal
  subst h
  rw [unionOf_of_isMember hmembers hdifferent]
  generalize opened ss = ts at hlength
  rcases ts with - | ⟨t, - | ⟨u, us⟩⟩
  · cases hlength
  · simp at hlength
  · rfl

theorem unionOf_singleton_of_isMember (hs : s.IsMember) : unionOf [s] = s := by
  have hopened : opened [s] = [s] := opened_eq_self (List.forall_mem_singleton.mpr hs.not_isUnion)
  rw [unionOf_of_isMember (by simpa [hopened] using hs) (by simp [hopened]), hopened, ofDistinct]

theorem unionOf_singleton_of_isNormal (hs : s.IsNormal) : unionOf [s] = s := by
  by_cases hunion : s.IsUnion
  · cases s with
    | union ss => exact unionOf_of_isNormal (opened_singleton _) hs
    | _ => exact hunion.elim
  by_cases hany : s = any
  · rw [hany]
    decide +kernel
  by_cases hunknown : s = unknown
  · rw [hunknown]
    decide +kernel
  by_cases hnever : s = never
  · rw [hnever]
    decide +kernel
  exact unionOf_singleton_of_isMember ⟨hany, hunknown, hnever, hunion⟩

/-- Normalising leaves exactly the normal shapes as they are. -/
theorem unionOf_singleton_eq_iff (hs : s.IsShallow) : unionOf [s] = s ↔ s.IsNormal := by
  refine ⟨fun h => ?_, unionOf_singleton_of_isNormal⟩
  rw [← h]
  exact isNormal_unionOf (List.forall_mem_singleton.mpr hs)

/-- A shape twice is the shape once. -/
theorem unionOf_self (s : Shape) : unionOf [s, s] = unionOf [s] := by
  have hopened : opened [s, s] = opened [s] ++ opened [s] := opened_append [s] [s]
  apply unionOf_congr
  · rw [hopened, List.mem_append, or_self]
  · rw [hopened, List.mem_append, or_self]
    exact fun _ => Iff.rfl
  · intro _ _
    unfold kept
    rw [hopened, List.filter_append, distinct_append, List.append_right_eq_self,
      List.filter_eq_nil_iff]
    intro t ht
    obtain ⟨hopened, hnever⟩ := mem_of_mem_kept ht
    simpa using ⟨t, hopened, hnever, t.same_refl⟩

/-- A member without values makes no difference. -/
theorem unionOf_never (xs ys : List Shape) : unionOf (xs ++ never :: ys) = unionOf (xs ++ ys) := by
  have hnone : ∀ s ∈ ([] : List Shape), s.IsShallow := nofun
  have hnever : unionOf [] = never := by decide +kernel
  simpa [hnever] using unionOf_nest hnone xs ys

/-! ### Adding `undefined` -/

/-- Unless something absorbs it, `undefined` is kept where it is added. -/
theorem orUndefined_cases (s : Shape) :
    s.orUndefined = any ∨ s.orUndefined = unknown ∨
      (any ∉ kept [s, undefined] ∧ unknown ∉ kept [s, undefined]) ∧
        undefined ∈ kept [s, undefined] ∧ s.orUndefined = ofDistinct (kept [s, undefined]) := by
  by_cases hany : any ∈ opened [s, undefined]
  · exact .inl (unionOf_of_any hany)
  by_cases hunknown : unknown ∈ opened [s, undefined]
  · exact .inr (.inl (unionOf_of_unknown hany hunknown))
  have hopened : undefined ∈ opened [s, undefined] :=
    mem_opened_iff.mpr ⟨undefined, by simp, List.mem_singleton_self _⟩
  obtain ⟨t, ht, hsame⟩ := exists_same_mem_kept hopened nofun
  rw [same_primitive hsame.symm] at ht
  exact .inr (.inr ⟨⟨fun h => hany (mem_of_mem_kept h).1, fun h => hunknown (mem_of_mem_kept h).1⟩,
    ht, unionOf_of_kept hany hunknown⟩)

/-- If a union has `undefined` for a member, then it is not added to it. -/
theorem orUndefined_of_mem (hany : any ∉ ss) (hunknown : unknown ∉ ss) (hnever : never ∉ ss)
    (hdifferent : ss.Pairwise fun s t => ¬ s.Same t) (hundefined : undefined ∈ ss) :
    (union ss).orUndefined = ofDistinct ss := by
  have hopened : opened [union ss, undefined] = ss ++ [undefined] := rfl
  have hkept : kept [union ss, undefined] = ss := by
    have hfilter : (ss ++ [undefined]).filter (· ≠ never) = ss ++ [undefined] := by
      rw [List.filter_eq_self]
      intro t ht
      have hne : t ≠ never := by
        rintro rfl
        simp [hnever] at ht
      simpa using hne
    unfold kept
    rw [hopened, hfilter, distinct_append, distinct_eq_self hdifferent, List.append_right_eq_self,
      List.filter_eq_nil_iff]
    intro t ht
    have ht : t = undefined := List.mem_singleton.mp (mem_of_mem_distinct ht)
    simpa [ht] using ⟨undefined, hundefined, same_refl _⟩
  unfold orUndefined
  rw [unionOf_of_kept (by simp [hopened, hany]) (by simp [hopened, hunknown]), hkept]

theorem orUndefined_orUndefined (s : Shape) : s.orUndefined.orUndefined = s.orUndefined := by
  rcases orUndefined_cases s with h | h | ⟨⟨hany, hunknown⟩, hundefined, h⟩
  · rw [h]
    decide +kernel
  · rw [h]
    decide +kernel
  have hdifferent := pairwise_kept [s, undefined]
  have hnever : never ∉ kept [s, undefined] := fun hmem => (mem_of_mem_kept hmem).2 rfl
  rw [h]
  generalize kept [s, undefined] = ks at hany hunknown hundefined hdifferent hnever
  rcases ks with - | ⟨t, - | ⟨u, us⟩⟩
  · cases hundefined
  · rw [← List.mem_singleton.mp hundefined]
    decide +kernel
  · exact orUndefined_of_mem hany hunknown hnever hdifferent hundefined

theorem includesUndefined_orUndefined_iff (s : Shape) :
    s.orUndefined.includesUndefined = true ↔ s.orUndefined ≠ any ∧ s.orUndefined ≠ unknown := by
  constructor
  · intro h
    constructor <;> intro heq <;> rw [heq] at h <;> cases h
  · rintro ⟨hany, hunknown⟩
    obtain ⟨-, hundefined, h⟩ := ((orUndefined_cases s).resolve_left hany).resolve_left hunknown
    rw [h]
    generalize kept [s, undefined] = ks at hundefined
    rcases ks with - | ⟨t, - | ⟨u, us⟩⟩
    · cases hundefined
    · rw [← List.mem_singleton.mp hundefined]
      rfl
    · rw [ofDistinct, includesUndefined, includesUndefinedAny_eq_any, List.any_eq_true]
      exact ⟨undefined, hundefined, rfl⟩

/-! ### The laws -/

/-- For shapes without a union inside a union, a union may be built in parts and in any grouping, and
a union of a shape with itself or with `never` is the shape brought to normal form, which is the shape
itself if and only if it is normal, as every union is that is built so.  For all shapes, adding
`undefined` again changes nothing, and it is included unless `any` or `unknown` has absorbed it. -/
theorem union_laws :
    (∀ xs ys : List Shape, (∀ s ∈ xs, s.IsShallow) → (∀ s ∈ ys, s.IsShallow) →
      unionOf (xs ++ ys) = unionOf [unionOf xs, unionOf ys]) ∧
    (∀ s t u : Shape, s.IsShallow → t.IsShallow → u.IsShallow →
      unionOf [unionOf [s, t], u] = unionOf [s, unionOf [t, u]]) ∧
    (∀ s : Shape, s.IsShallow →
      unionOf [s, s] = unionOf [s] ∧ unionOf [s, never] = unionOf [s] ∧
        unionOf [never, s] = unionOf [s] ∧ (unionOf [s] = s ↔ s.IsNormal)) ∧
    (∀ xs : List Shape, (∀ s ∈ xs, s.IsShallow) → (unionOf xs).IsNormal) ∧
    (∀ s : Shape, s.orUndefined.orUndefined = s.orUndefined) ∧
    ∀ s : Shape, s.orUndefined.includesUndefined = true ↔
      s.orUndefined ≠ any ∧ s.orUndefined ≠ unknown := by
  refine ⟨fun xs ys => unionOf_append, fun s t u => unionOf_assoc, fun s hs => ?_,
    fun xs => isNormal_unionOf, orUndefined_orUndefined, includesUndefined_orUndefined_iff⟩
  exact ⟨unionOf_self s, unionOf_never [s] [], unionOf_never [] [s], unionOf_singleton_eq_iff hs⟩

/-- Texts, numbers and `null` in unions that are grouped in two ways. -/
theorem union_laws_texts :
    (∀ s ∈ [primitive .string, union [primitive .number, primitive .string]], s.IsShallow) ∧
    (∀ s ∈ [union [null, primitive .number]], s.IsShallow) ∧
    unionOf [primitive .string, union [primitive .number, primitive .string],
        union [null, primitive .number]] =
      unionOf [unionOf [primitive .string, union [primitive .number, primitive .string]],
        unionOf [union [null, primitive .number]]] ∧
    unionOf [unionOf [primitive .string, primitive .number], null] =
      unionOf [primitive .string, unionOf [primitive .number, null]] ∧
    unionOf [union [null, primitive .number], never] = union [null, primitive .number] := by
  obtain ⟨happend, hassoc, hself, -, -, -⟩ := union_laws
  have hxs : ∀ s ∈ [primitive .string, union [primitive .number, primitive .string]],
      s.IsShallow := by
    rw [forall_isShallow_iff]
    decide
  have hys : ∀ s ∈ [union [null, primitive .number]], s.IsShallow := by
    rw [forall_isShallow_iff]
    decide
  have hprimitive : ∀ p : Primitive, (primitive p).IsShallow := by
    intro p t ht
    rw [List.mem_singleton.mp ht]
    exact id
  refine ⟨hxs, hys, happend _ _ hxs hys,
    hassoc _ _ _ (hprimitive _) (hprimitive _) (hprimitive _), ?_⟩
  obtain ⟨-, hnever, -, hnormal⟩ := hself _ (hys _ (List.mem_singleton_self _))
  rw [hnever, hnormal]
  refine ⟨by simp, by decide +kernel, fun t ht => ?_⟩
  rcases List.mem_pair.mp ht with rfl | rfl <;> exact ⟨nofun, nofun, nofun, id⟩

/-- A union that repeats a member is not left as it is by a union with `never`, nor by one with itself. -/
theorem unionOf_never_ne :
    (union [primitive .string, primitive .string]).IsShallow ∧
    unionOf [union [primitive .string, primitive .string], never] = primitive .string ∧
    unionOf [union [primitive .string, primitive .string],
      union [primitive .string, primitive .string]] = primitive .string ∧
    primitive .string ≠ union [primitive .string, primitive .string] := by
  refine ⟨?_, by decide +kernel, by decide +kernel, by simp⟩
  have hshallow : ∀ s ∈ [union [primitive .string, primitive .string]], s.IsShallow := by
    rw [forall_isShallow_iff]
    decide
  exact hshallow _ (List.mem_singleton_self _)

end TypedPaths.Shape

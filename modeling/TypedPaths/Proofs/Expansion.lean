/-
TypedPaths/Proofs/Expansion.lean

Expansions in valid schemas.

Design.  The expansion of a shape is computed over a number of steps that is fixed in advance.
The check for cycles walks the same references over the same number of steps, so where it
succeeds the expansion never runs out of them (`expandWithin_of_checkCyclesWithin`).  From there
on the steps are gone: a reference has the expansion of what it stands for (`expand_ref`), and
whatever is to be shown of all shapes may be shown along references and members of unions
(`Valid.induction`).

`Schema.Branch` says without any steps what an expansion is made of: the concrete shapes that are
reached through references and members of unions.

Main results:
* `Valid.induction`: induction along references and members of unions;
* `expand_ref`, `expand_union`, `expand_concrete`: the equations of the expansion;
* `branch_ref_iff`, `branch_union_iff`, `branch_concrete_iff`: the branches of a shape.
-/
import TypedPaths.Schema.Expansion
import TypedPaths.Proofs.Sameness

namespace TypedPaths

/-! ### Concrete shapes -/

namespace Shape

/-- Neither a reference nor a union. -/
def IsConcrete : Shape → Prop
  | ref _ => False
  | union _ => False
  | _ => True

/-- Induction on the members of unions alone. -/
theorem headInduction {P : Shape → Prop} (concrete : ∀ s, s.IsConcrete → P s)
    (ref : ∀ n, P (.ref n)) (union : ∀ ss, (∀ s ∈ ss, P s) → P (.union ss)) : ∀ s : Shape, P s
  | .ref n => ref n
  | .union ss => union ss fun s _ => headInduction concrete ref union s
  | .primitive _ => concrete _ trivial
  | .literal _ => concrete _ trivial
  | .any => concrete _ trivial
  | .unknown => concrete _ trivial
  | .never => concrete _ trivial
  | .array _ _ => concrete _ trivial
  | .tuple _ _ => concrete _ trivial
  | .record _ => concrete _ trivial
  | .struct _ _ => concrete _ trivial

theorem Same.isConcrete {s t : Shape} (h : s.Same t) (hs : s.IsConcrete) : t.IsConcrete := by
  cases t with
  | ref n => rw [same_ref h.symm] at hs; exact hs
  | union ts =>
    obtain ⟨us, rfl, -⟩ := same_union h.symm
    exact hs
  | _ => trivial

theorem expandWith_concrete {follow : String → Expansion} {s : Shape} (hs : s.IsConcrete) :
    s.expandWith follow = .leaf s := by
  cases s <;> first | rfl | exact hs.elim

theorem expandWith_union (follow : String → Expansion) (ss : List Shape) :
    (union ss).expandWith follow = .union (ss.map fun s => (s, s.expandWith follow)) := by
  rw [expandWith, expandMembers_eq_map]

theorem headRefsList_eq_flatMap (ss : List Shape) : headRefsList ss = ss.flatMap headRefs := by
  induction ss with
  | nil => rfl
  | cons s ss ih => rw [headRefsList, ih, List.flatMap_cons]

/-- The names at the head of a member are at the head of the union. -/
theorem mem_headRefs_union {ss : List Shape} {s : Shape} (hs : s ∈ ss) {n : String}
    (hn : n ∈ s.headRefs) : n ∈ (union ss).headRefs := by
  rw [headRefs, headRefsList_eq_flatMap]
  exact List.mem_flatMap.mpr ⟨s, hs, hn⟩

/-- What holds of the references at the head of a shape holds of the shape, if it holds along
members of unions. -/
theorem of_headRefs {P : Shape → Prop} (concrete : ∀ s, s.IsConcrete → P s)
    (union : ∀ ss, (∀ s ∈ ss, P s) → P (.union ss)) {s : Shape}
    (hrefs : ∀ n ∈ s.headRefs, P (.ref n)) : P s := by
  induction s using headInduction with
  | concrete s hs => exact concrete s hs
  | ref n => exact hrefs n (by simp [headRefs])
  | union ss ih => exact union ss fun s hs => ih s hs fun n hn => hrefs n (mem_headRefs_union hs hn)

/-- The expansion depends on what the references at the head stand for. -/
theorem expandWith_congr {f g : String → Expansion} (s : Shape)
    (h : ∀ n ∈ s.headRefs, f n = g n) : s.expandWith f = s.expandWith g := by
  induction s using headInduction with
  | concrete s hs => rw [expandWith_concrete hs, expandWith_concrete hs]
  | ref n => exact h n (by simp [headRefs])
  | union ss ih =>
    rw [expandWith_union, expandWith_union]
    refine congrArg Expansion.union (List.map_congr_left fun s hs => ?_)
    rw [ih s hs fun n hn => h n (mem_headRefs_union hs hn)]

end Shape

namespace Schema

open Shape

variable {S : Schema}

/-! ### What the check for cycles has seen -/

/-- A check of all elements passes if each of them does. -/
theorem forM_eq_ok_iff {α : Type} {f : α → Except Error Unit} {xs : List α} :
    xs.forM f = .ok () ↔ ∀ x ∈ xs, f x = .ok () := by
  induction xs with
  | nil => exact ⟨fun _ x hx => (nomatch hx), fun _ => rfl⟩
  | cons x xs ih =>
    show (f x >>= fun _ => xs.forM f) = .ok () ↔ _
    rw [List.forall_mem_cons, ← ih]
    rcases f x with e | ⟨⟩
    · exact ⟨fun h => (nomatch h), fun h => (nomatch h.1)⟩
    · exact ⟨fun h => ⟨rfl, h⟩, fun h => h.2⟩

/-- A check that succeeds has looked up each name, with a step left for it. -/
theorem checkCyclesWithin_ok {steps : Nat} {visiting names : List String}
    (h : S.checkCyclesWithin steps visiting names = .ok ()) {n : String} (hn : n ∈ names) :
    ∃ k s, steps = k + 1 ∧ S.definitions.find? n = some s ∧
      S.checkCyclesWithin k (n :: visiting) s.headRefs = .ok () := by
  cases steps with
  | zero =>
    rw [checkCyclesWithin, forM_eq_ok_iff] at h
    exact nomatch h n hn
  | succ k =>
    rw [checkCyclesWithin, forM_eq_ok_iff] at h
    have hname := h n hn
    by_cases hv : n ∈ visiting
    · -- a name that is visited already is a cycle
      rw [if_pos hv] at hname
      cases hname
    · rw [if_neg hv] at hname
      rcases hs : S.definitions.find? n with - | s
      · rw [hs] at hname
        cases hname
      · rw [hs] at hname
        exact ⟨k, s, rfl, rfl, hname⟩

/-- Where the check succeeds, further steps do not change the expansion. -/
theorem expandWithin_of_checkCyclesWithin {steps : Nat} {visiting : List String} {s : Shape}
    (h : S.checkCyclesWithin steps visiting s.headRefs = .ok ()) {more : Nat} (hm : steps ≤ more) :
    S.expandWithin more s = S.expandWithin steps s := by
  induction steps generalizing visiting s more with
  | zero =>
    -- no step is left, so no reference is at the head
    have hnone : ∀ n, n ∉ s.headRefs := fun n hn => by
      obtain ⟨k, t, hk, -⟩ := checkCyclesWithin_ok h hn
      omega
    cases more <;> exact expandWith_congr s fun n hn => absurd hn (hnone n)
  | succ steps ih =>
    obtain ⟨more, rfl⟩ : ∃ k, more = k + 1 := ⟨more - 1, by omega⟩
    -- every name at the head was checked with the steps that are left to expand it
    refine expandWith_congr s fun n hn => ?_
    obtain ⟨k, t, hk, ht, hcheck⟩ := checkCyclesWithin_ok h hn
    obtain rfl : steps = k := by omega
    rw [ht]
    exact ih hcheck (by omega)

/-- What holds along references and members holds of the names a check has seen. -/
theorem ref_of_checkCyclesWithin {P : Shape → Prop} (concrete : ∀ s, s.IsConcrete → P s)
    (union : ∀ ss, (∀ s ∈ ss, P s) → P (.union ss))
    (ref : ∀ n s, S.definitions.find? n = some s → P s → P (.ref n))
    {steps : Nat} {visiting names : List String}
    (h : S.checkCyclesWithin steps visiting names = .ok ()) : ∀ n ∈ names, P (.ref n) := by
  induction steps generalizing visiting names with
  | zero =>
    -- without steps the check succeeds for no name
    intro n hn
    obtain ⟨k, t, hk, -⟩ := checkCyclesWithin_ok h hn
    omega
  | succ steps ih =>
    intro n hn
    obtain ⟨k, t, hk, ht, hcheck⟩ := checkCyclesWithin_ok h hn
    obtain rfl : steps = k := by omega
    exact ref n t ht (of_headRefs concrete union (ih hcheck))

/-! ### Valid schemas -/

theorem Valid.checkCycles (hS : S.Valid) {s : Shape} (hs : s ∈ S.shapes) :
    S.checkCycles s = .ok () := by
  have hv : S.validate = .ok () := hS
  unfold validate at hv
  -- all references are looked up before the first check for cycles
  rcases hr : (S.shapes.flatMap Shape.refs).forM fun name => discard (S.deref (.ref name))
    with e | ⟨⟩
  · rw [hr] at hv
    cases hv
  · rw [hr] at hv
    exact forM_eq_ok_iff.mp hv s hs

/-- In a valid schema, no cycle starts at a definition. -/
theorem Valid.checkCycles_definition (hS : S.Valid) {n : String} {s : Shape}
    (hn : S.definitions.find? n = some s) :
    S.checkCyclesWithin S.definitions.size [] s.headRefs = .ok () := by
  refine hS.checkCycles (List.mem_cons_of_mem _ ?_)
  exact List.mem_map.mpr ⟨(n, s), SortedMap.find?_eq_some_iff.mp hn, rfl⟩

/-- Induction along references and members of unions.  In a valid schema every shape is reached
by it, also one that does not occur in the schema. -/
theorem Valid.induction {P : Shape → Prop} (hS : S.Valid)
    (concrete : ∀ s, s.IsConcrete → P s)
    (union : ∀ ss, (∀ s ∈ ss, P s) → P (.union ss))
    (ref : ∀ n s, S.definitions.find? n = some s → P s → P (.ref n))
    (dangling : ∀ n, S.definitions.find? n = none → P (.ref n)) (s : Shape) : P s := by
  have hdefinition : ∀ n s, S.definitions.find? n = some s → P s := by
    intro n s hn
    have hcheck := hS.checkCycles_definition hn
    exact of_headRefs concrete union (ref_of_checkCyclesWithin concrete union ref hcheck)
  -- a shape that does not occur in the schema reaches definitions through the names at its head
  induction s using headInduction with
  | concrete s hs => exact concrete s hs
  | ref n =>
    rcases hn : S.definitions.find? n with - | s
    · exact dangling n hn
    · exact ref n s hn (hdefinition n s hn)
  | union ss ih => exact union ss ih

/-! ### The equations of the expansion -/

theorem expand_concrete {s : Shape} (hs : s.IsConcrete) : S.expand s = .leaf s :=
  expandWith_concrete hs

/-- A union expands to the expansions of its members. -/
theorem expand_union (ss : List Shape) :
    S.expand (.union ss) = .union (ss.map fun s => (s, S.expand s)) :=
  expandWith_union _ ss

/-- In a valid schema, a reference expands to what its definition expands to. -/
theorem expand_ref (hS : S.Valid) {n : String} {s : Shape}
    (hn : S.definitions.find? n = some s) : S.expand (.ref n) = S.expand s := by
  rw [expand, expandWithin, Shape.expandWith]
  simp only [hn]
  -- following the name has taken a step, and those that are left suffice for its definition
  exact (expandWithin_of_checkCyclesWithin (hS.checkCycles_definition hn) (by omega)).symm

/-- A name without a definition stands for `never`. -/
theorem expand_dangling {n : String} (hn : S.definitions.find? n = none) :
    S.expand (.ref n) = .leaf .never := by
  rw [expand, expandWithin, Shape.expandWith]
  simp only [hn]

/-! ### Branches -/

/-- The concrete shapes that are reached from a shape through references and members of
unions. -/
inductive Branch (S : Schema) : Shape → Shape → Prop
  | concrete {t : Shape} : t.IsConcrete → Branch S t t
  | member {ss : List Shape} {s t : Shape} : s ∈ ss → Branch S s t → Branch S (.union ss) t
  | ref {n : String} {s t : Shape} :
      S.definitions.find? n = some s → Branch S s t → Branch S (.ref n) t

theorem Branch.isConcrete {s t : Shape} (h : S.Branch s t) : t.IsConcrete := by
  induction h with
  | concrete ht => exact ht
  | member _ _ ih => exact ih
  | ref _ _ ih => exact ih

theorem branch_concrete_iff {s t : Shape} (hs : s.IsConcrete) : S.Branch s t ↔ t = s := by
  refine ⟨fun h => ?_, fun h => h ▸ .concrete (h ▸ hs)⟩
  cases h with
  | concrete => rfl
  | member => exact hs.elim
  | ref => exact hs.elim

theorem branch_union_iff {ss : List Shape} {t : Shape} :
    S.Branch (.union ss) t ↔ ∃ s ∈ ss, S.Branch s t := by
  refine ⟨fun h => ?_, fun ⟨s, hs, h⟩ => .member hs h⟩
  cases h with
  | concrete ht => exact ht.elim
  | member hs h => exact ⟨_, hs, h⟩

theorem exists_branch_union_iff {ss : List Shape} {B : Shape → Prop} :
    (∃ t, S.Branch (.union ss) t ∧ B t) ↔ ∃ s ∈ ss, ∃ t, S.Branch s t ∧ B t := by
  simp only [branch_union_iff]
  constructor
  · rintro ⟨t, ⟨s, hs, hst⟩, h⟩
    exact ⟨s, hs, t, hst, h⟩
  · rintro ⟨s, hs, t, hst, h⟩
    exact ⟨t, ⟨s, hs, hst⟩, h⟩

theorem branch_ref_iff {n : String} {s t : Shape} (hn : S.definitions.find? n = some s) :
    S.Branch (.ref n) t ↔ S.Branch s t := by
  refine ⟨fun h => ?_, fun h => .ref hn h⟩
  cases h with
  | concrete ht => exact ht.elim
  | ref hm h =>
    obtain rfl := Option.some.inj (hn.symm.trans hm)
    exact h

theorem not_branch_dangling {n : String} {t : Shape} (hn : S.definitions.find? n = none) :
    ¬ S.Branch (.ref n) t := by
  intro h
  cases h with
  | concrete ht => exact ht
  | ref hm _ => exact nomatch hn.symm.trans hm

/-- Shapes that are the same have the same branches, up to sameness. -/
theorem Branch.same {s t u : Shape} (h : S.Branch s t) (hsame : s.Same u) :
    ∃ v, S.Branch u v ∧ t.Same v := by
  induction h generalizing u with
  | concrete ht => exact ⟨u, .concrete (hsame.isConcrete ht), hsame⟩
  | member hs _ ih =>
    obtain ⟨us, rfl, hus⟩ := same_union hsame
    obtain ⟨w, hw, hsw⟩ := exists_mem_of_forall₂ hus hs
    obtain ⟨v, hv, htv⟩ := ih hsw
    exact ⟨v, .member hw hv, htv⟩
  | ref hn _ ih =>
    rw [same_ref hsame]
    obtain ⟨v, hv, htv⟩ := ih (same_refl _)
    exact ⟨v, .ref hn hv, htv⟩

end Schema

end TypedPaths

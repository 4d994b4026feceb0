/-
TypedPaths/Proofs/Composition.lean

Paths resolved in two parts.

Design.  Where nothing is marked, a path may be resolved up to some place and then from the shape
that was found there.  That shape is a single one: the branches that the first part leads to have
been merged in it, while a path that is resolved as a whole keeps them apart and drops those that the
rest of it leads nowhere from.  Asked for a property of their results, both open up the same slots
(`reaches_append`), and what the leaves of a result are like is such a property.  So the results have
the same leaves, though their unions may be nested in different ways.

Main results: `resolve_append`.
-/
import TypedPaths.Proofs.Leaves
import TypedPaths.Proofs.Resolution

namespace TypedPaths.Schema

open Shape

variable {S : Schema} {s t u v : Shape} {xs ys : List String} {b c d : Nat}

/-- A path leads somewhere if and only if its first part does and the rest of it does from there. -/
theorem exists_resolve_append_iff (hS : S.Valid) (hy : ys ≠ [])
    (hb : xs.length + ys.length ≤ b) (hc : xs.length ≤ c) (hd : ys.length ≤ d) :
    (∃ u, S.resolve .writing b (xs ++ ys) s = some u) ↔
      ∃ t, S.resolve .writing c xs s = some t ∧ ∃ v, S.resolve .writing d ys t = some v := by
  simp only [← reaches_true]
  exact reaches_append hS distributive_true.unmarked hy hb hd hc

/-- A property of leaves holds of the result of a whole path if and only if it holds of the result of
its two parts. -/
theorem holds_append_iff (hS : S.Valid) (hy : ys ≠ []) (hb : xs.length + ys.length ≤ b)
    (hc : xs.length ≤ c) (hd : ys.length ≤ d) (hu : S.resolve .writing b (xs ++ ys) s = some u)
    (ht : S.resolve .writing c xs s = some t) (hv : S.resolve .writing d ys t = some v)
    {B : Shape → Prop} (same : ∀ {s t}, s.Same t → B s → B t) :
    Holds B u.leaves ↔ Holds B v.leaves := by
  -- writing marks nothing, so the property may be one that `undefined` has
  have hA : Unmarked .writing fun s => Holds B s.leaves := (memberwise_holds same).unmarked
  have happend : S.Reaches .writing b (xs ++ ys) (fun s => Holds B s.leaves) s ↔
      S.Reaches .writing c xs (S.Reaches .writing d ys fun s => Holds B s.leaves) s :=
    reaches_append hS hA hy hb hd hc
  rwa [reaches_of_resolve hu, reaches_of_resolve ht, reaches_of_resolve hv] at happend

theorem sameLeaves_append (hS : S.Valid) (hy : ys ≠ []) (hb : xs.length + ys.length ≤ b)
    (hc : xs.length ≤ c) (hd : ys.length ≤ d) (hu : S.resolve .writing b (xs ++ ys) s = some u)
    (ht : S.resolve .writing c xs s = some t) (hv : S.resolve .writing d ys t = some v) :
    u.SameLeaves v :=
  sameLeaves_iff.mpr fun _ same => holds_append_iff hS hy hb hc hd hu ht hv same

/-- Where a path leads somewhere, its first part does. -/
theorem exists_resolve_of_append (hS : S.Valid) (hb : (xs ++ ys).length ≤ b)
    (hc : xs.length ≤ c) (h : ∃ u, S.resolve .writing b (xs ++ ys) s = some u) :
    ∃ t, S.resolve .writing c xs s = some t := by
  rw [List.length_append] at hb
  by_cases hy : ys = []
  · -- the first part is the whole path, at most over other levels
    subst hy
    rw [List.append_nil] at h
    rwa [resolve_of_length_le hc (by simpa using hb)]
  · obtain ⟨t, ht, -⟩ := (exists_resolve_append_iff hS hy hb hc (Nat.le_refl _)).mp h
    exact ⟨t, ht⟩

/-- A path is resolved in two parts: it leads somewhere if and only if the first part leads to a shape
from which the rest does, and the results have the same leaves.  So every first part of a path that
leads somewhere does so as well. -/
theorem resolve_append (hS : S.Valid) (s : Shape) (hy : ys ≠ []) (hb : (xs ++ ys).length ≤ b)
    (hc : xs.length ≤ c) (hd : ys.length ≤ d) :
    ((∃ u, S.resolve .writing b (xs ++ ys) s = some u) ↔
      ∃ t, S.resolve .writing c xs s = some t ∧ ∃ v, S.resolve .writing d ys t = some v) ∧
    (∀ t u v, S.resolve .writing b (xs ++ ys) s = some u → S.resolve .writing c xs s = some t →
      S.resolve .writing d ys t = some v → u.SameLeaves v) ∧
    ((∃ u, S.resolve .writing b (xs ++ ys) s = some u) →
      ∀ zs, zs <+: xs ++ ys → ∀ e, zs.length ≤ e → ∃ t, S.resolve .writing e zs s = some t) := by
  have hlength : xs.length + ys.length ≤ b := List.length_append ▸ hb
  refine ⟨exists_resolve_append_iff hS hy hlength hc hd,
    fun t u v => sameLeaves_append hS hy hlength hc hd, ?_⟩
  rintro h zs ⟨rest, hzs⟩ e he
  rw [← hzs] at h hb
  exact exists_resolve_of_append hS hb he h

/-- An entry with a title, which is missing in one member of the outer union. -/
def drafts : Schema where
  root := .union
    [.union [.struct [⟨"entry", .struct [⟨"title",
        .union [.union [.primitive .string, .primitive .number]], false, false, false⟩] none,
        true, false, false⟩] none],
      .struct [⟨"entry", .struct [⟨"title", .null, false, false, false⟩] none,
        false, false, false⟩] none]

theorem resolve_append_drafts :
    drafts.Valid ∧ ["title"] ≠ [] ∧ (["entry"] ++ ["title"]).length ≤ 2 ∧ ["entry"].length ≤ 1 ∧
    ["title"].length ≤ 1 ∧
    ∃ t, drafts.resolve .writing 1 ["entry"] drafts.root = some t ∧
      drafts.resolve .writing 2 (["entry"] ++ ["title"]) drafts.root =
        some (.union [.primitive .string, .primitive .number, .null]) ∧
      drafts.resolve .writing 1 ["title"] t =
        some (.union [.union [.primitive .string, .primitive .number], .null]) ∧
      SameLeaves (.union [.primitive .string, .primitive .number, .null])
        (.union [.union [.primitive .string, .primitive .number], .null]) := by
  have hvalid : drafts.Valid := by decide
  have hy : ["title"] ≠ [] := by decide
  have hb : (["entry"] ++ ["title"]).length ≤ 2 := by decide
  have hc : ["entry"].length ≤ 1 := by decide
  have hd : ["title"].length ≤ 1 := by decide
  have hwhole : drafts.resolve .writing 2 (["entry"] ++ ["title"]) drafts.root =
      some (.union [.primitive .string, .primitive .number, .null]) := by decide +kernel
  obtain ⟨hiff, hleaves, -⟩ := resolve_append hvalid drafts.root hy hb hc hd
  obtain ⟨t, ht, -⟩ := hiff.mp ⟨_, hwhole⟩
  have hrest : (drafts.resolve .writing 1 ["entry"] drafts.root).bind
      (drafts.resolve .writing 1 ["title"]) =
        some (.union [.union [.primitive .string, .primitive .number], .null]) := by decide +kernel
  rw [ht, Option.bind_some] at hrest
  exact ⟨hvalid, hy, hb, hc, hd, t, ht, hwhole, hrest, hleaves t _ _ hwhole ht hrest⟩

end TypedPaths.Schema

/-
TypedPaths/Proofs/Nesting.lean

Values that are read from texts, and what a write makes of them.

Design.  A value read from a text is canonical and not too deep.  A write keeps the one and not the
other.  Both properties are told from the direct parts of a value (`Json.parts`), and a write changes
one of these on each level of its path (`Json.assign_of_update`); so each follows by one induction on
the segments.  A value put at a path lies as many levels below as the path has segments, and nothing
else gets any deeper.

Main results: `Json.canonical_of_ofText?`, `Json.depth_of_ofText?`, `Json.Canonical.update`,
`Json.depth_le_iff_of_update`.
-/
import TypedPaths.Proofs.Parsing
import TypedPaths.Proofs.Writing

namespace TypedPaths

/-- The last entries of each name are entries. -/
theorem Entries.mem_of_mem_sortLast {α : Type} {e : String × α} {entries : List (String × α)}
    (h : e ∈ sortLast entries) : e ∈ entries := by
  induction entries with
  | nil => exact h
  | cons f rest ih =>
    rw [sortLast, insertNew] at h
    split at h
    · exact List.mem_cons_of_mem _ (ih h)
    · rcases mem_insert h with rfl | h
      · exact List.mem_cons_self
      · exact List.mem_cons_of_mem _ (ih h)

namespace Json

variable {v u w c : Json} {key : String} {trail ps : List String} {d : Nat}

/-! ### The direct parts of a value -/

/-- The items of an array, the values of an object. -/
def parts : Json → List Json
  | array items => items
  | object fields => fields.map Prod.snd
  | _ => []

theorem mem_parts_of_child? (h : v.child? key = some c) : c ∈ v.parts := by
  cases v with
  | object fields => exact List.mem_map_of_mem (Entries.mem_of_find? h)
  | array items =>
    obtain ⟨i, -, hi⟩ := Option.bind_eq_some_iff.mp h
    exact List.mem_of_getElem? hi
  | _ => cases h

/-- A write to one segment brings in no part but the value written. -/
theorem mem_parts_of_assign (h : assign trail key w v = .ok u) {p : Json} (hp : p ∈ u.parts) :
    p = w ∨ p ∈ v.parts := by
  obtain ⟨fields, rfl, rfl⟩ | ⟨items, i, rfl, -, ⟨-, rfl⟩ | ⟨-, rfl⟩⟩ := assign_eq_ok h
  · obtain ⟨e, he, rfl⟩ := List.mem_map.mp hp
    rcases Entries.mem_insert he with rfl | he
    · exact .inl rfl
    · exact .inr (List.mem_map_of_mem he)
  · exact (List.mem_or_eq_of_mem_set hp).symm
  · rw [parts, List.mem_append, List.mem_singleton] at hp
    exact hp.symm

/-! ### Canonical values -/

/-- A function that leaves a list as it is leaves its elements as they are. -/
theorem map_eq_self_iff {α : Type} {f : α → α} {xs : List α} :
    xs.map f = xs ↔ ∀ x ∈ xs, f x = x := by
  have h : xs.map f = xs.map id ↔ ∀ x ∈ xs, f x = id x := List.map_inj_left
  rwa [List.map_id] at h

/-- An object is canonical if its names increase and all its values are canonical. -/
theorem canonical_object_iff {fields : List (String × Json)} :
    (object fields).Canonical ↔
      Entries.Increasing fields ∧ ∀ e ∈ fields, e.2.Canonical := by
  have hvalues : Entries.mapValues canonical fields = fields ↔ ∀ e ∈ fields, e.2.Canonical :=
    map_eq_self_iff.trans (by simp [Prod.ext_iff, Canonical])
  show object (Entries.sortLast (canonicalFields fields)) = object fields ↔ _
  rw [canonicalFields_eq_mapValues, object.injEq]
  constructor
  · intro h
    have hincreasing : Entries.Increasing fields := h ▸ Entries.increasing_sortLast _
    rw [Entries.sortLast_eq_self (Entries.increasing_mapValues.mpr hincreasing)] at h
    exact ⟨hincreasing, hvalues.mp h⟩
  · rintro ⟨hincreasing, h⟩
    rw [hvalues.mpr h, Entries.sortLast_eq_self hincreasing]

theorem canonical_array_iff {items : List Json} :
    (array items).Canonical ↔ ∀ v ∈ items, v.Canonical := by
  show array (canonicalItems items) = array items ↔ _
  rw [canonicalItems_eq_map, array.injEq]
  exact map_eq_self_iff

theorem Canonical.of_mem_parts (hv : v.Canonical) (hc : c ∈ v.parts) : c.Canonical := by
  cases v with
  | object fields =>
    obtain ⟨e, he, rfl⟩ := List.mem_map.mp hc
    exact (canonical_object_iff.mp hv).2 e he
  | array items => exact canonical_array_iff.mp hv c hc
  | _ => cases hc

theorem Canonical.assign (hv : v.Canonical) (hw : w.Canonical)
    (h : assign trail key w v = .ok u) : u.Canonical := by
  have hparts : ∀ p ∈ u.parts, p.Canonical := by
    intro p hp
    rcases mem_parts_of_assign h hp with rfl | hp
    · exact hw
    · exact hv.of_mem_parts hp
  obtain ⟨fields, rfl, rfl⟩ | ⟨items, i, rfl, -, ⟨-, rfl⟩ | ⟨-, rfl⟩⟩ := assign_eq_ok h
  · have hincreasing := (canonical_object_iff.mp hv).1
    exact canonical_object_iff.mpr
      ⟨Entries.increasing_insert hincreasing, fun e he => hparts e.2 (List.mem_map_of_mem he)⟩
  · exact canonical_array_iff.mpr hparts
  · exact canonical_array_iff.mpr hparts

/-- A write of a canonical value keeps a value canonical. -/
theorem Canonical.update (hv : v.Canonical) (hw : w.Canonical)
    (h : update w trail ps v = .ok u) : u.Canonical := by
  induction ps generalizing trail v u with
  | nil => exact absurd h update_nil
  | cons key ps ih =>
    obtain ⟨c, hassign, hc⟩ := assign_of_update h
    refine hv.assign ?_ hassign
    obtain ⟨-, rfl⟩ | ⟨old, hold, hc⟩ := hc
    · exact hw
    · exact ih (hv.of_mem_parts (mem_parts_of_child? hold)) hc

/-! ### Depth -/

theorem depthItems_le_iff {items : List Json} :
    depthItems items ≤ d ↔ ∀ v ∈ items, v.depth ≤ d := by
  induction items with
  | nil => simp [depthItems]
  | cons v vs ih => rw [depthItems, Nat.max_le, ih, List.forall_mem_cons]

theorem depthFields_le_iff {fields : List (String × Json)} :
    depthFields fields ≤ d ↔ ∀ e ∈ fields, e.2.depth ≤ d := by
  induction fields with
  | nil => simp [depthFields]
  | cons e es ih => rw [depthFields, Nat.max_le, ih, List.forall_mem_cons]

/-- The parts of a value are less deep than the value. -/
theorem depth_le_succ_iff : v.depth ≤ d + 1 ↔ ∀ p ∈ v.parts, p.depth ≤ d := by
  cases v with
  | object fields =>
    rw [parts, List.forall_mem_map]
    exact Nat.succ_le_succ_iff.trans depthFields_le_iff
  | array items => exact Nat.succ_le_succ_iff.trans depthItems_le_iff
  | _ => simp [depth, parts]

/-- A part is less deep than the value that it is a part of. -/
theorem depth_lt_of_mem_parts (h : c ∈ v.parts) : c.depth < v.depth := by
  cases v with
  | object fields => exact Nat.lt_succ_of_le (depth_le_succ_iff.mp (Nat.le_refl _) c h)
  | array items => exact Nat.lt_succ_of_le (depth_le_succ_iff.mp (Nat.le_refl _) c h)
  | _ => cases h

/-- What a path leads to lies as many levels deeper as the path has segments. -/
theorem length_add_depth_le_of_lookup? (h : lookup? ps v = some w) :
    ps.length + w.depth ≤ v.depth := by
  induction ps generalizing v with
  | nil =>
    obtain rfl := Option.some.inj h
    simp
  | cons key ps ih =>
    obtain ⟨c, hc, hw⟩ := Option.bind_eq_some_iff.mp h
    have hlt := depth_lt_of_mem_parts (mem_parts_of_child? hc)
    have hle := ih hw
    rw [List.length_cons]
    omega

/-- A write makes a value no deeper than the value was or than what is written lies. -/
theorem depth_le_of_update (h : update w trail ps v = .ok u) (hv : v.depth ≤ d)
    (hw : ps.length + w.depth ≤ d) : u.depth ≤ d := by
  induction ps generalizing trail v u d with
  | nil => exact absurd h update_nil
  | cons key ps ih =>
    rw [List.length_cons] at hw
    obtain ⟨c, hassign, hc⟩ := assign_of_update h
    obtain ⟨d, rfl⟩ : ∃ e, d = e + 1 := Nat.exists_eq_succ_of_ne_zero (by omega)
    have hparts := depth_le_succ_iff.mp hv
    -- one level down both bounds are one less
    have hchanged : c.depth ≤ d := by
      obtain ⟨-, rfl⟩ | ⟨old, hold, hc⟩ := hc
      · omega
      · exact ih hc (hparts old (mem_parts_of_child? hold)) (by omega)
    refine depth_le_succ_iff.mpr fun p hp => ?_
    rcases mem_parts_of_assign hassign hp with rfl | hp
    · exact hchanged
    · exact hparts p hp

/-- Whether a value is too deep after a write depends on what is written, and on how far below. -/
theorem depth_le_iff_of_update (h : update w trail ps v = .ok u) (hv : v.depth ≤ d) :
    u.depth ≤ d ↔ ps.length + w.depth ≤ d := by
  have hdeep := length_add_depth_le_of_lookup? (lookup?_update h)
  exact ⟨fun hu => Nat.le_trans hdeep hu, depth_le_of_update h hv⟩

end Json

/-! ### Values read from texts -/

namespace Tree

mutual

/-- A value that a tree denotes is not deeper than was asked for. -/
theorem depth_of_value? : ∀ {t : Tree} {d : Nat} {v : Json}, value? d t = some v → v.depth ≤ d
  | null, _, _, h => by
    obtain rfl := Option.some.inj h
    exact Nat.zero_le _
  | bool _, _, _, h => by
    obtain rfl := Option.some.inj h
    exact Nat.zero_le _
  | number _, _, _, h => by
    obtain ⟨n, -, rfl⟩ := Option.map_eq_some_iff.mp h
    exact Nat.zero_le _
  | string _, _, _, h => by
    obtain ⟨s, -, rfl⟩ := Option.map_eq_some_iff.mp h
    exact Nat.zero_le _
  | array _, 0, _, h => by cases h
  | array _, d + 1, _, h => by
    obtain ⟨vs, hvs, rfl⟩ := Option.map_eq_some_iff.mp h
    exact Nat.succ_le_succ (depth_of_values? hvs)
  | object _, 0, _, h => by cases h
  | object _, d + 1, _, h => by
    obtain ⟨es, hes, rfl⟩ := Option.map_eq_some_iff.mp h
    exact Nat.succ_le_succ (depth_of_entries? hes)

theorem depth_of_values? : ∀ {ts : List Tree} {d : Nat} {vs : List Json},
    values? d ts = some vs → Json.depthItems vs ≤ d
  | [], _, _, h => by
    obtain rfl := Option.some.inj h
    exact Nat.zero_le _
  | _ :: _, _, _, h => by
    simp only [values?, Option.bind_eq_bind, Option.bind_eq_some_iff, Option.some.injEq] at h
    obtain ⟨v, hv, vs, hvs, rfl⟩ := h
    exact Nat.max_le.mpr ⟨depth_of_value? hv, depth_of_values? hvs⟩

theorem depth_of_entries? : ∀ {ts : List (Option String × Tree)} {d : Nat}
    {es : List (String × Json)}, entries? d ts = some es → Json.depthFields es ≤ d
  | [], _, _, h => by
    obtain rfl := Option.some.inj h
    exact Nat.zero_le _
  | (_, _) :: _, _, _, h => by
    simp only [entries?, Option.bind_eq_bind, Option.bind_eq_some_iff, Option.some.injEq] at h
    obtain ⟨n, -, v, hv, es, hes, rfl⟩ := h
    exact Nat.max_le.mpr ⟨depth_of_value? hv, depth_of_entries? hes⟩

end

end Tree

namespace Json

mutual

/-- Making a value canonical makes it no deeper. -/
theorem depth_canonical_le : ∀ v : Json, v.canonical.depth ≤ v.depth
  | null | bool _ | number _ | string _ => Nat.le_refl _
  | array items => Nat.succ_le_succ (depthItems_canonicalItems_le items)
  | object fields => by
    refine Nat.succ_le_succ (depthFields_le_iff.mpr fun e he => ?_)
    have hle := depthFields_canonicalFields_le fields
    exact depthFields_le_iff.mp hle e (Entries.mem_of_mem_sortLast he)

theorem depthItems_canonicalItems_le : ∀ items : List Json,
    depthItems (canonicalItems items) ≤ depthItems items
  | [] => Nat.le_refl _
  | v :: vs => by
    have hv := depth_canonical_le v
    have hvs := depthItems_canonicalItems_le vs
    simp only [canonicalItems, depthItems]
    omega

theorem depthFields_canonicalFields_le : ∀ fields : List (String × Json),
    depthFields (canonicalFields fields) ≤ depthFields fields
  | [] => Nat.le_refl _
  | (n, v) :: fs => by
    have hv := depth_canonical_le v
    have hfs := depthFields_canonicalFields_le fs
    simp only [canonicalFields, depthFields]
    omega

end

variable {text : String}

/-- Every value that is read is canonical. -/
theorem canonical_of_ofText? (h : ofText? text = some v) : v.Canonical := by
  obtain ⟨v, -, rfl⟩ := Option.map_eq_some_iff.mp h
  exact v.canonical_isCanonical

/-- No value that is read is deeper than the limit. -/
theorem depth_of_ofText? (h : ofText? text = some v) : v.depth ≤ maxDepth := by
  obtain ⟨w, hw, rfl⟩ := Option.map_eq_some_iff.mp h
  obtain ⟨t, -, ht⟩ := Option.bind_eq_some_iff.mp hw
  exact Nat.le_trans (depth_canonical_le w) (Tree.depth_of_value? ht)

end Json

end TypedPaths

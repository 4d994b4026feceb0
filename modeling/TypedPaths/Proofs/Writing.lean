/-
TypedPaths/Proofs/Writing.lean

What a write changes.

Design.  A write changes one part of a value, that of its first segment, and leaves the other parts
as they are (`child?_update`); what it puts there is what the rest of the path writes into the part
that was there before.  In an array this rests on positions: different segments never stand for one
position, and an item put after the last one has a position that was free.

The value at any path after a write follows by induction on the segments of the write, in three
cases: the path goes on behind the segments, it stops before their end, or it leaves them.

Main results: `lookup?_update_append`, `lookup?_update_of_append`, `lookup?_update_of_not_prefix`,
`update_update`, and together `set_changes`.
-/
import TypedPaths.Data.Update
import TypedPaths.Proofs.Segment

namespace TypedPaths

namespace Json

variable {v u w w' c old : Json} {key : String} {trail ps qs rest : List String}

/-! ### The parts of a value -/

/-- An array of which one position has changed has another part for the segment of that position
alone. -/
theorem child?_array_of_index {items items' : List Json} {i : Nat} (hkey : Path.index? key = some i)
    (hsame : items'[i]? = some c) (hothers : ∀ j, j ≠ i → items'[j]? = items[j]?) (other : String) :
    (array items').child? other = if other = key then some c else (array items).child? other := by
  simp only [child?]
  by_cases hother : other = key
  · subst hother
    rw [if_pos rfl, hkey, Option.bind_some, hsame]
  · rw [if_neg hother]
    cases hindex : Path.index? other with
    | none => rfl
    | some j =>
      have hne : j ≠ i := fun hij => hother (Path.index?_inj hindex (hij ▸ hkey))
      exact hothers j hne

theorem child?_object_insert (fields : List (String × Json)) (other : String) :
    (object (Entries.insert key c fields)).child? other =
      if other = key then some c else (object fields).child? other := by
  simp only [child?]
  rw [Entries.find?_insert]
  by_cases hother : key = other
  · rw [if_pos hother, if_pos hother.symm]
  · rw [if_neg hother, if_neg (Ne.symm hother)]

theorem child?_array_set {items : List Json} {i : Nat} (hkey : Path.index? key = some i)
    (hi : i < items.length) (other : String) :
    (array (items.set i c)).child? other =
      if other = key then some c else (array items).child? other := by
  refine child?_array_of_index hkey (List.getElem?_set_self hi) ?_ other
  intro j hj
  exact List.getElem?_set_ne (Ne.symm hj)

theorem child?_array_append {items : List Json} (hkey : Path.index? key = some items.length)
    (other : String) :
    (array (items ++ [c])).child? other =
      if other = key then some c else (array items).child? other := by
  refine child?_array_of_index hkey List.getElem?_concat_length ?_ other
  intro j hj
  -- behind the new item there is nothing, before it are the old ones
  rcases Nat.lt_or_gt_of_ne hj with hlt | hgt
  · exact List.getElem?_append_left hlt
  · rw [List.getElem?_eq_none (by simp; omega), List.getElem?_eq_none (by omega)]

/-! ### One step of a write -/

/-- What a write to a single segment puts where. -/
theorem assign_eq_ok (h : assign trail key w v = .ok u) :
    (∃ fields, v = object fields ∧ u = object (Entries.insert key w fields)) ∨
    (∃ items i, v = array items ∧ Path.index? key = some i ∧
      (i < items.length ∧ u = array (items.set i w) ∨
        i = items.length ∧ u = array (items ++ [w]))) := by
  cases v with
  | object fields => exact .inl ⟨fields, rfl, (Except.ok.inj h).symm⟩
  | array items =>
    rw [assign] at h
    cases hkey : Path.index? key with
    | none => rw [hkey] at h; cases h
    | some i =>
      simp only [hkey] at h
      split at h
      · next hlt => exact .inr ⟨items, i, rfl, rfl, .inl ⟨hlt, (Except.ok.inj h).symm⟩⟩
      · split at h
        · next heq => exact .inr ⟨items, i, rfl, rfl, .inr ⟨heq, (Except.ok.inj h).symm⟩⟩
        · cases h
  | _ => cases h

/-- A write to a single segment changes the part of this segment and no other. -/
theorem child?_assign (h : assign trail key w v = .ok u) (other : String) :
    u.child? other = if other = key then some w else v.child? other := by
  obtain ⟨fields, rfl, rfl⟩ | ⟨items, i, rfl, hkey, ⟨hlt, rfl⟩ | ⟨rfl, rfl⟩⟩ := assign_eq_ok h
  · exact child?_object_insert fields other
  · exact child?_array_set hkey hlt other
  · exact child?_array_append hkey other

/-- To replace a part that is there is to write to its segment. -/
theorem assign_of_child? (trail : List String) (hold : v.child? key = some old) :
    assign trail key c v = .ok (v.withChild key c) := by
  cases v with
  | object fields => rfl
  | array items =>
    obtain ⟨i, hkey, hi⟩ := Option.bind_eq_some_iff.mp hold
    obtain ⟨hlt, -⟩ := List.getElem?_eq_some_iff.mp hi
    simp only [assign, withChild, hkey, if_pos hlt]
  | _ => cases hold

theorem isContainer_of_child? (hold : v.child? key = some old) :
    (DataKind.of v).isContainer = true := by
  cases v with
  | object _ | array _ => rfl
  | _ => cases hold

/-- A write to more than one segment is a write into the part that the first one names. -/
theorem update_of_child? (hrest : rest ≠ []) (hold : v.child? key = some old) :
    update w trail (key :: rest) v =
      (update w (trail ++ [key]) rest old).map fun c => v.withChild key c := by
  obtain ⟨next, rest, rfl⟩ := List.exists_cons_of_ne_nil hrest
  rw [update, if_pos (isContainer_of_child? hold), hold]

/-- A write to more than one segment succeeds if the first one names a part, and the rest can be
written into it. -/
theorem update_cons_eq_ok_iff (hrest : rest ≠ []) :
    update w trail (key :: rest) v = .ok u ↔
      ∃ old c, v.child? key = some old ∧ update w (trail ++ [key]) rest old = .ok c ∧
        u = v.withChild key c := by
  cases hold : v.child? key with
  | none =>
    obtain ⟨next, rest, rfl⟩ := List.exists_cons_of_ne_nil hrest
    rw [update, hold]
    split <;> simp
  | some old =>
    rw [update_of_child? hrest hold]
    cases hc : update w (trail ++ [key]) rest old with
    | error e => simp [hc, Except.map]
    | ok c => simp [hc, Except.map, eq_comm]

/-- A write is a write to its first segment: of the value itself, or of what the rest of the path
makes of the part that is there. -/
theorem assign_of_update (h : update w trail (key :: rest) v = .ok u) :
    ∃ c, assign trail key c v = .ok u ∧
      (rest = [] ∧ c = w ∨
        ∃ old, v.child? key = some old ∧ update w (trail ++ [key]) rest old = .ok c) := by
  by_cases hrest : rest = []
  · subst hrest
    exact ⟨w, h, .inl ⟨rfl, rfl⟩⟩
  · obtain ⟨old, c, hold, hc, rfl⟩ := (update_cons_eq_ok_iff hrest).mp h
    exact ⟨c, assign_of_child? trail hold, .inr ⟨old, hold, hc⟩⟩

/-- The value that a write puts under its first segment: it is what the rest of the path writes into
the part that was there, and the other parts stay. -/
theorem child?_update (h : update w trail (key :: rest) v = .ok u) :
    ∃ c, (∀ other, u.child? other = if other = key then some c else v.child? other) ∧
      (rest = [] ∧ c = w ∨
        ∃ old, v.child? key = some old ∧ update w (trail ++ [key]) rest old = .ok c) := by
  obtain ⟨c, hassign, hc⟩ := assign_of_update h
  exact ⟨c, child?_assign hassign, hc⟩

/-! ### Where a write starts -/

theorem update_nil : update w trail [] v ≠ .ok u := by
  intro h
  cases h

theorem assign_of_trail (trail' : List String) (h : assign trail key w v = .ok u) :
    assign trail' key w v = .ok u := by
  obtain ⟨fields, rfl, rfl⟩ | ⟨items, i, rfl, hkey, hcases⟩ := assign_eq_ok h
  · rfl
  · rw [assign, hkey]
    dsimp only
    obtain ⟨hlt, rfl⟩ | ⟨rfl, rfl⟩ := hcases
    · rw [if_pos hlt]
    · rw [if_neg (Nat.lt_irrefl _), if_pos rfl]

/-- The place where a write starts is named in its failures alone. -/
theorem update_of_trail (trail' : List String) (h : update w trail ps v = .ok u) :
    update w trail' ps v = .ok u := by
  induction ps generalizing trail trail' v u with
  | nil => exact absurd h update_nil
  | cons key rest ih =>
    by_cases hrest : rest = []
    · subst hrest
      exact assign_of_trail trail' h
    · obtain ⟨old, c, hold, hc, hu⟩ := (update_cons_eq_ok_iff hrest).mp h
      exact (update_cons_eq_ok_iff hrest).mpr ⟨old, c, hold, ih (trail' ++ [key]) hc, hu⟩

/-! ### The value at any path after a write -/

/-- At the end of a write stands the value written. -/
theorem lookup?_update (h : update w trail ps v = .ok u) : lookup? ps u = some w := by
  induction ps generalizing trail v u with
  | nil => exact absurd h update_nil
  | cons key rest ih =>
    obtain ⟨c, hchild, hrest⟩ := child?_update h
    rw [lookup?, hchild key, if_pos rfl, Option.bind_some]
    rcases hrest with ⟨rfl, rfl⟩ | ⟨old, -, hc⟩
    · rfl
    · exact ih hc

/-- Behind the segments of a write stand the parts of the value written. -/
theorem lookup?_update_append (h : update w trail ps v = .ok u) (qs : List String) :
    lookup? (ps ++ qs) u = lookup? qs w := by
  rw [lookup_append, lookup?_update h, Option.bind_some]

/-- Before the end of a write stands what was there, with the rest of the path written into it. -/
theorem lookup?_update_of_append (h : update w trail (qs ++ rest) v = .ok u) (hrest : rest ≠ []) :
    ∃ x y, lookup? qs v = some x ∧ update w (trail ++ qs) rest x = .ok y ∧
      lookup? qs u = some y := by
  induction qs generalizing trail v u with
  | nil => exact ⟨v, u, rfl, by simpa using h, rfl⟩
  | cons key qs ih =>
    obtain ⟨c, hchild, hstep⟩ := child?_update h
    rcases hstep with ⟨hnil, -⟩ | ⟨old, hold, hc⟩
    · exact absurd (List.append_eq_nil_iff.mp hnil).2 hrest
    · obtain ⟨x, y, hx, hy, hu⟩ := ih hc
      refine ⟨x, y, ?_, by simpa using hy, ?_⟩
      · rw [lookup?, hold, Option.bind_some, hx]
      · rw [lookup?, hchild key, if_pos rfl, Option.bind_some, hu]

/-- A path that leaves the segments of a write leads to what was there. -/
theorem lookup?_update_of_not_prefix (h : update w trail ps v = .ok u) (hps : ¬ ps <+: qs)
    (hqs : ¬ qs <+: ps) : lookup? qs u = lookup? qs v := by
  induction ps generalizing trail v u qs with
  | nil => exact absurd h update_nil
  | cons key rest ih =>
    cases qs with
    | nil => exact absurd List.nil_prefix hqs
    | cons q qs =>
      obtain ⟨c, hchild, hstep⟩ := child?_update h
      rw [lookup?, lookup?, hchild q]
      by_cases hq : q = key
      · subst hq
        rw [List.cons_prefix_cons, not_and] at hps hqs
        rcases hstep with ⟨rfl, -⟩ | ⟨old, hold, hc⟩
        · exact absurd List.nil_prefix (hps rfl)
        · rw [if_pos rfl, hold, Option.bind_some, Option.bind_some]
          exact ih hc (hps rfl) (hqs rfl)
      · rw [if_neg hq]

/-! ### Writing twice -/

theorem withChild_withChild (v c d : Json) (key : String) :
    (v.withChild key c).withChild key d = v.withChild key d := by
  cases v with
  | object fields => simp [withChild, Entries.insert_insert]
  | array items =>
    unfold withChild
    cases hkey : Path.index? key <;> simp
  | _ => rfl

theorem assign_assign (h : assign trail key w v = .ok u) :
    assign trail key w' u = assign trail key w' v := by
  obtain ⟨fields, rfl, rfl⟩ | ⟨items, i, rfl, hkey, ⟨hlt, rfl⟩ | ⟨rfl, rfl⟩⟩ := assign_eq_ok h
  · rw [assign, assign, Entries.insert_insert]
  · simp [assign, hkey, hlt]
  · -- the position after the last item has become that of the last
    simp [assign, hkey]

/-- The second of two writes to one path leaves nothing of the first. -/
theorem update_update (h : update w trail ps v = .ok u) :
    update w' trail ps u = update w' trail ps v := by
  induction ps generalizing trail v u with
  | nil => exact absurd h update_nil
  | cons key rest ih =>
    by_cases hrest : rest = []
    · subst hrest
      exact assign_assign h
    · obtain ⟨old, c, hold, hc, rfl⟩ := (update_cons_eq_ok_iff hrest).mp h
      have hchild : (v.withChild key c).child? key = some c := by
        rw [child?_assign (assign_of_child? trail hold), if_pos rfl]
      rw [update_of_child? hrest hold, update_of_child? hrest hchild, ih hc]
      simp only [withChild_withChild]

/-! ### Writing at a path -/

/-- What has been written is read back. -/
theorem get?_of_set {data written value : Json} {path : String}
    (h : data.set path value = .ok written) : written.get? path = some value :=
  lookup?_update h

/-- A write leaves behind its path the value written, before the end of the path what was there with
the rest of the path written into it, and anywhere else what was there.  So the value written is read
back, and a second write to the path is as if there had been no first one. -/
theorem set_changes {data written value : Json} {path : String}
    (h : data.set path value = .ok written) :
    (∀ qs, lookup? (Path.segments path ++ qs) written = lookup? qs value) ∧
    (∀ qs rest, Path.segments path = qs ++ rest → rest ≠ [] →
      ∃ old part, lookup? qs data = some old ∧ update value [] rest old = .ok part ∧
        lookup? qs written = some part) ∧
    (∀ qs, ¬ Path.segments path <+: qs → ¬ qs <+: Path.segments path →
      lookup? qs written = lookup? qs data) ∧
    written.get? path = some value ∧
    ∀ other, written.set path other = data.set path other := by
  refine ⟨lookup?_update_append h, ?_, fun qs => lookup?_update_of_not_prefix h, get?_of_set h,
    fun other => update_update h⟩
  intro qs rest hpath hrest
  unfold set at h
  rw [hpath] at h
  obtain ⟨old, part, hold, hpart, hwritten⟩ := lookup?_update_of_append h hrest
  exact ⟨old, part, hold, update_of_trail [] hpart, hwritten⟩

/-- An item is put behind the only one. -/
theorem set_changes_appended :
    set (.object [("a", .array [.null]), ("b", .bool true)]) "a.1" (.string "x") =
      .ok (.object [("a", .array [.null, .string "x"]), ("b", .bool true)]) ∧
    get? (.object [("a", .array [.null, .string "x"]), ("b", .bool true)]) "a.1" =
      some (.string "x") ∧
    lookup? ["a", "0"] (.object [("a", .array [.null, .string "x"]), ("b", .bool true)]) =
      lookup? ["a", "0"] (.object [("a", .array [.null]), ("b", .bool true)]) := by
  have hset : set (.object [("a", .array [.null]), ("b", .bool true)]) "a.1" (.string "x") =
      .ok (.object [("a", .array [.null, .string "x"]), ("b", .bool true)]) := by decide
  obtain ⟨-, -, hothers, hback, -⟩ := set_changes hset
  exact ⟨hset, hback, hothers ["a", "0"] (by decide) (by decide)⟩

end Json

end TypedPaths

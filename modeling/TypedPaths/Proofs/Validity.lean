/-
TypedPaths/Proofs/Validity.lean

What validation decides.

Design.  Validation follows references and unions with a list of the names that are being visited,
and gives up on a name that is in the list.  What is decided that way is said here without lists
and steps: which names a shape mentions at all (`Shape.Mentions`), which of them it mentions at its
head, where only unions are in between (`Shape.MentionsAtHead`), and the graph on the names in which
a name leads to those that its definition mentions at its head (`Schema.HeadEdge`).

One direction is an induction along references: below a name that has been checked there is no
infinite way in that graph, so no cycle.  In the other direction the list of visited names is always
a way in the graph (`Schema.Way`).  If there is no cycle, the next name is not in the list, and since
a way visits each name at most once there are as many steps as it can need.

In a valid schema, a reference stands for what its definition stands for (`deref_ref`).

Main results: `validate_eq_ok_iff`, `deref_eq_ok_iff`, `deref_ref`.
-/
import TypedPaths.Proofs.Expansion
import Mathlib.Data.List.Perm.Subperm
import Mathlib.Logic.Relation
import Mathlib.Order.WellFounded

namespace TypedPaths

open Relation

/-! ### Names in a shape -/

namespace Shape

variable {n : String} {s t : Shape}

/-- The shapes that a shape is directly made of. -/
def parts : Shape → List Shape
  | array s _ => [s]
  | tuple ss _ => ss
  | record i => [i.value]
  | struct fs i => fs.map Field.shape ++ (i.map IndexSignature.value).toList
  | union ss => ss
  | _ => []

/-- The shape refers to the name, at whatever depth. -/
inductive Mentions (n : String) : Shape → Prop
  | ref : Mentions n (.ref n)
  | part {s t : Shape} : t ∈ s.parts → Mentions n t → Mentions n s

/-- The shape refers to the name where nothing but unions is around the reference. -/
inductive MentionsAtHead (n : String) : Shape → Prop
  | ref : MentionsAtHead n (.ref n)
  | member {ss : List Shape} {s : Shape} : s ∈ ss → MentionsAtHead n s → MentionsAtHead n (.union ss)

theorem sizeOf_lt_of_mem_parts (h : t ∈ s.parts) : sizeOf t < sizeOf s := by
  cases s with
  | array s r =>
    rw [List.mem_singleton.mp h, array.sizeOf_spec]
    omega
  | tuple ss r =>
    have hlt : sizeOf t < sizeOf ss := List.sizeOf_lt_of_mem h
    rw [tuple.sizeOf_spec]
    omega
  | record i =>
    obtain ⟨keys, value, readonly⟩ := i
    rw [List.mem_singleton.mp h, record.sizeOf_spec, IndexSignature.mk.sizeOf_spec]
    dsimp only
    omega
  | struct fs i =>
    rw [struct.sizeOf_spec]
    rcases List.mem_append.mp h with h | h
    · obtain ⟨⟨name, shape, optional, readonly, symbol⟩, hf, rfl⟩ := List.mem_map.mp h
      have hlt := List.sizeOf_lt_of_mem hf
      rw [Field.mk.sizeOf_spec] at hlt
      dsimp only
      omega
    · obtain ⟨⟨keys, value, readonly⟩, rfl, rfl⟩ :=
        Option.map_eq_some_iff.mp (Option.mem_toList.mp h)
      rw [Option.some.sizeOf_spec, IndexSignature.mk.sizeOf_spec]
      dsimp only
      omega
  | union ss =>
    have hlt : sizeOf t < sizeOf ss := List.sizeOf_lt_of_mem h
    rw [union.sizeOf_spec]
    omega
  | _ => cases h

/-- Induction on the parts of a shape. -/
theorem partsInduction {P : Shape → Prop} (step : ∀ s, (∀ t ∈ s.parts, P t) → P s) (s : Shape) :
    P s :=
  step s fun t _ => partsInduction step t
termination_by sizeOf s
decreasing_by exact sizeOf_lt_of_mem_parts ‹_›

theorem refsList_eq_flatMap (ss : List Shape) : refsList ss = ss.flatMap refs := by
  induction ss with
  | nil => rfl
  | cons s ss ih => rw [refsList, ih, List.flatMap_cons]

theorem refsFields_eq_flatMap (fs : List (Field Shape)) :
    refsFields fs = (fs.map Field.shape).flatMap refs := by
  induction fs with
  | nil => rfl
  | cons f fs ih =>
    obtain ⟨name, shape, optional, readonly, symbol⟩ := f
    rw [refsFields, ih, List.map_cons, List.flatMap_cons]

/-- But for a reference, the names in a shape are those in its parts. -/
theorem refs_eq_flatMap (hs : ∀ n, s ≠ ref n) : s.refs = s.parts.flatMap refs := by
  cases s with
  | ref n => exact absurd rfl (hs n)
  | array s r => simp [refs, parts]
  | tuple ss r => rw [refs, parts, refsList_eq_flatMap]
  | record i =>
    obtain ⟨keys, value, readonly⟩ := i
    simp [refs, refsIndex, parts]
  | struct fs i =>
    rw [refs, parts, List.flatMap_append, refsFields_eq_flatMap]
    rcases i with - | ⟨keys, value, readonly⟩ <;> simp [refsIndex?, refsIndex]
  | union ss => rw [refs, parts, refsList_eq_flatMap]
  | _ => rfl

theorem mentions_ref_iff {m : String} : (ref m).Mentions n ↔ n = m := by
  constructor
  · intro h
    cases h with
    | ref => rfl
    | part ht => cases ht
  · rintro rfl
    exact .ref

theorem mentions_iff_exists_part (hs : ∀ n, s ≠ ref n) :
    s.Mentions n ↔ ∃ t ∈ s.parts, t.Mentions n := by
  constructor
  · intro h
    cases h with
    | ref => exact absurd rfl (hs n)
    | part ht h => exact ⟨_, ht, h⟩
  · rintro ⟨t, ht, h⟩
    exact .part ht h

/-- The names that are collected from a shape are those that it mentions. -/
theorem mem_refs_iff : n ∈ s.refs ↔ s.Mentions n := by
  induction s using partsInduction with
  | step s ih =>
    by_cases hs : ∃ m, s = ref m
    · obtain ⟨m, rfl⟩ := hs
      rw [refs, List.mem_singleton, mentions_ref_iff]
    · have hs : ∀ m, s ≠ ref m := fun m h => hs ⟨m, h⟩
      rw [refs_eq_flatMap hs, List.mem_flatMap, mentions_iff_exists_part hs]
      exact exists_congr fun t => and_congr_right fun ht => ih t ht

/-- The names that are collected at the head of a shape are those that it mentions there. -/
theorem mem_headRefs_iff : n ∈ s.headRefs ↔ s.MentionsAtHead n := by
  induction s using headInduction with
  | concrete s hs =>
    refine iff_of_false (fun h => ?_) (fun h => ?_)
    · cases s <;> first | exact hs | cases h
    · cases h <;> exact hs
  | ref m =>
    rw [headRefs, List.mem_singleton]
    constructor
    · rintro rfl
      exact .ref
    · intro h
      cases h
      rfl
  | union ss ih =>
    rw [headRefs, headRefsList_eq_flatMap, List.mem_flatMap]
    constructor
    · rintro ⟨s, hs, h⟩
      exact .member hs ((ih s hs).mp h)
    · intro h
      cases h with
      | member hs h => exact ⟨_, hs, (ih _ hs).mpr h⟩

theorem MentionsAtHead.mentions (h : s.MentionsAtHead n) : s.Mentions n := by
  induction h with
  | ref => exact .ref
  | member hs _ ih => exact .part (s := .union _) hs ih

end Shape

namespace Schema

open Shape

variable {S : Schema} {m n : String} {s t : Shape}

/-! ### The graph of the names -/

/-- The definition of the first name mentions the second at its head. -/
def HeadEdge (S : Schema) (m n : String) : Prop :=
  ∃ s, S.definitions.find? m = some s ∧ s.MentionsAtHead n

/-- Every name that occurs in the schema has a definition. -/
def Closed (S : Schema) : Prop :=
  ∀ s ∈ S.shapes, ∀ n, s.Mentions n → ∃ t, S.definitions.find? n = some t

theorem mem_shapes_of_find? (h : S.definitions.find? n = some s) : s ∈ S.shapes :=
  List.mem_cons_of_mem _ (List.mem_map.mpr ⟨(n, s), SortedMap.find?_eq_some_iff.mp h, rfl⟩)

/-- In a valid schema there is no infinite way through the graph. -/
theorem Valid.wellFounded (hS : S.Valid) : WellFounded fun n m => S.HeadEdge m n := by
  have hacc : ∀ s : Shape, ∀ n, s.MentionsAtHead n → Acc (fun n m => S.HeadEdge m n) n := by
    intro s
    induction s using hS.induction with
    | concrete s hs =>
      intro n h
      cases h <;> exact hs.elim
    | union ss ih =>
      intro n h
      cases h with
      | member hs h => exact ih _ hs n h
    | ref m s hm ih =>
      intro n h
      cases h
      refine ⟨_, fun k hk => ?_⟩
      obtain ⟨t, ht, hk⟩ := hk
      obtain rfl := Option.some.inj (hm.symm.trans ht)
      exact ih k hk
    | dangling m hm =>
      intro n h
      cases h
      refine ⟨_, fun k hk => ?_⟩
      obtain ⟨t, ht, -⟩ := hk
      cases hm.symm.trans ht
  exact ⟨fun n => hacc (.ref n) n .ref⟩

/-- In a valid schema no name comes back to itself. -/
theorem Valid.acyclic (hS : S.Valid) (n : String) : ¬ TransGen S.HeadEdge n n := by
  intro h
  have hback : TransGen (fun n m => S.HeadEdge m n) n n := transGen_swap.mpr h
  exact hS.wellFounded.transGen.irrefl.irrefl n hback

/-! ### Following references -/

/-- What a shape stands for once references are followed. -/
inductive StandsFor (S : Schema) : Shape → Shape → Prop
  | self {s : Shape} : (∀ n, s ≠ .ref n) → StandsFor S s s
  | ref {n : String} {s t : Shape} :
      S.definitions.find? n = some s → StandsFor S s t → StandsFor S (.ref n) t

/-- A shape stands for one shape at most. -/
theorem StandsFor.unique {u : Shape} (h : S.StandsFor s t) (h' : S.StandsFor s u) : t = u := by
  induction h with
  | self hs =>
    cases h' with
    | self => rfl
    | ref => exact absurd rfl (hs _)
  | ref hn _ ih =>
    cases h' with
    | self hs => exact absurd rfl (hs _)
    | ref hm h' =>
      obtain rfl := Option.some.inj (hn.symm.trans hm)
      exact ih h'

theorem derefWithin_of_ne {steps : Nat} {seen : List String} (hs : ∀ n, s ≠ .ref n) :
    S.derefWithin steps seen s = .ok s := by
  cases s with
  | ref n => exact absurd rfl (hs n)
  | _ => simp only [derefWithin]

/-- A reference is followed with a step, over a name that has not been seen. -/
theorem derefWithin_ref_eq_ok_iff {steps : Nat} {seen : List String} :
    S.derefWithin steps seen (.ref n) = .ok t ↔
      n ∉ seen ∧ ∃ k s, steps = k + 1 ∧ S.definitions.find? n = some s ∧
        S.derefWithin k (n :: seen) s = .ok t := by
  conv => lhs; lhs; unfold derefWithin
  by_cases hseen : n ∈ seen
  · rw [if_pos hseen]
    exact iff_of_false nofun fun h => h.1 hseen
  · rw [if_neg hseen, and_iff_right hseen]
    split
    · next k s hs =>
      constructor
      · intro h
        exact ⟨k, s, rfl, hs, h⟩
      · rintro ⟨_, _, hk, hs', h⟩
        cases hk
        obtain rfl := Option.some.inj (hs.symm.trans hs')
        exact h
    · next hne =>
      refine iff_of_false nofun ?_
      rintro ⟨k, s, rfl, hs, -⟩
      exact hne k s rfl hs

/-- References are followed to what the shape stands for. -/
theorem standsFor_of_derefWithin {steps : Nat} {seen : List String}
    (h : S.derefWithin steps seen s = .ok t) : S.StandsFor s t := by
  induction steps generalizing seen s with
  | zero =>
    by_cases hs : ∃ n, s = .ref n
    · obtain ⟨n, rfl⟩ := hs
      obtain ⟨-, k, s, hk, -⟩ := derefWithin_ref_eq_ok_iff.mp h
      cases hk
    · have hs : ∀ n, s ≠ .ref n := fun n h => hs ⟨n, h⟩
      rw [derefWithin_of_ne hs] at h
      cases h
      exact .self hs
  | succ steps ih =>
    by_cases hs : ∃ n, s = .ref n
    · obtain ⟨n, rfl⟩ := hs
      obtain ⟨-, k, s, hk, hn, h⟩ := derefWithin_ref_eq_ok_iff.mp h
      cases hk
      exact .ref hn (ih h)
    · have hs : ∀ n, s ≠ .ref n := fun n h => hs ⟨n, h⟩
      rw [derefWithin_of_ne hs] at h
      cases h
      exact .self hs

/-! ### Ways through the graph -/

/-- Names that are visited once each, and lead to all the names that may come next. -/
structure Way (S : Schema) (visited next : List String) : Prop where
  nodup : visited.Nodup
  visited_defined : ∀ m ∈ visited, ∃ s, S.definitions.find? m = some s
  next_defined : ∀ n ∈ next, ∃ s, S.definitions.find? n = some s
  leads : ∀ m ∈ visited, ∀ n ∈ next, TransGen S.HeadEdge m n

theorem way_nil {next : List String} (h : ∀ n ∈ next, ∃ s, S.definitions.find? n = some s) :
    S.Way [] next where
  nodup := List.nodup_nil
  visited_defined := nofun
  next_defined := h
  leads := nofun

theorem Closed.headRefs (hclosed : S.Closed) (hs : s ∈ S.shapes) :
    ∀ n ∈ s.headRefs, ∃ t, S.definitions.find? n = some t :=
  fun n hn => hclosed s hs n (mem_headRefs_iff.mp hn).mentions

section

variable {visited next : List String} {steps : Nat} (hclosed : S.Closed)
  (hacyclic : ∀ n, ¬ TransGen S.HeadEdge n n)

include hacyclic

/-- Without cycles, a way does not come back to a name. -/
theorem Way.not_mem (h : S.Way visited next) (hn : n ∈ next) : n ∉ visited :=
  fun hv => hacyclic n (h.leads n hv n hn)

/-- Before its next name, a way has visited less names than there are. -/
theorem Way.length_lt (h : S.Way visited next) (hn : n ∈ next) :
    visited.length < S.definitions.size := by
  have hnodup : (n :: visited).Nodup := List.nodup_cons.mpr ⟨h.not_mem hacyclic hn, h.nodup⟩
  have hsubset : n :: visited ⊆ S.definitions.names := by
    have hdefined : ∀ m ∈ n :: visited, ∃ s, S.definitions.find? m = some s :=
      List.forall_mem_cons.mpr ⟨h.next_defined n hn, h.visited_defined⟩
    intro m hm
    obtain ⟨s, hs⟩ := hdefined m hm
    rw [← SortedMap.find?_isSome_iff, hs]
    rfl
  have hlength : (n :: visited).length ≤ S.definitions.names.length :=
    (hnodup.subperm hsubset).length_le
  rw [SortedMap.names, List.length_map] at hlength
  exact hlength

include hclosed

/-- A way goes on to the names at the head of the next definition. -/
theorem Way.cons (h : S.Way visited next) (hn : n ∈ next) (hs : S.definitions.find? n = some s) :
    S.Way (n :: visited) s.headRefs where
  nodup := List.nodup_cons.mpr ⟨h.not_mem hacyclic hn, h.nodup⟩
  visited_defined := List.forall_mem_cons.mpr ⟨⟨s, hs⟩, h.visited_defined⟩
  next_defined := hclosed.headRefs (mem_shapes_of_find? hs)
  leads := by
    rw [List.forall_mem_cons]
    refine ⟨fun k hk => .single ⟨s, hs, mem_headRefs_iff.mp hk⟩, fun m hm k hk => ?_⟩
    exact (h.leads m hm n hn).tail ⟨s, hs, mem_headRefs_iff.mp hk⟩

/-- Along a way, as many steps as there are names that it has not visited are enough. -/
theorem exists_derefWithin (h : S.Way visited s.headRefs)
    (hsteps : S.definitions.size ≤ steps + visited.length) :
    ∃ t, S.derefWithin steps visited s = .ok t := by
  induction steps generalizing visited s with
  | zero =>
    by_cases hs : ∃ n, s = .ref n
    · obtain ⟨n, rfl⟩ := hs
      have hlength := h.length_lt hacyclic List.mem_cons_self
      omega
    · exact ⟨s, derefWithin_of_ne fun n h => hs ⟨n, h⟩⟩
  | succ steps ih =>
    by_cases hs : ∃ n, s = .ref n
    · obtain ⟨n, rfl⟩ := hs
      have hn : n ∈ (ref n).headRefs := List.mem_cons_self
      obtain ⟨u, hu⟩ := h.next_defined n hn
      obtain ⟨t, ht⟩ := ih (h.cons hclosed hacyclic hn hu) (by rw [List.length_cons]; omega)
      exact ⟨t, derefWithin_ref_eq_ok_iff.mpr ⟨h.not_mem hacyclic hn, steps, u, rfl, hu, ht⟩⟩
    · exact ⟨s, derefWithin_of_ne fun n h => hs ⟨n, h⟩⟩

/-- Where there are no cycles, the check for cycles passes along every way, with a step for each
name that has not been visited. -/
theorem checkCyclesWithin_eq_ok (h : S.Way visited next)
    (hsteps : S.definitions.size ≤ steps + visited.length) :
    S.checkCyclesWithin steps visited next = .ok () := by
  induction steps generalizing visited next with
  | zero =>
    rw [checkCyclesWithin, forM_eq_ok_iff]
    intro n hn
    have hlength := h.length_lt hacyclic hn
    omega
  | succ steps ih =>
    rw [checkCyclesWithin, forM_eq_ok_iff]
    intro n hn
    obtain ⟨s, hs⟩ := h.next_defined n hn
    rw [if_neg (h.not_mem hacyclic hn), hs]
    exact ih (h.cons hclosed hacyclic hn hs) (by rw [List.length_cons]; omega)

end

/-! ### Validation -/

theorem discard_eq_ok_iff {α : Type} {x : Except Error α} :
    discard x = .ok () ↔ ∃ a, x = .ok a := by
  cases x with
  | error e => exact iff_of_false nofun nofun
  | ok a => exact iff_of_true rfl ⟨a, rfl⟩

theorem valid_iff_checks : S.Valid ↔
    (∀ s ∈ S.shapes, ∀ n ∈ s.refs, ∃ t, S.deref (.ref n) = .ok t) ∧
      ∀ s ∈ S.shapes, S.checkCycles s = .ok () := by
  have hrefs : ((S.shapes.flatMap Shape.refs).forM fun name => discard (S.deref (.ref name))) =
      .ok () ↔ ∀ s ∈ S.shapes, ∀ n ∈ s.refs, ∃ t, S.deref (.ref n) = .ok t := by
    simp only [forM_eq_ok_iff, List.forall_mem_flatMap, discard_eq_ok_iff]
  rw [← hrefs, ← forM_eq_ok_iff]
  unfold Valid validate
  cases (S.shapes.flatMap Shape.refs).forM fun name => discard (S.deref (.ref name)) with
  | error e => exact iff_of_false nofun fun h => nomatch h.1
  | ok => exact ⟨fun h => ⟨rfl, h⟩, fun h => h.2⟩

theorem Valid.closed (hS : S.Valid) : S.Closed := by
  intro s hs n hn
  obtain ⟨t, ht⟩ := (valid_iff_checks.mp hS).1 s hs n (mem_refs_iff.mpr hn)
  obtain ⟨-, k, u, -, hu, -⟩ := derefWithin_ref_eq_ok_iff.mp ht
  exact ⟨u, hu⟩

/-- A schema passes validation if and only if every name that occurs in it has a definition, and no
name leads back to itself in the graph of the names. -/
theorem validate_eq_ok_iff : S.validate = .ok () ↔
    (∀ s ∈ S.shapes, ∀ n, s.Mentions n → ∃ t, S.definitions.find? n = some t) ∧
      ∀ n, ¬ TransGen S.HeadEdge n n := by
  constructor
  · intro hvalidate
    have hS : S.Valid := hvalidate
    exact ⟨hS.closed, hS.acyclic⟩
  · rintro ⟨hclosed, hacyclic⟩
    refine valid_iff_checks.mpr ⟨fun s hs n hn => ?_, fun s hs => ?_⟩
    · have hway : S.Way [] (ref n).headRefs := by
        apply way_nil
        intro m hm
        obtain rfl := List.mem_singleton.mp hm
        exact hclosed s hs m (mem_refs_iff.mp hn)
      exact exists_derefWithin hclosed hacyclic hway (Nat.le_refl _)
    · have hway : S.Way [] s.headRefs := way_nil (Closed.headRefs hclosed hs)
      exact checkCyclesWithin_eq_ok hclosed hacyclic hway (Nat.le_refl _)

/-! ### References in a valid schema -/

/-- A reference to a name with a definition, and any other shape, leads somewhere. -/
theorem Valid.exists_deref (hS : S.Valid)
    (h : ∀ n, s = .ref n → ∃ t, S.definitions.find? n = some t) : ∃ t, S.deref s = .ok t := by
  by_cases hs : ∃ n, s = .ref n
  · obtain ⟨n, rfl⟩ := hs
    have hway : S.Way [] (ref n).headRefs := by
      apply way_nil
      intro m hm
      obtain rfl := List.mem_singleton.mp hm
      exact h m rfl
    exact exists_derefWithin hS.closed hS.acyclic hway (Nat.le_refl _)
  · exact ⟨s, derefWithin_of_ne fun n h => hs ⟨n, h⟩⟩

/-- In a valid schema, references are followed exactly to what a shape stands for. -/
theorem deref_eq_ok_iff (hS : S.Valid) : S.deref s = .ok t ↔ S.StandsFor s t := by
  refine ⟨standsFor_of_derefWithin, fun h => ?_⟩
  have hdefined : ∀ n, s = .ref n → ∃ t, S.definitions.find? n = some t := by
    rintro n rfl
    cases h with
    | self hs => exact absurd rfl (hs n)
    | ref hn _ => exact ⟨_, hn⟩
  obtain ⟨u, hu⟩ := hS.exists_deref hdefined
  rw [hu, (standsFor_of_derefWithin hu).unique h]

/-- A reference leads to where its definition leads. -/
theorem deref_ref (hS : S.Valid) (hn : S.definitions.find? n = some s) :
    S.deref (.ref n) = S.deref s := by
  have hdefined : ∀ m, s = .ref m → ∃ t, S.definitions.find? m = some t := by
    rintro m rfl
    exact hS.closed.headRefs (mem_shapes_of_find? hn) m List.mem_cons_self
  obtain ⟨t, ht⟩ := hS.exists_deref hdefined
  have hstands : S.StandsFor s t := standsFor_of_derefWithin ht
  rw [ht, deref_eq_ok_iff hS]
  exact .ref hn hstands

end Schema

end TypedPaths

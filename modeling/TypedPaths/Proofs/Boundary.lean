/-
TypedPaths/Proofs/Boundary.lean

Where the parts of a text end.

Design.  A text that is made of parts is read from the left, so a part must tell where it ends
whatever comes behind it.  It does if what may come behind begins with a character that cannot go on
with it (`StopsAt`).  A part that also tells what it is the text of (`Tells`) can then be taken off,
and the rest of the text is read in the same way: copies of a block are counted, a word is taken as
far as its letters go, and an enumeration part by part, for what may follow a part is its separator
or what may follow the whole.

Main results: `copies_append_inj`, `letters_append_inj`, `tells_intercalate`.
-/
import Mathlib.Data.List.Basic

namespace TypedPaths

variable {α β : Type} {stops inner outer cs u v x y : List Char} {c : Char} {m n : Nat}

/-- There is nothing, or one of these characters comes first. -/
def StopsAt (stops cs : List Char) : Prop := ∀ c ∈ cs.head?, c ∈ stops

theorem stopsAt_nil (stops : List Char) : StopsAt stops [] := fun _ h => nomatch h

/-- Where a text goes on, its first character decides. -/
theorem stopsAt_cons_iff : StopsAt stops (c :: cs) ↔ c ∈ stops := by
  simp [StopsAt]

theorem StopsAt.mono (h : StopsAt inner cs) (hsub : inner ⊆ outer) : StopsAt outer cs :=
  fun c hc => hsub (h c hc)

/-! ### Copies of a block -/

/-- So many copies of a block, one after the other. -/
def copies (n : Nat) (block : List Char) : List Char := (List.replicate n block).flatten

theorem copies_zero (block : List Char) : copies 0 block = [] := rfl

theorem copies_one (block : List Char) : copies 1 block = block := List.flatten_singleton

theorem copies_succ (n : Nat) (block : List Char) :
    copies (n + 1) block = block ++ copies n block := by
  rw [copies, List.replicate_succ, List.flatten_cons, copies]

/-- Copies can be counted in two parts. -/
theorem copies_add (m n : Nat) (block : List Char) :
    copies (m + n) block = copies m block ++ copies n block := by
  rw [copies, ← List.replicate_append_replicate, List.flatten_append, copies, copies]

/-- Copies of a block are counted if something else begins behind them. -/
theorem copies_append_inj (hx : c ∉ x.head?) (hy : c ∉ y.head?)
    (h : copies m (c :: cs) ++ x = copies n (c :: cs) ++ y) : m = n ∧ x = y := by
  induction m generalizing n with
  | zero =>
    cases n with
    | zero => exact ⟨rfl, h⟩
    | succ n =>
      rw [copies_succ] at h
      exact absurd (congrArg List.head? h) (by simpa [copies_zero] using hx)
  | succ m ih =>
    cases n with
    | zero =>
      rw [copies_succ] at h
      exact absurd (congrArg List.head? h).symm (by simpa [copies_zero] using hy)
    | succ n =>
      rw [copies_succ, copies_succ, List.append_assoc, List.append_assoc] at h
      obtain ⟨rfl, hrest⟩ := ih (List.append_cancel_left h)
      exact ⟨rfl, hrest⟩

/-! ### Words -/

/-- A word ends where its letters do. -/
theorem letters_append_inj {p : Char → Bool} (hu : ∀ c ∈ u, p c) (hv : ∀ c ∈ v, p c)
    (hx : ∀ c ∈ x.head?, ¬ p c) (hy : ∀ c ∈ y.head?, ¬ p c) (h : u ++ x = v ++ y) :
    u = v ∧ x = y := by
  have hnone : ∀ {z : List Char}, (∀ c ∈ z.head?, ¬ p c) → z.takeWhile p = [] := by
    intro z hz
    cases z with
    | nil => rfl
    | cons c z => exact List.takeWhile_cons_of_neg (hz c rfl)
  have hword := congrArg (List.takeWhile p) h
  rw [List.takeWhile_append_of_pos hu, List.takeWhile_append_of_pos hv, hnone hx, hnone hy,
    List.append_nil, List.append_nil] at hword
  subst hword
  exact ⟨rfl, List.append_cancel_left h⟩

/-! ### Enumerations -/

/-- With whatever may follow, the texts of the two are the same only if the two are the same by `g`,
and then the same text follows. -/
def Tells (f : α → List Char) (g : α → β) (stops : List Char) (a b : α) : Prop :=
  ∀ ⦃x y : List Char⦄, StopsAt stops x → StopsAt stops y → f a ++ x = f b ++ y → g a = g b ∧ x = y

/-- An enumeration is its first part, and each of the others behind a separator. -/
theorem intercalate_cons (sep part : List Char) (parts : List (List Char)) :
    List.intercalate sep (part :: parts) = part ++ parts.flatMap (sep ++ ·) := by
  induction parts generalizing part with
  | nil => simp
  | cons next parts ih =>
    rw [List.intercalate_cons_cons, ih, List.flatMap_cons, List.append_assoc, List.append_assoc]

section Enumerations

variable {f : α → List Char} {g : α → β} {as bs : List α}

/-- Behind a part of an enumeration comes the separator, or what follows the enumeration. -/
theorem stopsAt_flatMap (hinner : c ∈ inner) (hsub : outer ⊆ inner) (hx : StopsAt outer x) :
    StopsAt inner (as.flatMap (fun a => c :: cs ++ f a) ++ x) := by
  cases as with
  | nil => exact hx.mono hsub
  | cons a as => exact stopsAt_cons_iff.mpr hinner

/-- The parts of an enumeration behind the first, each with the separator in front. -/
theorem tells_flatMap (hinner : c ∈ inner) (houter : c ∉ outer) (hsub : outer ⊆ inner)
    (hparts : ∀ a ∈ as, ∀ b ∈ bs, Tells f g inner a b) :
    Tells (fun as => as.flatMap fun a => c :: cs ++ f a) (List.map g) outer as bs := by
  intro x y hx hy h
  have hend : ∀ {z}, ¬ StopsAt outer (c :: z) := fun hz => houter (stopsAt_cons_iff.mp hz)
  induction as generalizing bs with
  | nil =>
    cases bs with
    | nil => exact ⟨rfl, h⟩
    | cons b bs =>
      have hmore : x = c :: _ := h
      exact absurd (hmore ▸ hx) hend
  | cons a as ih =>
    cases bs with
    | nil =>
      have hmore : c :: _ = y := h
      exact absurd (hmore ▸ hy) hend
    | cons b bs =>
      simp only [List.flatMap_cons, List.append_assoc] at h
      obtain ⟨hab, hrest⟩ := hparts a List.mem_cons_self b List.mem_cons_self
        (stopsAt_flatMap hinner hsub hx) (stopsAt_flatMap hinner hsub hy)
        (List.append_cancel_left h)
      obtain ⟨hmap, hxy⟩ := ih (fun a ha b hb =>
        hparts a (List.mem_cons_of_mem _ ha) b (List.mem_cons_of_mem _ hb)) hrest
      exact ⟨by rw [List.map_cons, List.map_cons, hab, hmap], hxy⟩

/-- An enumeration tells its parts if they do and its separator goes on with it, while nothing that
follows it does. -/
theorem tells_intercalate (hinner : c ∈ inner) (houter : c ∉ outer) (hsub : outer ⊆ inner)
    (has : as ≠ []) (hbs : bs ≠ []) (hparts : ∀ a ∈ as, ∀ b ∈ bs, Tells f g inner a b) :
    Tells (fun as => List.intercalate (c :: cs) (as.map f)) (List.map g) outer as bs := by
  intro x y hx hy h
  obtain ⟨a, as, rfl⟩ := List.exists_cons_of_ne_nil has
  obtain ⟨b, bs, rfl⟩ := List.exists_cons_of_ne_nil hbs
  simp only [List.map_cons, intercalate_cons, List.flatMap_map, List.append_assoc] at h
  obtain ⟨hab, hrest⟩ := hparts a List.mem_cons_self b List.mem_cons_self
    (stopsAt_flatMap hinner hsub hx) (stopsAt_flatMap hinner hsub hy) h
  obtain ⟨hmap, hxy⟩ := tells_flatMap hinner houter hsub (fun a ha b hb =>
    hparts a (List.mem_cons_of_mem _ ha) b (List.mem_cons_of_mem _ hb)) hx hy hrest
  exact ⟨by rw [List.map_cons, List.map_cons, hab, hmap], hxy⟩

end Enumerations

end TypedPaths

/-
TypedPaths/Proofs/Segment.lean

Segments and the text of a path.

Design.  The text of a path is cut at every dot, so a segment never holds one
(`isSegment_of_mem`), and the segments with dots between them are the text again (`join_segments`).
The other way round, texts without dots are the segments of their path (`segments_join`); the one
exception is a single empty text, whose path is that without segments.
A position is a segment of its own: its decimal text stands for it (`index?_toString`), and no
other text does (`eq_toString_of_index?`).

Main results: `isSegment_of_mem`, `join_segments`, `segments_join`, `segments_and_join`,
`index?_toString`, `index?_inj`.
-/
import TypedPaths.Path
import Mathlib.Data.List.Basic

namespace TypedPaths.Path

/-- The text can be a segment of a path. -/
def IsSegment (text : String) : Prop := '.' ∉ text.toList

/-! ### Cutting at dots -/

/-- No part that is cut off holds a dot. -/
theorem not_mem_splitDots {cs part : List Char} (h : part ∈ splitDots cs) : '.' ∉ part := by
  induction cs generalizing part with
  | nil =>
    rw [splitDots, List.mem_singleton] at h
    simp [h]
  | cons c cs ih =>
    rw [splitDots] at h
    split at h
    · -- a dot ends the part before it
      rcases List.mem_cons.mp h with rfl | h
      · simp
      · exact ih h
    · -- any other character goes in front of the first part
      next hc =>
      split at h
      · rw [List.mem_singleton] at h
        simp [h, Ne.symm hc]
      · next first parts hparts =>
        rcases List.mem_cons.mp h with rfl | h
        · have hfirst : '.' ∉ first := ih (hparts ▸ List.mem_cons_self)
          simp [Ne.symm hc, hfirst]
        · exact ih (hparts ▸ List.mem_cons_of_mem _ h)

theorem splitDots_ne_nil (cs : List Char) : splitDots cs ≠ [] := by
  cases cs with
  | nil => exact List.cons_ne_nil _ _
  | cons c cs =>
    rw [splitDots]
    split
    · exact List.cons_ne_nil _ _
    · split <;> exact List.cons_ne_nil _ _

/-- Only the empty text is the path without segments. -/
theorem segments_eq_nil_iff {path : String} : segments path = [] ↔ path = "" := by
  unfold segments
  split
  · next hempty => exact iff_of_true rfl hempty
  · next hne =>
    rw [List.map_eq_nil_iff]
    exact iff_of_false (splitDots_ne_nil _) hne

theorem exists_segments_eq_cons {path : String} (hpath : path ≠ "") :
    ∃ segment rest, segments path = segment :: rest :=
  List.exists_cons_of_ne_nil fun hnil => hpath (segments_eq_nil_iff.mp hnil)

theorem isSegment_of_mem {path segment : String} (h : segment ∈ segments path) :
    IsSegment segment := by
  unfold segments at h
  split at h
  · cases h
  · obtain ⟨part, hpart, rfl⟩ := List.mem_map.mp h
    unfold IsSegment
    rw [String.toList_ofList]
    exact not_mem_splitDots hpart

theorem splitDots_of_not_mem {cs : List Char} (h : '.' ∉ cs) : splitDots cs = [cs] := by
  induction cs with
  | nil => rfl
  | cons c cs ih =>
    rw [List.mem_cons, not_or] at h
    rw [splitDots, if_neg (Ne.symm h.1), ih h.2]

/-- The first dot ends the first part. -/
theorem splitDots_append {cs ds : List Char} (h : '.' ∉ cs) :
    splitDots (cs ++ '.' :: ds) = cs :: splitDots ds := by
  induction cs with
  | nil => simp [splitDots]
  | cons c cs ih =>
    rw [List.mem_cons, not_or] at h
    rw [List.cons_append, splitDots, if_neg (Ne.symm h.1), ih h.2]

/-- Parts without dots are what the text of their path is cut into. -/
theorem splitDots_intercalate {parts : List (List Char)} (hne : parts ≠ [])
    (h : ∀ part ∈ parts, '.' ∉ part) : splitDots (List.intercalate ['.'] parts) = parts := by
  induction parts with
  | nil => exact absurd rfl hne
  | cons part parts ih =>
    rw [List.forall_mem_cons] at h
    cases parts with
    | nil => rw [List.intercalate_singleton, splitDots_of_not_mem h.1]
    | cons next parts =>
      have hrest := ih (List.cons_ne_nil _ _) h.2
      rw [List.intercalate_cons_cons, List.append_assoc, List.singleton_append,
        splitDots_append h.1, hrest]

/-- Texts without dots are the segments of their path, unless the only one is empty. -/
theorem segments_join {texts : List String} (h : ∀ text ∈ texts, IsSegment text)
    (hne : texts ≠ [""]) : segments (join texts) = texts := by
  by_cases hnil : texts = []
  · subst hnil
    rfl
  have hlist : (join texts).toList = List.intercalate ['.'] (texts.map String.toList) :=
    String.toList_intercalate
  have hsplit : splitDots (join texts).toList = texts.map String.toList := by
    rw [hlist]
    apply splitDots_intercalate (by simpa using hnil)
    intro part hpart
    obtain ⟨text, htext, rfl⟩ := List.mem_map.mp hpart
    exact h text htext
  have hempty : join texts ≠ "" := by
    intro hempty
    rw [hempty] at hsplit
    -- the empty text is cut into one empty part
    have htexts : texts.map String.toList = [""].map String.toList := hsplit.symm
    exact hne (List.map_injective_iff.mpr (fun _ _ h => String.toList_injective h) htexts)
  unfold segments
  rw [if_neg hempty, hsplit, List.map_map]
  simp

/-- The parts that a text is cut into make it up again. -/
theorem intercalate_splitDots (cs : List Char) : List.intercalate ['.'] (splitDots cs) = cs := by
  induction cs with
  | nil => exact List.intercalate_singleton
  | cons c cs ih =>
    rw [splitDots]
    obtain ⟨first, parts, hparts⟩ := List.exists_cons_of_ne_nil (splitDots_ne_nil cs)
    rw [hparts] at ih ⊢
    split
    · next hc =>
      -- the dot stands between an empty part and the others
      rw [List.intercalate_cons_cons, ih, hc]
      rfl
    · cases parts with
      | nil =>
        rw [List.intercalate_singleton] at ih ⊢
        rw [ih]
      | cons next parts =>
        rw [List.intercalate_cons_cons, List.append_assoc] at ih ⊢
        rw [List.cons_append, ih]

/-- The segments of a path make up its text. -/
theorem join_segments (path : String) : join (segments path) = path := by
  unfold segments
  split
  · next hempty => exact hempty.symm
  · have hlist : ((splitDots path.toList).map String.ofList).map String.toList =
        splitDots path.toList := by
      rw [List.map_map]
      exact (List.map_congr_left fun _ _ => String.toList_ofList).trans (List.map_id _)
    apply String.toList_injective
    rw [join, String.toList_intercalate, hlist]
    exact intercalate_splitDots path.toList

theorem segments_join_iff {texts : List String} :
    segments (join texts) = texts ↔ (∀ text ∈ texts, IsSegment text) ∧ texts ≠ [""] := by
  refine ⟨fun h => ⟨fun text htext => ?_, ?_⟩, fun h => segments_join h.1 h.2⟩
  · rw [← h] at htext
    exact isSegment_of_mem htext
  · rintro rfl
    exact absurd h (by decide)

/-- Cutting a path into segments and joining segments to a path undo each other, except that texts
with dots are cut up and the path of one empty text has no segments. -/
theorem segments_and_join :
    (∀ path : String, join (segments path) = path) ∧
    ∀ texts : List String, segments (join texts) = texts ↔
      (∀ text ∈ texts, '.' ∉ text.toList) ∧ texts ≠ [""] :=
  ⟨join_segments, fun _ => segments_join_iff⟩

/-! ### Positions -/

/-- No decimal text but that of zero begins with a zero. -/
theorem head?_toDigits (n : Nat) (hn : n ≠ 0) : (Nat.toDigits 10 n).head? ≠ some '0' := by
  induction n using Nat.strongRecOn with
  | ind n ih =>
    by_cases hlt : n < 10
    · rw [Nat.toDigits_of_lt_base hlt, List.head?_cons, ne_eq, Option.some.injEq,
        Nat.digitChar_eq_zero]
      exact hn
    · have hle : 10 ≤ n := Nat.le_of_not_lt hlt
      have hpos : n / 10 ≠ 0 := by omega
      rw [Nat.toDigits_of_base_le (by decide) hle,
        List.head?_append_of_ne_nil _ Nat.toDigits_ne_nil]
      exact ih (n / 10) (by omega) hpos

theorem isDecimal_toDigits (n : Nat) : isDecimal (Nat.toDigits 10 n) = true := by
  have hdigits : (Nat.toDigits 10 n).all Char.isDigit = true := by
    rw [List.all_eq_true]
    intro c hc
    exact Nat.isDigit_of_mem_toDigits (by decide) (by decide) hc
  have hzero : n ≠ 0 → (Nat.toDigits 10 n).head? ≠ some '0' := head?_toDigits n
  unfold isDecimal
  by_cases hn : n = 0
  · subst hn
    decide
  · simp [hdigits, hzero hn, Nat.toDigits_ne_nil]

/-- The decimal text of a position stands for it. -/
theorem index?_toString {n : Nat} (hn : n < UInt64.size) : index? (toString n) = some n := by
  have hlist : (toString n).toList = Nat.toDigits 10 n := Nat.toList_repr
  have hvalue : digitsValue (Nat.toDigits 10 n) = n := Nat.ofDigitChars_ten_toDigits
  unfold index?
  dsimp only
  rw [hlist, hvalue, if_pos ⟨isDecimal_toDigits n, hn⟩]

theorem toNat_of_isDigit {c : Char} (h : c.isDigit = true) : 48 ≤ c.toNat ∧ c.toNat ≤ 57 := by
  rw [Char.isDigit, Bool.and_eq_true, decide_eq_true_iff, decide_eq_true_iff] at h
  exact h

theorem digit_lt {c : Char} (h : c.isDigit = true) : c.toNat - '0'.toNat < 10 := by
  have hzero : '0'.toNat = 48 := rfl
  have hrange := toNat_of_isDigit h
  omega

/-- A digit is the character of its value. -/
theorem digitChar_of_isDigit {c : Char} (h : c.isDigit = true) :
    Nat.digitChar (c.toNat - '0'.toNat) = c := by
  have hzero : '0'.toNat = 48 := rfl
  have hrange := toNat_of_isDigit h
  apply Char.toNat_inj.mp
  rw [Nat.toNat_digitChar_of_lt_ten (digit_lt h)]
  omega

/-- Digits behind the decimal text of a number other than zero continue it. -/
theorem toDigits_append {n : Nat} {cs : List Char} (hn : 0 < n)
    (h : ∀ c ∈ cs, c.isDigit = true) :
    Nat.toDigits 10 n ++ cs = Nat.toDigits 10 (Nat.ofDigitChars 10 cs n) := by
  induction cs generalizing n with
  | nil => simp
  | cons c cs ih =>
    rw [List.forall_mem_cons] at h
    have hc : Nat.digitChar (c.toNat - '0'.toNat) = c := digitChar_of_isDigit h.1
    have hlt : c.toNat - '0'.toNat < 10 := digit_lt h.1
    have hstep : Nat.toDigits 10 n ++ [c] = Nat.toDigits 10 (10 * n + (c.toNat - '0'.toNat)) := by
      rw [← Nat.toDigits_append_toDigits (by decide) hn hlt, Nat.toDigits_of_lt_base hlt, hc]
    rw [Nat.ofDigitChars_cons, ← ih (by omega) h.2, ← hstep]
    simp

/-- The decimal text of a number is that of its value. -/
theorem toDigits_digitsValue {cs : List Char} (h : isDecimal cs = true) :
    Nat.toDigits 10 (digitsValue cs) = cs := by
  unfold isDecimal at h
  simp only [Bool.and_eq_true, Bool.or_eq_true, decide_eq_true_iff, beq_iff_eq, bne_iff_ne,
    List.all_eq_true] at h
  obtain ⟨⟨hne, hdigits⟩, hzero⟩ := h
  cases cs with
  | nil => exact absurd rfl hne
  | cons c cs =>
    rcases hzero with hzero | hhead
    · rw [hzero]
      rfl
    · -- the first digit is not zero, and the others continue it
      rw [List.forall_mem_cons] at hdigits
      have hc : Nat.digitChar (c.toNat - '0'.toNat) = c := digitChar_of_isDigit hdigits.1
      have hpos : 0 < c.toNat - '0'.toNat := by
        rw [Nat.pos_iff_ne_zero, ne_eq, ← Nat.digitChar_eq_zero, hc]
        simpa using hhead
      have htext : Nat.toDigits 10 (c.toNat - '0'.toNat) = [c] := by
        rw [Nat.toDigits_of_lt_base (digit_lt hdigits.1), hc]
      have hvalue : digitsValue (c :: cs) = Nat.ofDigitChars 10 cs (c.toNat - '0'.toNat) := by
        unfold digitsValue Nat.ofDigitChars
        rw [List.foldl_cons, Nat.mul_zero, Nat.zero_add]
      rw [hvalue, ← toDigits_append hpos hdigits.2, htext, List.singleton_append]

/-- Only the decimal text of a position stands for it. -/
theorem eq_toString_of_index? {segment : String} {n : Nat} (h : index? segment = some n) :
    segment = toString n := by
  unfold index? at h
  dsimp only at h
  split at h
  · next hdecimal =>
    have hlist : (toString n).toList = Nat.toDigits 10 n := Nat.toList_repr
    apply String.toList_injective
    rw [hlist, ← Option.some.inj h, toDigits_digitsValue hdecimal.1]
  · cases h

/-- Different segments stand for different positions. -/
theorem index?_inj {s t : String} {n : Nat} (hs : index? s = some n) (ht : index? t = some n) :
    s = t :=
  (eq_toString_of_index? hs).trans (eq_toString_of_index? ht).symm

theorem isSegment_toString (n : Nat) : IsSegment (toString n) := by
  intro hdot
  have hlist : (toString n).toList = Nat.toDigits 10 n := Nat.toList_repr
  rw [hlist] at hdot
  have hdigit : Char.isDigit '.' = true :=
    Nat.isDigit_of_mem_toDigits (by decide) (by decide) hdot
  exact absurd hdigit (by decide)

end TypedPaths.Path

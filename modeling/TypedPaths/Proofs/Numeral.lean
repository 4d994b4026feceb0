/-
TypedPaths/Proofs/Numeral.lean

Numbers and their texts.

Design.  The text of an integer is a numeral without point and exponent, whose digits are read back
one after another; none of them is dropped, since an integer fits 64 bits.  Whether the text of a
binary64 number is read back depends on the arithmetic of reading, which rounds more than once; so
this is a property of the single number (`Double.ReadsBack`), asked for where it is needed.

A numeral consists of the characters of numerals alone and begins with a digit or a minus sign,
whatever it denotes.  That is what a reader of texts has to know to find its end.

Main results: `Number.readsBack_integer`, `Numeral.isNumeral_of_ofChars?`.
-/
import TypedPaths.Json.Text.Token
import TypedPaths.Proofs.Segment

namespace TypedPaths

/-- The text of the number is a numeral that denotes it. -/
def Number.ReadsBack (n : Number) : Prop :=
  (Numeral.ofChars? n.text.toList).bind Numeral.value? = some n

/-- The text of the number is a numeral that denotes it. -/
def Double.ReadsBack (d : Double) : Prop := (Number.double d).ReadsBack

instance Double.instDecidableReadsBack (d : Double) : Decidable d.ReadsBack :=
  inferInstanceAs (Decidable (_ = _))

namespace Numeral

variable {cs : List Char} {negative : Bool}

/-! ### The grammar -/

theorem spanDigits_append (cs : List Char) : (spanDigits cs).1 ++ (spanDigits cs).2 = cs := by
  induction cs with
  | nil => rfl
  | cons c cs ih =>
    rw [spanDigits]
    split
    · simp [ih]
    · rfl

theorem isDigit_of_mem_spanDigits {c : Char} (h : c ∈ (spanDigits cs).1) : c.isDigit = true := by
  induction cs with
  | nil => cases h
  | cons d cs ih =>
    rw [spanDigits] at h
    split at h
    · next hd =>
      rcases List.mem_cons.mp h with rfl | h
      · exact hd
      · exact ih h
    · cases h

theorem spanDigits_of_digits (h : ∀ c ∈ cs, c.isDigit = true) : spanDigits cs = (cs, []) := by
  induction cs with
  | nil => rfl
  | cons c cs ih =>
    rw [List.forall_mem_cons] at h
    rw [spanDigits, if_pos h.1, ih h.2]

theorem isNumeral_of_isDigit {c : Char} (h : c.isDigit = true) : Lexer.isNumeral c = true := by
  simp [Lexer.isNumeral, h]

theorem isNumeral_of_digits (h : cs.all Char.isDigit = true) :
    ∀ c ∈ cs, Lexer.isNumeral c = true := by
  intro c hc
  exact isNumeral_of_isDigit (List.all_eq_true.mp h c hc)

theorem isNumeral_of_mem_spanDigits : ∀ c ∈ (spanDigits cs).1, Lexer.isNumeral c = true :=
  fun _ hc => isNumeral_of_isDigit (isDigit_of_mem_spanDigits hc)

theorem all_isDigit_of_ite {digits : List Char} {α : Type} {a b : α}
    (h : (if digits ≠ [] ∧ digits.all Char.isDigit = true then some a else none) = some b) :
    digits.all Char.isDigit = true := by
  split at h
  · next hdigits => exact hdigits.2
  · cases h

theorem isNumeral_of_exponentOfChars? {e : Option (Bool × List Char)}
    (h : exponentOfChars? cs = some e) : ∀ c ∈ cs, Lexer.isNumeral c = true := by
  cases cs with
  | nil => exact List.forall_mem_nil _
  | cons letter cs =>
    unfold exponentOfChars? at h
    dsimp only at h
    split at h
    · next hletter =>
      rw [List.forall_mem_cons]
      refine ⟨by rcases hletter with rfl | rfl <;> rfl, ?_⟩
      -- with a sign or without, what follows are digits
      split at h
      · exact List.forall_mem_cons.mpr ⟨rfl, isNumeral_of_digits (all_isDigit_of_ite h)⟩
      · exact List.forall_mem_cons.mpr ⟨rfl, isNumeral_of_digits (all_isDigit_of_ite h)⟩
      · exact isNumeral_of_digits (all_isDigit_of_ite h)
    · cases h

/-- A numeral without its sign begins with a digit and consists of characters of numerals. -/
theorem isNumeral_of_unsignedOfChars? {n : Numeral} (h : unsignedOfChars? negative cs = some n) :
    (∃ c rest, cs = c :: rest ∧ c.isDigit = true) ∧ ∀ c ∈ cs, Lexer.isNumeral c = true := by
  unfold unsignedOfChars? at h
  dsimp only at h
  split at h
  · cases h
  · next hwhole =>
    rw [not_or] at hwhole
    rw [← spanDigits_append cs]
    obtain ⟨c, whole, hc⟩ := List.exists_cons_of_ne_nil hwhole.1
    have hfirst : c.isDigit = true := isDigit_of_mem_spanDigits (hc ▸ List.mem_cons_self)
    refine ⟨⟨c, whole ++ (spanDigits cs).2, by rw [hc]; rfl, hfirst⟩, ?_⟩
    rw [List.forall_mem_append]
    refine ⟨isNumeral_of_mem_spanDigits, ?_⟩
    split at h
    · next rest hrest =>
      rw [hrest, List.forall_mem_cons]
      refine ⟨rfl, ?_⟩
      split at h
      · cases h
      · obtain ⟨e, he, -⟩ := Option.map_eq_some_iff.mp h
        rw [← spanDigits_append rest, List.forall_mem_append]
        exact ⟨isNumeral_of_mem_spanDigits, isNumeral_of_exponentOfChars? he⟩
    · obtain ⟨e, he, -⟩ := Option.map_eq_some_iff.mp h
      exact isNumeral_of_exponentOfChars? he

/-- A numeral begins with a digit or a minus sign and consists of characters of numerals. -/
theorem isNumeral_of_ofChars? {n : Numeral} (h : ofChars? cs = some n) :
    (∃ c rest, cs = c :: rest ∧ (c.isDigit = true ∨ c = '-')) ∧
      ∀ c ∈ cs, Lexer.isNumeral c = true := by
  unfold ofChars? at h
  split at h
  · next cs =>
    exact ⟨⟨'-', cs, rfl, .inr rfl⟩,
      List.forall_mem_cons.mpr ⟨rfl, (isNumeral_of_unsignedOfChars? h).2⟩⟩
  · obtain ⟨⟨c, rest, hcs, hc⟩, hall⟩ := isNumeral_of_unsignedOfChars? h
    exact ⟨⟨c, rest, hcs, .inl hc⟩, hall⟩

/-! ### Integers -/

/-- A decimal text is a numeral without a fraction or an exponent. -/
theorem unsignedOfChars?_digits (h : Path.isDecimal cs = true) :
    unsignedOfChars? negative cs = some ⟨negative, cs, none, none⟩ := by
  unfold Path.isDecimal at h
  simp only [Bool.and_eq_true, Bool.or_eq_true, decide_eq_true_iff, beq_iff_eq, bne_iff_ne,
    List.all_eq_true] at h
  obtain ⟨⟨hne, hdigits⟩, hzero⟩ := h
  unfold unsignedOfChars?
  rw [spanDigits_of_digits hdigits]
  dsimp only
  rw [if_neg]
  · rfl
  · rintro (hnil | ⟨hhead, hlong⟩)
    · exact hne hnil
    · exact hzero.elim hlong fun hhead' => hhead' hhead

/-- Further digits make no number smaller. -/
theorem le_ofDigitChars (n : Nat) (cs : List Char) : n ≤ Nat.ofDigitChars 10 cs n := by
  induction cs generalizing n with
  | nil => exact Nat.le_refl n
  | cons c cs ih =>
    rw [Nat.ofDigitChars_cons]
    have hstep := ih (10 * n + (c.toNat - '0'.toNat))
    omega

/-- No digit of a number below the limit is left over. -/
theorem absorb_of_lt {limit n : Nat} (h : Nat.ofDigitChars 10 cs n < limit) :
    absorb limit n cs = (Nat.ofDigitChars 10 cs n, []) := by
  induction cs generalizing n with
  | nil => rfl
  | cons c cs ih =>
    rw [Nat.ofDigitChars_cons] at h ⊢
    have hstep : n * 10 + digitValue c = 10 * n + (c.toNat - '0'.toNat) := by
      rw [digitValue, Nat.mul_comm]
    have hle := le_ofDigitChars (10 * n + (c.toNat - '0'.toNat)) cs
    rw [absorb, hstep, if_pos (by omega), ih h]

/-- The decimal text of an integer, with its sign, has the integer as its value. -/
theorem value?_toDigits {n : Nat} (hn : n < UInt64.size) (hsign : negative = true → n ≠ 0)
    {i : Integer} (hi : i.val = if negative then -(n : Int) else n) :
    value? ⟨negative, Nat.toDigits 10 n, none, none⟩ = some (.integer i) := by
  have habsorb : absorb UInt64.size 0 (Nat.toDigits 10 n) = (n, []) := by
    have hvalue : Nat.ofDigitChars 10 (Nat.toDigits 10 n) 0 = n := Nat.ofDigitChars_ten_toDigits
    rw [absorb_of_lt (hvalue.symm ▸ hn), hvalue]
  have hint : Integer.ofInt? i.val = some i := by
    unfold Integer.ofInt?
    rw [dif_pos ⟨i.lower, i.upper⟩]
  unfold value?
  rw [habsorb]
  dsimp only
  rw [if_neg fun h => hsign h.1 h.2, ← hi, hint]

end Numeral

/-- The text of an integer is read back. -/
theorem Number.readsBack_integer (i : Integer) : (integer i).ReadsBack := by
  have hsize : UInt64.size = 18446744073709551616 := rfl
  have hmin : Int64.minValue.toInt = -9223372036854775808 := rfl
  have hlower := i.lower
  have hupper := i.upper
  unfold ReadsBack text
  dsimp only
  rcases hi : i.val with n | n
  · have htext : (toString (Int.ofNat n)).toList = Nat.toDigits 10 n := Nat.toList_repr
    have hdecimal := Path.isDecimal_toDigits n
    have hchars : Numeral.ofChars? (Nat.toDigits 10 n) =
        some ⟨false, Nat.toDigits 10 n, none, none⟩ := by
      unfold Numeral.ofChars?
      split
      · next cs hcs =>
        -- a minus sign is no digit
        rw [hcs] at hdecimal
        cases hdecimal
      · exact Numeral.unsignedOfChars?_digits hdecimal
    rw [htext, hchars, Option.bind_some]
    have hn : i.val = (n : Int) := hi
    exact Numeral.value?_toDigits (by omega) (fun h => absurd h Bool.false_ne_true) hi
  · have htext : (toString (Int.negSucc n)).toList = '-' :: Nat.toDigits 10 (n + 1) := by
      show ("-" ++ Nat.repr (n + 1)).toList = _
      rw [String.toList_append, Nat.toList_repr]
      rfl
    have hchars : Numeral.ofChars? ('-' :: Nat.toDigits 10 (n + 1)) =
        some ⟨true, Nat.toDigits 10 (n + 1), none, none⟩ :=
      Numeral.unsignedOfChars?_digits (Path.isDecimal_toDigits (n + 1))
    rw [htext, hchars, Option.bind_some]
    have hn : i.val = -((n : Int) + 1) := hi.trans (Int.negSucc_eq n)
    exact Numeral.value?_toDigits (by omega) (fun _ => Nat.succ_ne_zero n) hn

end TypedPaths

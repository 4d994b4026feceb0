/-
TypedPaths/Json/Number.lean

Numbers of JSON values, and the numerals that denote them.

Design.  A numeral without point and exponent denotes an integer when it fits 64 bits, with a
sign where it is below zero; every other numeral denotes a binary64 number, and `-0` does too,
since the integers have one zero.  An integer and a binary64 number are never the same value.
The grammar of numerals (`Numeral.ofChars?`) and their values (`Numeral.value?`) are kept apart:
a numeral may be well formed and still denote nothing, as `1e400` does.
-/
import TypedPaths.Json.Double.Decimal

namespace TypedPaths

/-! ### Values -/

/-- An integer that fits 64 bits, signed or unsigned. -/
structure Integer where
  val : Int
  lower : Int64.minValue.toInt ≤ val
  upper : val < UInt64.size
deriving DecidableEq, Repr

/-- The integer, if it fits. -/
def Integer.ofInt? (i : Int) : Option Integer :=
  if h : Int64.minValue.toInt ≤ i ∧ i < UInt64.size then some ⟨i, h.1, h.2⟩ else none

/-- A number of a JSON value. -/
inductive Number where
  | integer (i : Integer)
  | double (d : Double)
deriving DecidableEq, Repr

namespace Number

/-- The text of a number. -/
def text : Number → String
  | integer i => toString i.val
  | double d => d.text

/-- The number with a zero's sign dropped. -/
def unsignedZero : Number → Number
  | integer i => integer i
  | double d => double d.unsignedZero

@[simp] theorem unsignedZero_unsignedZero (n : Number) :
    n.unsignedZero.unsignedZero = n.unsignedZero := by
  cases n <;> simp [unsignedZero]

end Number

/-! ### Numerals -/

/-- The value of a decimal digit. -/
def digitValue (c : Char) : Nat := c.toNat - '0'.toNat

/-- A numeral taken apart: the digits before the point, after it if there is a point, and the
exponent's sign and digits if there is an exponent. -/
structure Numeral where
  negative : Bool
  whole : List Char
  fraction : Option (List Char)
  exponent : Option (Bool × List Char)
deriving DecidableEq, Repr

namespace Numeral

/-- Splits off the digits at the front. -/
def spanDigits : List Char → List Char × List Char
  | [] => ([], [])
  | c :: cs => if c.isDigit then ((spanDigits cs).1.cons c, (spanDigits cs).2) else ([], c :: cs)

/-- Reads the exponent that ends a numeral, from the letter on. -/
def exponentOfChars? : List Char → Option (Option (Bool × List Char))
  | [] => some none
  | c :: cs =>
    if c = 'e' ∨ c = 'E' then
      let (negative, digits) := match cs with
        | '-' :: ds => (true, ds)
        | '+' :: ds => (false, ds)
        | ds => (false, ds)
      if digits ≠ [] ∧ digits.all Char.isDigit then some (some (negative, digits)) else none
    else
      none

/-- Reads a numeral without its sign: no leading zeros, and a digit on both sides of a point. -/
def unsignedOfChars? (negative : Bool) (cs : List Char) : Option Numeral :=
  let (whole, rest) := spanDigits cs
  if whole = [] ∨ (whole.head? = some '0' ∧ whole ≠ ['0']) then
    none
  else
    match rest with
    | '.' :: rest =>
      let (fraction, rest) := spanDigits rest
      if fraction = [] then none
      else (exponentOfChars? rest).map fun e => ⟨negative, whole, some fraction, e⟩
    | rest => (exponentOfChars? rest).map fun e => ⟨negative, whole, none, e⟩

/-- Reads a numeral that takes up the whole text. -/
def ofChars? : List Char → Option Numeral
  | '-' :: cs => unsignedOfChars? true cs
  | cs => unsignedOfChars? false cs

/-- Appends digits to a number as long as the result stays below `limit`; gives the result and
the digits that are left. -/
def absorb (limit : Nat) : Nat → List Char → Nat × List Char
  | n, [] => (n, [])
  | n, c :: cs =>
    if n * 10 + digitValue c < limit then absorb limit (n * 10 + digitValue c) cs
    else (n, c :: cs)

/-- The binary64 number of a significand and a power of ten, times ten to the written exponent.
An exponent of more than 31 bits gives zero, unless it would raise a number other than zero. -/
def scientific? (n : Numeral) (significand : Nat) (power : Int) : Option Double :=
  let magnitude? := match n.exponent with
    | none => Double.ofScientific? significand power
    | some (negative, digits) =>
      match absorb (1 <<< 31) 0 digits with
      | (e, []) => Double.ofScientific? significand (if negative then power - e else power + e)
      | (_, _ :: _) => if significand ≠ 0 ∧ !negative then none else some 0
  magnitude?.map fun m => ⟨n.negative, m⟩

/-- The number that the numeral denotes.  The significand takes the digits that fit 64 bits; of
those that do not fit, the ones before the point count as zeros and the ones after it as
nothing. -/
def value? (n : Numeral) : Option Number :=
  let (significand, dropped) := absorb UInt64.size 0 n.whole
  match n.fraction, n.exponent, dropped with
  | none, none, [] =>
    if n.negative ∧ significand = 0 then some (.double ⟨true, 0⟩)
    else
      match Integer.ofInt? (if n.negative then -significand else significand) with
      | some i => some (.integer i)
      | none => (n.scientific? significand 0).map .double
  | fraction, _, dropped =>
    let digits := fraction.getD []
    let (significand, rest) := absorb UInt64.size significand digits
    let power : Int := dropped.length - (digits.length - rest.length : Nat)
    (n.scientific? significand power).map .double

end Numeral

end TypedPaths

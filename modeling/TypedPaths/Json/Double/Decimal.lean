/-
TypedPaths/Json/Double/Decimal.lean

Decimal text of binary64 numbers, both ways.

Design.  Writing finds the fewest digits that read back: for one digit, two digits and so on it
tries the two neighbours of the value on that decimal grid, in exact arithmetic, and of two that
read back takes the nearer, at an exact half the even one.

Reading a significand and a power of ten is done in binary64 arithmetic, with one rounding for
the significand and one for each power of ten that it is multiplied or divided by, so the result
is not always the nearest number to the decimal.  Short decimals are read exactly rounded, since
their significand and their power of ten are exact.
-/
import TypedPaths.Json.Double

namespace TypedPaths

/-! ### The fewest digits -/

/-- The decimal `digits * 10 ^ exponent`. -/
structure Decimal where
  digits : Nat
  exponent : Int
deriving DecidableEq, Repr

namespace Decimal

/-- The numerator of the exact value over `denominator`. -/
def numerator (d : Decimal) : Nat := d.digits * Nat.pow 10 d.exponent.toNat

/-- A power of ten. -/
def denominator (d : Decimal) : Nat := Nat.pow 10 (-d.exponent).toNat

/-- Drops up to `n` zeros at the end of the digits. -/
def dropZeros : Nat → Decimal → Decimal
  | 0, d => d
  | n + 1, d => if d.digits % 10 = 0 then dropZeros n ⟨d.digits / 10, d.exponent + 1⟩ else d

/-- Whether the decimal rounds to the magnitude. -/
def denotes (d : Decimal) (x : Magnitude) : Bool :=
  Magnitude.nearest? d.numerator d.denominator == some x

/-- The number of digits before the decimal point of a value other than zero; for a value below
one tenth, less the number of zeros after the point. -/
def pointPosition (x : Magnitude) : Int :=
  (Nat.repr (x.numerator * Nat.pow 10 400 / x.denominator)).length - 400

/-- The neighbours below and above the value on the grid of multiples of `10 ^ exponent`,
the nearer first. -/
def neighbours (x : Magnitude) (exponent : Int) : List Decimal :=
  let num := x.numerator * Nat.pow 10 (-exponent).toNat
  let den := x.denominator * Nat.pow 10 exponent.toNat
  let below := num / den
  let nearer := Magnitude.divideToEven num den
  [⟨nearer, exponent⟩, ⟨2 * below + 1 - nearer, exponent⟩]

/-- The fewest digits that denote the magnitude, tried from the last place `exponent` on to smaller
places; after the last try, the digits nearest to it. -/
def shortestFrom (x : Magnitude) : (tries : Nat) → (exponent : Int) → Decimal
  | 0, exponent =>
    ⟨Magnitude.divideToEven (x.numerator * Nat.pow 10 (-exponent).toNat)
      (x.denominator * Nat.pow 10 exponent.toNat), exponent⟩
  | tries + 1, exponent =>
    match (neighbours x exponent).find? (·.denotes x) with
    | some d => d
    | none => shortestFrom x tries (exponent - 1)

/-- The decimal of fewest digits that denotes the magnitude; seventeen digits always do. -/
def shortest (x : Magnitude) : Decimal :=
  if x = 0 then ⟨0, 0⟩ else dropZeros 20 (shortestFrom x 16 (pointPosition x - 1))

end Decimal

/-! ### Layout -/

namespace Double

/-- The text of a decimal other than zero: positional with at least one digit after the point
from `1e-5` up to `1e16`, else one digit before the point and a power of ten. -/
def layout (d : Decimal) : String :=
  let digits := Nat.repr d.digits
  let point : Int := digits.length + d.exponent
  if 0 ≤ d.exponent ∧ point ≤ 16 then
    digits ++ String.ofList (List.replicate d.exponent.toNat '0') ++ ".0"
  else if 0 < point ∧ point ≤ 16 then
    String.ofList (digits.toList.take point.toNat) ++ "."
      ++ String.ofList (digits.toList.drop point.toNat)
  else if -5 < point ∧ point ≤ 0 then
    "0." ++ String.ofList (List.replicate (-point).toNat '0') ++ digits
  else
    let power := "e" ++ toString (point - 1)
    match digits.toList with
    | [] => power
    | [c] => String.ofList [c] ++ power
    | c :: rest => String.ofList [c] ++ "." ++ String.ofList rest ++ power

/-- The text of a number: the fewest digits that denote it, and `0.0` or `-0.0` for zero. -/
def text (d : Double) : String :=
  (if d.negative then "-" else "")
    ++ (if d.magnitude = 0 then "0.0" else layout (Decimal.shortest d.magnitude))

/-! ### Reading -/

/-- The number nearest to a power of ten up to `1e308`. -/
def powerOfTen (n : Nat) : Magnitude :=
  (Magnitude.nearest? (Nat.pow 10 n) 1).getD 0

/-- Divides by `1e308` up to `times` times, and stops at zero. -/
def shrink : (times : Nat) → Magnitude → Magnitude
  | 0, x => x
  | times + 1, x =>
    if x = 0 then 0 else shrink times ((x.div? (powerOfTen 308)).getD 0)

/-- The magnitude read from `significand * 10 ^ exponent`; there is none above the greatest. -/
def ofScientific? (significand : Nat) (exponent : Int) : Option Magnitude := do
  let x ← Magnitude.nearest? significand 1
  if 308 < exponent then
    if x = 0 then some 0 else none
  else if 0 ≤ exponent then
    x.mul? (powerOfTen exponent.toNat)
  else
    let places := (-exponent).toNat
    let times := (places - 1) / 308
    (shrink times x).div? (powerOfTen (places - 308 * times))

end Double

end TypedPaths

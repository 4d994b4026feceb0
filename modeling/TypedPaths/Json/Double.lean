/-
TypedPaths/Json/Double.lean

Finite binary64 numbers, exactly.

Design.  The finite magnitudes of the format increase with their encoding, so a magnitude is
its position among them: the exponent field and the fraction, read as one number.  Arithmetic
is done on exact ratios of natural numbers and rounded once, by `Magnitude.nearest?`.

Main statement: `Magnitude.nearest?` gives the magnitude whose mantissa is the ratio scaled to
the format's exponent and rounded, an exact half to the even neighbour.
-/

namespace TypedPaths

/-- A finite binary64 magnitude, by its position among all of them from zero upwards. -/
abbrev Magnitude := Fin (2047 <<< 52)

instance Magnitude.instOfNat : OfNat Magnitude 0 := ⟨⟨0, by decide⟩⟩

namespace Magnitude

/-- The integer that the power of two in `exponent` scales. -/
def mantissa (x : Magnitude) : Nat :=
  if x.val < 1 <<< 52 then x.val else (1 <<< 52) + x.val % (1 <<< 52)

/-- The power of two that scales the mantissa. -/
def exponent (x : Magnitude) : Int :=
  (max (x.val >>> 52) 1 : Nat) - 1075

/-- The numerator of the exact value over `denominator`. -/
def numerator (x : Magnitude) : Nat := x.mantissa <<< x.exponent.toNat

/-- A power of two. -/
def denominator (x : Magnitude) : Nat := 1 <<< (-x.exponent).toNat

/-- The quotient rounded to the nearest integer, an exact half to the even one. -/
def divideToEven (num den : Nat) : Nat :=
  let q := num / den
  match compare (2 * (num % den)) den with
  | .lt => q
  | .eq => q + q % 2
  | .gt => q + 1

/-- The greatest power of two that is not above the ratio of two positive numbers. -/
def floorLog2 (num den : Nat) : Int :=
  let e : Int := num.log2 - den.log2
  if den <<< e.toNat ≤ num <<< (-e).toNat then e else e - 1

/-- The magnitude nearest to `num / den`, an exact half to the even mantissa; there is none
when the ratio rounds above the greatest one. -/
def nearest? (num den : Nat) : Option Magnitude :=
  if num = 0 then
    some 0
  else
    let e := max (-1074) (floorLog2 num den - 52)
    let m := divideToEven (num <<< (-e).toNat) (den <<< e.toNat)
    let position := ((e + 1074).toNat <<< 52) + m
    if h : position < 2047 <<< 52 then some ⟨position, h⟩ else none

/-- The rounded product. -/
def mul? (x y : Magnitude) : Option Magnitude :=
  nearest? (x.numerator * y.numerator) (x.denominator * y.denominator)

/-- The rounded quotient by a magnitude other than zero. -/
def div? (x y : Magnitude) : Option Magnitude :=
  nearest? (x.numerator * y.denominator) (x.denominator * y.numerator)

end Magnitude

/-- A finite binary64 number; zero has both signs. -/
structure Double where
  negative : Bool
  magnitude : Magnitude
deriving DecidableEq, Repr

namespace Double

/-- The number with a zero's sign dropped: the two zeros are one number. -/
def unsignedZero (d : Double) : Double :=
  if d.magnitude = 0 then ⟨false, 0⟩ else d

@[simp] theorem unsignedZero_unsignedZero (d : Double) :
    d.unsignedZero.unsignedZero = d.unsignedZero := by
  unfold unsignedZero
  split <;> simp_all

end Double

end TypedPaths

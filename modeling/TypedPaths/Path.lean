/-
TypedPaths/Path.lean

Paths into data, as text and as segments.

Design.  The text of a path is its segments with dots between them, and the empty text is the
path without segments.  So a path of one empty segment has no text of its own, and a segment
never holds a dot.  A segment that is the decimal text of a number below 2 ^ 64 may also stand
for a position in an array.
-/

namespace TypedPaths

namespace Path

/-! ### Segments -/

/-- Splits at every dot. -/
def splitDots : List Char → List (List Char)
  | [] => [[]]
  | c :: cs =>
    if c = '.' then [] :: splitDots cs
    else
      match splitDots cs with
      | [] => [[c]]
      | part :: parts => (c :: part) :: parts

/-- The segments of a path. -/
def segments (path : String) : List String :=
  if path = "" then [] else (splitDots path.toList).map String.ofList

/-- The text of a path with the given segments. -/
def join (segments : List String) : String := String.intercalate "." segments

/-! ### Indices -/

/-- The number that a list of decimal digits denotes. -/
def digitsValue (digits : List Char) : Nat :=
  digits.foldl (fun n c => 10 * n + (c.toNat - '0'.toNat)) 0

/-- Whether the characters are the decimal text of a number: digits, and no zero before others. -/
def isDecimal (cs : List Char) : Bool :=
  cs ≠ [] && cs.all Char.isDigit && (cs == ['0'] || cs.head? != some '0')

/-- The position that a segment stands for. -/
def index? (segment : String) : Option Nat :=
  let cs := segment.toList
  if isDecimal cs ∧ digitsValue cs < UInt64.size then some (digitsValue cs) else none

end Path

end TypedPaths

/-
TypedPaths/Shape/Text.lean

The text of a shape, in the notation of types.

Design.  Containers print their parts inside brackets, so only the items of an array need
parentheses, and they need them exactly when they are a union.  A string literal stands in single
quotes as it is; every other literal is its JSON text.
-/
import TypedPaths.Shape
import TypedPaths.Json.Text.Printer

namespace TypedPaths

/-- The name of a primitive type. -/
def Primitive.text : Primitive → String
  | .string => "string"
  | .number => "number"
  | .boolean => "boolean"
  | .bigint => "bigint"
  | .symbol => "symbol"
  | .undefined => "undefined"
  | .null => "null"

/-- The name of a kind of keys. -/
def KeyKind.text : KeyKind → String
  | .string => "string"
  | .number => "number"
  | .symbol => "symbol"

/-- The text of a literal. -/
def Literal.text (l : Literal) : String :=
  match l.value with
  | .string s => "'" ++ s ++ "'"
  | v => v.text

namespace Shape

/-- A word in front of what cannot be assigned to. -/
def readonlyText (readonly : Bool) : String := if readonly then "readonly " else ""

mutual

/-- The text of a shape. -/
def text : Shape → String
  | primitive p => p.text
  | literal v => v.text
  | any => "any"
  | unknown => "unknown"
  | never => "never"
  | array s r =>
    match s with
    | union ss => readonlyText r ++ "(" ++ String.intercalate " | " (texts ss) ++ ")[]"
    | s => readonlyText r ++ text s ++ "[]"
  | tuple ss r => readonlyText r ++ "[" ++ String.intercalate ", " (texts ss) ++ "]"
  | record i => "\x7b " ++ indexText i ++ " \x7d"
  | struct fs i =>
    match fieldTexts fs ++ indexTexts i with
    | [] => "\x7b\x7d"
    | parts => "\x7b " ++ String.intercalate "; " parts ++ " \x7d"
  | union ss => String.intercalate " | " (texts ss)
  | ref n => n

/-- The texts of shapes. -/
def texts : List Shape → List String
  | [] => []
  | s :: ss => text s :: texts ss

/-- The text of an index signature. -/
def indexText : IndexSignature Shape → String
  | ⟨ks, s, r⟩ =>
    readonlyText r ++ "[key: " ++ String.intercalate " | " (ks.map KeyKind.text) ++ "]: " ++ text s

/-- The text of an index signature if there is one. -/
def indexTexts : Option (IndexSignature Shape) → List String
  | none => []
  | some i => [indexText i]

/-- The text of a field: a symbol in brackets, a question mark after what is optional. -/
def fieldText : Field Shape → String
  | ⟨n, s, o, r, y⟩ =>
    readonlyText r ++ (if y then "[" ++ n ++ "]" else n) ++ (if o then "?" else "") ++ ": "
      ++ text s

/-- The texts of fields. -/
def fieldTexts : List (Field Shape) → List String
  | [] => []
  | f :: fs => fieldText f :: fieldTexts fs

end

end Shape

/-- The text of a field. -/
def Field.text (field : Field Shape) : String := Shape.fieldText field

end TypedPaths

/-
TypedPaths/Json/Text/Printer.lean

JSON values as text.

Design.  The compact form has no blanks.  The indented form puts every item of a container on a
line of its own, two blanks deeper than the container, and an empty container on one line.
Entries of objects are written in the order they stand.
-/
import TypedPaths.Json.Value

namespace TypedPaths.Json

/-! ### Strings -/

/-- A hexadecimal digit in lower case. -/
def hexDigit (n : Nat) : Char :=
  if n < 10 then Char.ofNat ('0'.toNat + n) else Char.ofNat ('a'.toNat + (n - 10))

/-- A character inside quotes: the quote, the backslash and control characters are escaped. -/
def escapeChar (c : Char) : List Char :=
  match c with
  | '"' => ['\\', '"']
  | '\\' => ['\\', '\\']
  | '\x08' => ['\\', 'b']
  | '\x0c' => ['\\', 'f']
  | '\n' => ['\\', 'n']
  | '\r' => ['\\', 'r']
  | '\t' => ['\\', 't']
  | c =>
    if c.toNat < 0x20 then
      ['\\', 'u', '0', '0', hexDigit (c.toNat / 16), hexDigit (c.toNat % 16)]
    else [c]

/-- A string in quotes. -/
def quote (s : String) : List Char := '"' :: s.toList.flatMap escapeChar ++ ['"']

/-- The text of a value without parts. -/
def scalarChars : Json → List Char
  | bool true => "true".toList
  | bool false => "false".toList
  | number n => n.text.toList
  | string s => quote s
  | _ => "null".toList

/-! ### The compact form -/

mutual

/-- The compact text of a value. -/
def chars : Json → List Char
  | array items => '[' :: charsItems items ++ [']']
  | object fields => '\x7b' :: charsFields fields ++ ['\x7d']
  | v => scalarChars v

/-- The items of an array with commas between them. -/
def charsItems : List Json → List Char
  | [] => []
  | [v] => chars v
  | v :: vs => chars v ++ ',' :: charsItems vs

/-- The entries of an object with commas between them. -/
def charsFields : List (String × Json) → List Char
  | [] => []
  | [(n, v)] => quote n ++ ':' :: chars v
  | (n, v) :: fs => quote n ++ ':' :: chars v ++ ',' :: charsFields fs

end

/-- The compact text of a value. -/
def text (v : Json) : String := String.ofList v.chars

/-! ### The indented form -/

/-- A new line that starts `depth` levels deep. -/
def newLine (depth : Nat) : List Char := '\n' :: List.replicate (2 * depth) ' '

mutual

/-- The indented text of a value that stands `depth` levels deep. -/
def prettyChars (depth : Nat) : Json → List Char
  | array [] => ['[', ']']
  | array (v :: vs) =>
    '[' :: newLine (depth + 1) ++ prettyItems (depth + 1) (v :: vs) ++ newLine depth ++ [']']
  | object [] => ['\x7b', '\x7d']
  | object (f :: fs) =>
    '\x7b' :: newLine (depth + 1) ++ prettyFields (depth + 1) (f :: fs) ++ newLine depth
      ++ ['\x7d']
  | v => scalarChars v

/-- The items of an array, each after the first on a new line. -/
def prettyItems (depth : Nat) : List Json → List Char
  | [] => []
  | [v] => prettyChars depth v
  | v :: vs => prettyChars depth v ++ ',' :: newLine depth ++ prettyItems depth vs

/-- The entries of an object, each after the first on a new line. -/
def prettyFields (depth : Nat) : List (String × Json) → List Char
  | [] => []
  | [(n, v)] => quote n ++ ':' :: ' ' :: prettyChars depth v
  | (n, v) :: fs =>
    quote n ++ ':' :: ' ' :: prettyChars depth v ++ ',' :: newLine depth ++ prettyFields depth fs

end

/-- The indented text of a value. -/
def prettyText (v : Json) : String := String.ofList (v.prettyChars 0)

/-- The text of a value in one of its two forms. -/
def textAs (pretty : Bool) (v : Json) : String := if pretty then v.prettyText else v.text

end TypedPaths.Json

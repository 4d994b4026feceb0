/-
TypedPaths/Text/Quoted.lean

Text in quotes, with every character visible.

Design.  Quotes and backslashes follow a backslash, and so do the letters for a line feed, a
carriage return, a tab and the null character.  Any other character that has no form of its own is
written by its number, so that two texts that look alike are told apart.
-/
import TypedPaths.Text.Unshown

namespace TypedPaths.Text

/-- A character of a quoted text. -/
def quotedChar (c : Char) : String :=
  match c with
  | '"' => "\\\""
  | '\\' => "\\\\"
  | '\n' => "\\n"
  | '\r' => "\\r"
  | '\t' => "\\t"
  | '\x00' => "\\0"
  | c =>
    if isUnshown c then "\\u\x7b" ++ String.ofList (Nat.toDigits 16 c.toNat) ++ "\x7d"
    else String.ofList [c]

/-- A text in quotes. -/
def quoted (text : String) : String :=
  "\"" ++ String.join (text.toList.map quotedChar) ++ "\""

end TypedPaths.Text

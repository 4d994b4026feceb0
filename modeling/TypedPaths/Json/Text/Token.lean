/-
TypedPaths/Json/Text/Token.lean

Tokens of JSON text.

Design.  A machine takes the text one character at a time, so that reading two texts in a row is
running the machine twice (`Lexer.run_append`).  A string or a numeral can be well formed and
still denote nothing: an escaped surrogate without its partner, a number out of range.  Such a
token is kept without a value, and it is left to the reader of the tokens whether a value is
needed.  All else that breaks the rules of the text stops the machine.
-/
import TypedPaths.Json.Number

namespace TypedPaths

/-- A token of JSON text. -/
inductive Token where
  | openBracket
  | closeBracket
  | openBrace
  | closeBrace
  | comma
  | colon
  | null
  | bool (b : Bool)
  | number (value : Option Number)
  | string (value : Option String)
deriving DecidableEq

/-! ### Characters of strings -/

namespace Surrogate

/-- The first half of a pair. -/
def isHigh (u : Nat) : Bool := 0xD800 ≤ u && u < 0xDC00

/-- The second half of a pair. -/
def isLow (u : Nat) : Bool := 0xDC00 ≤ u && u < 0xE000

/-- The text of a list of code points in which surrogates stand in pairs. -/
def decode? : List Nat → Option (List Char)
  | [] => some []
  | [u] => if isHigh u || isLow u then none else some [Char.ofNat u]
  | u :: v :: rest =>
    if isHigh u then
      if isLow v then
        (decode? rest).map (Char.ofNat (0x10000 + (u - 0xD800) * 0x400 + (v - 0xDC00)) :: ·)
      else none
    else if isLow u then none
    else (decode? (v :: rest)).map (Char.ofNat u :: ·)

end Surrogate

/-- The value of a hexadecimal digit. -/
def hexValue? (c : Char) : Option Nat :=
  if '0' ≤ c ∧ c ≤ '9' then some (c.toNat - '0'.toNat)
  else if 'a' ≤ c ∧ c ≤ 'f' then some (c.toNat - 'a'.toNat + 10)
  else if 'A' ≤ c ∧ c ≤ 'F' then some (c.toNat - 'A'.toNat + 10)
  else none

/-- The character that a backslash and a letter stand for. -/
def escaped? : Char → Option Char
  | '"' => some '"'
  | '\\' => some '\\'
  | '/' => some '/'
  | 'b' => some '\x08'
  | 'f' => some '\x0c'
  | 'n' => some '\n'
  | 'r' => some '\r'
  | 't' => some '\t'
  | _ => none

/-! ### The machine -/

namespace Lexer

/-- Where the machine stands: between tokens, or inside one with what it has read of it. -/
inductive Mode where
  | between
  /-- Inside a word of which the characters `left` are still to come. -/
  | word (left : List Char) (token : Token)
  /-- Inside a numeral; its characters from the last to the first. -/
  | numeral (read : List Char)
  /-- Inside a string; its code points from the last to the first. -/
  | string (read : List Nat)
  /-- After a backslash inside a string. -/
  | escape (read : List Nat)
  /-- Inside an escaped code point of which `left` digits are still to come. -/
  | codePoint (read : List Nat) (left : Nat) (value : Nat)
deriving DecidableEq

/-- A mode and the tokens so far, from the last to the first. -/
structure State where
  mode : Mode
  tokens : List Token
deriving DecidableEq

/-- Blanks between tokens. -/
def isBlank (c : Char) : Bool := c == ' ' || c == '\t' || c == '\n' || c == '\r'

/-- Characters that a numeral is made of. -/
def isNumeral (c : Char) : Bool :=
  c.isDigit || c == '-' || c == '+' || c == '.' || c == 'e' || c == 'E'

/-- What a character between tokens begins. -/
def start (tokens : List Token) (c : Char) : Option State :=
  match c with
  | '[' => some ⟨.between, .openBracket :: tokens⟩
  | ']' => some ⟨.between, .closeBracket :: tokens⟩
  | '\x7b' => some ⟨.between, .openBrace :: tokens⟩
  | '\x7d' => some ⟨.between, .closeBrace :: tokens⟩
  | ',' => some ⟨.between, .comma :: tokens⟩
  | ':' => some ⟨.between, .colon :: tokens⟩
  | '"' => some ⟨.string [], tokens⟩
  | 'n' => some ⟨.word ['u', 'l', 'l'] .null, tokens⟩
  | 't' => some ⟨.word ['r', 'u', 'e'] (.bool true), tokens⟩
  | 'f' => some ⟨.word ['a', 'l', 's', 'e'] (.bool false), tokens⟩
  | c =>
    if isBlank c then some ⟨.between, tokens⟩
    else if c.isDigit || c == '-' then some ⟨.numeral [c], tokens⟩
    else none

/-- Takes one character. -/
def step (s : State) (c : Char) : Option State :=
  match s.mode with
  | .between => start s.tokens c
  | .word [] _ => none
  | .word [d] token => if c = d then some ⟨.between, token :: s.tokens⟩ else none
  | .word (d :: left) token => if c = d then some ⟨.word left token, s.tokens⟩ else none
  | .numeral read =>
    if isNumeral c then some ⟨.numeral (c :: read), s.tokens⟩
    else (Numeral.ofChars? read.reverse).bind fun n => start (.number n.value? :: s.tokens) c
  | .string read =>
    if c = '"' then
      some ⟨.between,
        .string ((Surrogate.decode? read.reverse).map String.ofList) :: s.tokens⟩
    else if c = '\\' then some ⟨.escape read, s.tokens⟩
    else if c.toNat < 0x20 then none
    else some ⟨.string (c.toNat :: read), s.tokens⟩
  | .escape read =>
    if c = 'u' then some ⟨.codePoint read 4 0, s.tokens⟩
    else (escaped? c).map fun d => ⟨.string (d.toNat :: read), s.tokens⟩
  | .codePoint read left value =>
    (hexValue? c).map fun v =>
      if left = 1 then ⟨.string ((value * 16 + v) :: read), s.tokens⟩
      else ⟨.codePoint read (left - 1) (value * 16 + v), s.tokens⟩

/-- Takes a text. -/
def run (s : State) (text : List Char) : Option State := text.foldlM step s

/-- The tokens of a machine that has taken all of its text; a numeral may end there. -/
def finish (s : State) : Option (List Token) :=
  match s.mode with
  | .between => some s.tokens.reverse
  | .numeral read =>
    (Numeral.ofChars? read.reverse).map fun n => (Token.number n.value? :: s.tokens).reverse
  | _ => none

theorem run_append (s : State) (xs ys : List Char) :
    run s (xs ++ ys) = (run s xs).bind fun t => run t ys :=
  List.foldlM_append ..

end Lexer

/-- The tokens of a text. -/
def Token.ofChars? (text : List Char) : Option (List Token) :=
  (Lexer.run ⟨.between, []⟩ text).bind Lexer.finish

end TypedPaths

/-
TypedPaths/Json/Text/Tree.lean

JSON text as a tree.

Design.  `Tree.ofChars?` reads a text by the grammar alone, to any depth: entries of objects
stay in the order of the text and equal names are kept.  Containers that are still open stand on
a stack, and each token moves the machine one step.  `Tree.value?` then asks for values: every
string and number must denote one, and no value may lie inside more than a given number of
containers.  Text that is only skipped needs the first step and not the second.
-/
import TypedPaths.Json.Text.Token
import TypedPaths.Json.Value

namespace TypedPaths

/-- JSON text, taken apart by the grammar. -/
inductive Tree where
  | null
  | bool (b : Bool)
  | number (value : Option Number)
  | string (value : Option String)
  | array (items : List Tree)
  | object (fields : List (Option String × Tree))

namespace Tree

/-! ### Reading tokens -/

/-- A container that is still open, with what it holds so far from the last to the first. -/
inductive Frame where
  | array (items : List Tree)
  /-- An object that waits for the value of a name. -/
  | object (fields : List (Option String × Tree)) (name : Option String)

/-- What may come next. -/
inductive State where
  /-- A value must come. -/
  | value (stack : List Frame)
  /-- An array has just been opened: a value or its end. -/
  | firstItem (stack : List Frame)
  /-- A value inside a container is complete: a comma or the container's end. -/
  | more (frame : Frame) (value : Tree) (stack : List Frame)
  /-- An object has just been opened: a name or its end. -/
  | firstName (stack : List Frame)
  /-- A name must come. -/
  | name (fields : List (Option String × Tree)) (stack : List Frame)
  /-- A colon must come. -/
  | colon (fields : List (Option String × Tree)) (name : Option String) (stack : List Frame)
  /-- The whole value is complete. -/
  | done (value : Tree)

/-- A value is complete: it belongs to the innermost container. -/
def complete (value : Tree) : List Frame → State
  | [] => .done value
  | frame :: stack => .more frame value stack

/-- A token where a value must come. -/
def begin (stack : List Frame) : Token → Option State
  | .null => some (complete .null stack)
  | .bool b => some (complete (.bool b) stack)
  | .number n => some (complete (.number n) stack)
  | .string s => some (complete (.string s) stack)
  | .openBracket => some (.firstItem stack)
  | .openBrace => some (.firstName stack)
  | _ => none

/-- Takes one token. -/
def step : State → Token → Option State
  | .value stack, t => begin stack t
  | .firstItem stack, .closeBracket => some (complete (.array []) stack)
  | .firstItem stack, t => begin (.array [] :: stack) t
  | .more (.array items) v stack, .comma => some (.value (.array (v :: items) :: stack))
  | .more (.array items) v stack, .closeBracket =>
    some (complete (.array (v :: items).reverse) stack)
  | .more (.object fields n) v stack, .comma => some (.name ((n, v) :: fields) stack)
  | .more (.object fields n) v stack, .closeBrace =>
    some (complete (.object ((n, v) :: fields).reverse) stack)
  | .firstName stack, .closeBrace => some (complete (.object []) stack)
  | .firstName stack, .string n => some (.colon [] n stack)
  | .name fields stack, .string n => some (.colon fields n stack)
  | .colon fields n stack, .colon => some (.value (.object fields n :: stack))
  | _, _ => none

/-- The value that a list of tokens makes up. -/
def ofTokens? (tokens : List Token) : Option Tree :=
  match tokens.foldlM step (.value []) with
  | some (.done v) => some v
  | _ => none

/-- The value that a text makes up. -/
def ofChars? (text : List Char) : Option Tree := (Token.ofChars? text).bind ofTokens?

/-- The value that a text makes up. -/
def ofText? (text : String) : Option Tree := ofChars? text.toList

/-! ### Values -/

mutual

/-- The value that a tree denotes, with at most `depth` containers around each other. -/
def value? (depth : Nat) : Tree → Option Json
  | null => some .null
  | bool b => some (.bool b)
  | number n => n.map .number
  | string s => s.map .string
  | array items =>
    match depth with
    | 0 => none
    | depth + 1 => (values? depth items).map .array
  | object fields =>
    match depth with
    | 0 => none
    | depth + 1 => (entries? depth fields).map .object

/-- The values that the items of an array denote. -/
def values? (depth : Nat) : List Tree → Option (List Json)
  | [] => some []
  | t :: ts => do some ((← value? depth t) :: (← values? depth ts))

/-- The entries that an object denotes. -/
def entries? (depth : Nat) : List (Option String × Tree) → Option (List (String × Json))
  | [] => some []
  | (n, t) :: ts => do some ((← n, ← value? depth t) :: (← entries? depth ts))

end

end Tree

namespace Json

/-- How many containers of a text may lie around each other. -/
def maxDepth : Nat := 127

/-- The value of a text, with the entries of objects as they stand in it. -/
def ofTextAsWritten? (text : String) : Option Json :=
  (Tree.ofText? text).bind (Tree.value? maxDepth)

/-- The value of a text. -/
def ofText? (text : String) : Option Json := (ofTextAsWritten? text).map canonical

end Json

end TypedPaths

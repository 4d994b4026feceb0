/-
TypedPaths/Json/Parts.lean

Parts of a document, by name or by place.

Design.  A document with named parts is an object, in which unknown names are ignored and a known
name may stand only once, or an array of the parts in their declared order, in which parts at the
end may be left out.  `Parts.select?` finds the declared parts in either form, so the readers of
documents do not tell the two forms apart.
-/
import TypedPaths.Json.Value

namespace TypedPaths

/-- The parts of a document: in their declared order, or with their names. -/
inductive Parts (α : Type) where
  | listed (values : List α)
  | named (entries : List (String × α))

namespace Parts

variable {α : Type}

/-- The entry of a name, if there is one; the name must not stand twice. -/
def unique? (name : String) (entries : List (String × α)) : Option (Option α) :=
  match entries.filter (·.1 = name) with
  | [] => some none
  | [e] => some (some e.2)
  | _ :: _ :: _ => none

/-- Each of the declared parts, where it is given. -/
def select? (names : List String) : Parts α → Option (List (Option α))
  | listed values =>
    if values.length ≤ names.length then
      some (values.map some ++ List.replicate (names.length - values.length) none)
    else none
  | named entries => names.mapM fun name => unique? name entries

/-- A part that has a default where it is left out. -/
def withDefault {β : Type} (default : β) (read : α → Option β) : Option α → Option β
  | none => some default
  | some v => read v

/-- The parts of a value. -/
def ofJson? : Json → Option (Parts Json)
  | .array items => some (.listed items)
  | .object fields => some (.named fields)
  | _ => none

end Parts

namespace Json

/-- The value as a Boolean. -/
def bool? : Json → Option Bool
  | .bool b => some b
  | _ => none

/-- The value as a string. -/
def string? : Json → Option String
  | .string s => some s
  | _ => none

/-- Whether the value is a number. -/
def isNumber : Json → Bool
  | .number _ => true
  | _ => false

/-- The value as a number that is not below zero. -/
def nat? : Json → Option Nat
  | .number (.integer i) => if 0 ≤ i.val then some i.val.toNat else none
  | _ => none

/-- The value as one of a list of choices, each of them a name: the name as a string, or as the
only entry of an object with nothing in it. -/
def choice? : Json → Option String
  | .string s => some s
  | .object [(s, .null)] => some s
  | .object [(s, .object [])] => some s
  | _ => none

end Json

end TypedPaths

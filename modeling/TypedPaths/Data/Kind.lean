/-
TypedPaths/Data/Kind.lean

Kinds of data, as error messages name them.
-/
import TypedPaths.Json.Value

namespace TypedPaths

/-- What a place in data holds; `undefined` where there is nothing. -/
inductive DataKind where
  | undefined
  | null
  | boolean
  | number
  | string
  | array
  | object
deriving DecidableEq, Inhabited

namespace DataKind

/-- The kind of a value. -/
def of : Json → DataKind
  | .null => null
  | .bool _ => boolean
  | .number _ => number
  | .string _ => string
  | .array _ => array
  | .object _ => object

/-- Whether values of the kind hold other values. -/
def isContainer : DataKind → Bool
  | array => true
  | object => true
  | _ => false

/-- The name of the kind. -/
def text : DataKind → String
  | undefined => "undefined"
  | null => "null"
  | boolean => "boolean"
  | number => "number"
  | string => "string"
  | array => "array"
  | object => "object"

end DataKind

end TypedPaths

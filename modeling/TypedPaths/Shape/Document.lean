/-
TypedPaths/Shape/Document.lean

Shapes as JSON documents.

Design.  A shape is an object whose `kind` names the constructor, with the constructor's parts
beside it; flags that are false are left out.  The same parts may also be given as an array, the
kind first.  The kind of a shape inside another one may be given by its number.

What a JSON value means depends on where it stands: a shape, a list of shapes, a field, a list
of fields or an index signature.  `Reading` holds all of these at once, so reading is one fold
over the value, and the meanings of a container are put together from those of its parts.
-/
import TypedPaths.Shape.Text
import TypedPaths.Json.Parts
import TypedPaths.Json.Text.Tree

namespace TypedPaths

/-! ### Writing -/

namespace Shape

/-- A flag among the entries of an object: only a flag that is set is written. -/
def flagEntry (name : String) (flag : Bool) : List (String × Json) :=
  if flag then [(name, .bool true)] else []

/-- The entry that names the constructor. -/
def kindEntry (kind : String) : String × Json := ("kind", .string kind)

mutual

/-- The document of a shape. -/
def document : Shape → Json
  | primitive p => .object [kindEntry "primitive", ("type", .string p.text)]
  | literal v => .object [kindEntry "literal", ("value", v.value)]
  | any => .object [kindEntry "any"]
  | unknown => .object [kindEntry "unknown"]
  | never => .object [kindEntry "never"]
  | array s r => .object ([kindEntry "array", ("element", document s)] ++ flagEntry "readonly" r)
  | tuple ss r =>
    .object ([kindEntry "tuple", ("elements", .array (documents ss))] ++ flagEntry "readonly" r)
  | record i => .object (kindEntry "record" :: indexEntries i)
  | struct fs i =>
    .object ([kindEntry "struct", ("fields", .array (fieldDocuments fs))] ++ indexEntry i)
  | union ss => .object [kindEntry "union", ("members", .array (documents ss))]
  | ref n => .object [kindEntry "ref", ("$ref", .string n)]

/-- The documents of shapes. -/
def documents : List Shape → List Json
  | [] => []
  | s :: ss => document s :: documents ss

/-- The documents of fields. -/
def fieldDocuments : List (Field Shape) → List Json
  | [] => []
  | ⟨n, s, o, r, y⟩ :: fs =>
    .object ([("name", .string n), ("type", document s)] ++ flagEntry "optional" o
      ++ flagEntry "readonly" r ++ flagEntry "symbol" y) :: fieldDocuments fs

/-- The entries of the document of an index signature. -/
def indexEntries : IndexSignature Shape → List (String × Json)
  | ⟨ks, s, r⟩ =>
    [("keys", .array (ks.map fun k => .string k.text)), ("value", document s)]
      ++ flagEntry "readonly" r

/-- The entry for the index signature of a struct, if it has one. -/
def indexEntry : Option (IndexSignature Shape) → List (String × Json)
  | none => []
  | some i => [("index", .object (indexEntries i))]

end

/-- The text of the document of a shape. -/
def toJsonText (s : Shape) : String := s.document.text

end Shape

/-! ### Reading -/

/-- The primitive type of a name. -/
def Primitive.ofName? : String → Option Primitive
  | "string" => some .string
  | "number" => some .number
  | "boolean" => some .boolean
  | "bigint" => some .bigint
  | "symbol" => some .symbol
  | "undefined" => some .undefined
  | "null" => some .null
  | _ => none

/-- The kind of keys of a name. -/
def KeyKind.ofName? : String → Option KeyKind
  | "string" => some .string
  | "number" => some .number
  | "symbol" => some .symbol
  | _ => none

/-- The kinds of keys that a value lists. -/
def KeyKind.list? : Json → Option (List KeyKind)
  | .array items => items.mapM fun v => v.choice?.bind KeyKind.ofName?
  | _ => none

/-- What a JSON value means at each place of a document where it may stand. -/
structure Reading where
  json : Json
  shape : Option Shape := none
  shapes : Option (List Shape) := none
  field : Option (Field Shape) := none
  fields : Option (List (Field Shape)) := none
  index : Option (IndexSignature Shape) := none

namespace Reading

/-- A flag among the parts, `false` where it is left out. -/
def flag? : Option Reading → Option Bool := Parts.withDefault false fun r => r.json.bool?

/-- The names of the constructors, in the order of their numbers. -/
def kinds : List String :=
  ["primitive", "literal", "any", "unknown", "never", "array", "tuple", "record", "struct",
    "union", "ref"]

/-- The name of the constructor that a value gives, as it is or by its number. -/
def kind? (r : Reading) : Option String :=
  match r.json with
  | .string s => some s
  | v => v.nat?.bind fun n => kinds[n]?

/-- An index signature of its parts. -/
def indexOfParts? (parts : Parts Reading) : Option (IndexSignature Shape) := do
  let [some keys, some value, readonly] ← parts.select? ["keys", "value", "readonly"] | none
  some ⟨← KeyKind.list? keys.json, ← value.shape, ← flag? readonly⟩

/-- The index signature of a struct, if there is one. -/
def optionalIndex? : Option Reading → Option (Option (IndexSignature Shape)) :=
  Parts.withDefault none fun r => if r.json = .null then some none else r.index.map some

/-- A field of its parts. -/
def fieldOfParts? (parts : Parts Reading) : Option (Field Shape) := do
  let [some name, some type, optional, readonly, symbol] ←
    parts.select? ["name", "type", "optional", "readonly", "symbol"] | none
  some ⟨← name.json.string?, ← type.shape, ← flag? optional, ← flag? readonly, ← flag? symbol⟩

/-- A shape without parts. -/
def plain? (s : Shape) : Parts Reading → Option Shape
  | .listed (_ :: _) => none
  | _ => some s

/-- A shape of the name of its constructor and its parts. -/
def shapeOfParts? (kind : String) (parts : Parts Reading) : Option Shape :=
  match kind with
  | "primitive" => do
    let [some type] ← parts.select? ["type"] | none
    some (.primitive (← type.json.choice?.bind Primitive.ofName?))
  | "literal" => do
    let [some value] ← parts.select? ["value"] | none
    some (.literal (.ofJson value.json))
  | "any" => plain? .any parts
  | "unknown" => plain? .unknown parts
  | "never" => plain? .never parts
  | "array" => do
    let [some element, readonly] ← parts.select? ["element", "readonly"] | none
    some (.array (← element.shape) (← flag? readonly))
  | "tuple" => do
    let [some elements, readonly] ← parts.select? ["elements", "readonly"] | none
    some (.tuple (← elements.shapes) (← flag? readonly))
  | "record" => (indexOfParts? parts).map .record
  | "struct" => do
    let [fields, index] ← parts.select? ["fields", "index"] | none
    some (.struct (← Parts.withDefault [] Reading.fields fields) (← optionalIndex? index))
  | "union" => do
    let [some members] ← parts.select? ["members"] | none
    some (.union (← members.shapes))
  | "ref" => do
    let [some name] ← parts.select? ["$ref"] | none
    some (.ref (← name.json.string?))
  | _ => none

/-- The meanings of an array. -/
def ofItems (json : Json) (items : List Reading) : Reading where
  json
  shape :=
    match items with
    | [] => none
    | kind :: parts => kind.kind?.bind fun k => shapeOfParts? k (.listed parts)
  shapes := items.mapM shape
  field := fieldOfParts? (.listed items)
  fields := items.mapM field
  index := indexOfParts? (.listed items)

/-- The meanings of an object. -/
def ofEntries (json : Json) (entries : List (String × Reading)) : Reading where
  json
  shape := do
    let kind ← (← Parts.unique? "kind" entries)
    shapeOfParts? (← kind.kind?) (.named entries)
  field := fieldOfParts? (.named entries)
  index := indexOfParts? (.named entries)

mutual

/-- The meanings of a value. -/
def of : Json → Reading
  | .array items => ofItems (.array items) (ofList items)
  | .object fields => ofEntries (.object fields) (ofFields fields)
  | v => { json := v }

/-- The meanings of items. -/
def ofList : List Json → List Reading
  | [] => []
  | v :: vs => of v :: ofList vs

/-- The meanings of the values of entries. -/
def ofFields : List (String × Json) → List (String × Reading)
  | [] => []
  | (n, v) :: fs => (n, of v) :: ofFields fs

end

end Reading

namespace Shape

/-- Whether the kind of a document is given by its number. -/
def hasNumberedKind : Json → Bool
  | .array (kind :: _) => kind.isNumber
  | .object fields => fields.any fun f => f.1 == "kind" && f.2.isNumber
  | _ => false

/-- The shape of a document. -/
def ofDocument? (v : Json) : Option Shape :=
  if hasNumberedKind v then none else (Reading.of v).shape

/-- The shape of the text of a document. -/
def ofText? (text : String) : Option Shape := (Json.ofTextAsWritten? text).bind ofDocument?

end Shape

end TypedPaths

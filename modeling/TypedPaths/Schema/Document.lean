/-
TypedPaths/Schema/Document.lean

Schemas as JSON documents.

Design.  A schema has the parts `root` and `definitions`; the latter may be left out, and is left
out where there are none.  A part that a schema does not have is skipped: it has to keep to the
grammar of JSON, and nothing else is asked of it.
-/
import TypedPaths.Schema
import TypedPaths.Shape.Document

namespace TypedPaths.Schema

/-! ### Writing -/

/-- The document of a schema. -/
def document (schema : Schema) : Json :=
  .object <| ("root", schema.root.document) ::
    if schema.definitions.isEmpty then []
    else [("definitions", .object (Entries.mapValues Shape.document schema.definitions.entries))]

/-- The compact text of the document. -/
def toJsonText (schema : Schema) : String := schema.document.text

/-- The indented text of the document. -/
def toPrettyJsonText (schema : Schema) : String := schema.document.prettyText

/-! ### Reading -/

/-- The parts of a document that has been read by the grammar alone. -/
def partsOfTree? : Tree → Option (Parts Tree)
  | .array items => some (.listed items)
  | .object fields => do some (.named (← fields.mapM fun f => f.1.map fun n => (n, f.2)))
  | _ => none

/-- The value of a part of a document, which lies inside one container. -/
def partValue? (part : Tree) : Option Json := part.value? (Json.maxDepth - 1)

/-- The definitions of a part of a document; of several of one name, the last. -/
def definitionsOfTree? : Option Tree → Option (SortedMap Shape)
  | none => some .empty
  | some part =>
    match partValue? part with
    | some (.object fields) =>
      do some (.ofList (← fields.mapM fun f => (Shape.ofDocument? f.2).map fun s => (f.1, s)))
    | _ => none

/-- The schema of the text of a document, valid or not. -/
def ofText? (text : String) : Option Schema := do
  let parts ← partsOfTree? (← Tree.ofText? text)
  let [some root, definitions] ← parts.select? ["root", "definitions"] | none
  let root ← partValue? root
  some ⟨← Shape.ofDocument? root, ← definitionsOfTree? definitions⟩

/-- The valid schema of the text of a document. -/
def ofText (text : String) : Except Error Schema :=
  match ofText? text with
  | some schema => schema.validate.map fun _ => schema
  | none => .error .json

end TypedPaths.Schema

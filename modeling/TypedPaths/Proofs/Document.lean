/-
TypedPaths/Proofs/Document.lean

Shapes and schemas read back from their documents.

Design.  The document of a shape is read at every place where a shape may stand: alone, in a list,
in a field, in an index signature.  The induction goes over these places at once
(`Reading.shape_document` and the theorems beside it), as writing and reading do.  A flag that is
left out is read as a flag that is not set, so the proofs tell the cases of a flag apart.

A schema is read from the tree of its text, one part at a time.  Each part lies one level deeper
than the document, which is why the depth of the document is all that has to be bounded.

Main results: `Shape.ofDocument?_document`, `Schema.ofText?_of_lexes`, and together
`documents_read_back`.
-/
import TypedPaths.Schema.Document
import TypedPaths.Proofs.Parsing

namespace TypedPaths

/-! ### Names -/

@[simp] theorem Primitive.ofName?_text (p : Primitive) : ofName? p.text = some p := by
  cases p <;> rfl

@[simp] theorem KeyKind.ofName?_text (k : KeyKind) : ofName? k.text = some k := by
  cases k <;> rfl

theorem KeyKind.list?_texts (ks : List KeyKind) :
    list? (.array (ks.map fun k => .string k.text)) = some ks := by
  induction ks with
  | nil => rfl
  | cons k ks ih =>
    rw [list?] at ih ⊢
    rw [List.map_cons, List.mapM_cons, ih]
    simp [Json.choice?]

/-! ### Parts of an object -/

/-- The only entry of a name is found under it. -/
theorem Parts.unique?_cons_self {α : Type} {name : String} {entries : List (String × α)}
    (h : unique? name entries = some none) (a : α) :
    unique? name ((name, a) :: entries) = some (some a) := by
  have hrest : entries.filter (·.1 = name) = [] := by
    unfold unique? at h
    split at h
    · assumption
    · cases h
    · cases h
  simp [unique?, hrest]

namespace Reading

attribute [simp] Parts.unique? Parts.select? Parts.withDefault ofFields Shape.flagEntry

@[simp] theorem of_json (v : Json) : (of v).json = v := by
  cases v <;> rfl

@[simp] theorem flag?_none : flag? none = some false := rfl

@[simp] theorem flag?_bool (b : Bool) : flag? (some (of (.bool b))) = some b := rfl

/-- The entry that names the constructor of a shape is none of the shape's parts. -/
theorem shapeOfParts?_cons_kind (kind : String) (r : Reading) (entries : List (String × Reading)) :
    shapeOfParts? kind (.named (("kind", r) :: entries)) = shapeOfParts? kind (.named entries) := by
  unfold shapeOfParts?
  -- each constructor asks for its parts by their names, and none of them is this one
  split <;> rfl

/-- An object that names a constructor is read as the shape of its other entries. -/
theorem shape_object (kind : String) {parts : List (String × Json)}
    (h : Parts.unique? "kind" (ofFields parts) = some none) :
    (of (.object (Shape.kindEntry kind :: parts))).shape =
      shapeOfParts? kind (.named (ofFields parts)) := by
  have hkind := Parts.unique?_cons_self h (of (.string kind))
  rw [← shapeOfParts?_cons_kind kind (of (.string kind))]
  simp only [Shape.kindEntry, of, ofEntries, ofFields] at hkind ⊢
  rw [hkind]
  rfl

/-! ### Shapes -/

mutual

/-- The document of a shape is read as the shape. -/
theorem shape_document : ∀ s : Shape, (of s.document).shape = some s
  | .primitive p => by
    refine (shape_object "primitive" rfl).trans ?_
    simp [shapeOfParts?, Json.choice?]
  | .literal l => by
    refine (shape_object "literal" rfl).trans ?_
    simp [shapeOfParts?]
  | .any => rfl
  | .unknown => rfl
  | .never => rfl
  | .array s r => by
    have hs := shape_document s
    refine (shape_object "array" (by cases r <;> rfl)).trans ?_
    cases r <;> simp [shapeOfParts?, hs]
  | .tuple ss r => by
    have hss := shapes_documents ss
    refine (shape_object "tuple" (by cases r <;> rfl)).trans ?_
    cases r <;> simp [shapeOfParts?, hss]
  | .record ⟨ks, s, r⟩ => by
    have hi := index_entries ⟨ks, s, r⟩
    refine (shape_object "record" (by cases r <;> rfl)).trans ?_
    exact congrArg (Option.map Shape.record) hi
  | .struct fs none => by
    have hfs := fields_documents fs
    refine (shape_object "struct" rfl).trans ?_
    simp [shapeOfParts?, optionalIndex?, Shape.indexEntry, hfs]
  | .struct fs (some i) => by
    have hfs := fields_documents fs
    have hi := index_entries i
    refine (shape_object "struct" rfl).trans ?_
    simp [shapeOfParts?, optionalIndex?, Shape.indexEntry, hfs, hi]
  | .union ss => by
    have hss := shapes_documents ss
    refine (shape_object "union" rfl).trans ?_
    simp [shapeOfParts?, hss]
  | .ref n => by
    refine (shape_object "ref" rfl).trans ?_
    simp [shapeOfParts?, Json.string?]

theorem shapes_documents : ∀ ss : List Shape, (of (.array (Shape.documents ss))).shapes = some ss
  | [] => rfl
  | s :: ss => by
    have hss := shapes_documents ss
    simp only [of, ofItems, Shape.documents, ofList] at hss ⊢
    simp [shape_document s, hss]

theorem fields_documents : ∀ fs : List (Field Shape),
    (of (.array (Shape.fieldDocuments fs))).fields = some fs
  | [] => rfl
  | ⟨n, s, o, r, y⟩ :: fs => by
    have hs := shape_document s
    have hfs := fields_documents fs
    simp only [of, ofItems, Shape.fieldDocuments, ofList, ofEntries] at hfs ⊢
    cases o <;> cases r <;> cases y <;> simp [fieldOfParts?, Json.string?, hs, hfs]

theorem index_entries : ∀ i : IndexSignature Shape,
    (of (.object (Shape.indexEntries i))).index = some i
  | ⟨ks, s, r⟩ => by
    have hs := shape_document s
    have hks := KeyKind.list?_texts ks
    simp only [of, ofEntries, Shape.indexEntries]
    cases r <;> simp [indexOfParts?, hs, hks]

end

end Reading

namespace Shape

/-- A document names its constructor by a string. -/
theorem hasNumberedKind_document (s : Shape) : hasNumberedKind s.document = false := by
  cases s with
  | array s r => cases r <;> rfl
  | tuple ss r => cases r <;> rfl
  | record i => cases i with | mk ks s r => cases r <;> rfl
  | struct fs i => cases i <;> rfl
  | _ => rfl

/-- Reading undoes writing, for the documents of shapes. -/
theorem ofDocument?_document (s : Shape) : ofDocument? s.document = some s := by
  rw [ofDocument?, hasNumberedKind_document]
  exact Reading.shape_document s

end Shape

/-! ### Schemas -/

namespace Schema

variable {schema : Schema} {text : String}

/-- An object has its entries as parts. -/
theorem partsOfTree?_object (fields : List (String × Json)) :
    partsOfTree? (Tree.ofJson (.object fields)) =
      some (.named (Entries.mapValues Tree.ofJson fields)) := by
  have hfields : (Tree.ofFields fields).mapM (fun f => f.1.map fun n => (n, f.2)) =
      some (Entries.mapValues Tree.ofJson fields) := by
    induction fields with
    | nil => rfl
    | cons f fs ih => simp [Tree.ofFields, ih, Entries.mapValues]
  simp [Tree.ofJson, partsOfTree?, hfields]

/-- A part of a schema is read from its tree if it is less deep than the limit. -/
theorem partValue?_ofJson {v : Json} (h : v.depth < Json.maxDepth) :
    partValue? (Tree.ofJson v) = some v := by
  rw [partValue?, Tree.value?_ofJson, if_pos (Nat.le_sub_one_of_lt h)]

/-- The definitions of a schema are read from their documents. -/
theorem definitionsOfTree?_object (definitions : SortedMap Shape)
    (h : (Json.object (Entries.mapValues Shape.document definitions.entries)).depth <
      Json.maxDepth) :
    definitionsOfTree? (some (Tree.ofJson
      (.object (Entries.mapValues Shape.document definitions.entries)))) = some definitions := by
  have hentries : ∀ entries : List (String × Shape),
      (Entries.mapValues Shape.document entries).mapM
        (fun f => (Shape.ofDocument? f.2).map fun s => (f.1, s)) = some entries := by
    intro entries
    induction entries with
    | nil => rfl
    | cons e es ih =>
      rw [Entries.mapValues] at ih ⊢
      simp [ih, Shape.ofDocument?_document]
  simp [definitionsOfTree?, partValue?_ofJson h, hentries]

/-- A schema is read from its parts. -/
theorem ofText?_of_parts {fields : List (String × Json)} {root : Shape}
    {part : Option Tree} {definitions : SortedMap Shape}
    (htext : Tree.ofText? text = some (Tree.ofJson (.object fields)))
    (hparts : (Parts.named (Entries.mapValues Tree.ofJson fields)).select?
      ["root", "definitions"] = some [some (Tree.ofJson root.document), part])
    (hroot : root.document.depth < Json.maxDepth)
    (hpart : definitionsOfTree? part = some definitions) :
    ofText? text = some ⟨root, definitions⟩ := by
  simp only [ofText?, htext, partsOfTree?_object, hparts, Option.bind_eq_bind, Option.bind_some,
    partValue?_ofJson hroot, Shape.ofDocument?_document, hpart]

/-- Reading undoes writing, for the documents of schemas that are not too deep. -/
theorem ofText?_of_lexes (htext : Lexer.Lexes text.toList schema.document.tokens)
    (hdepth : schema.document.depth ≤ Json.maxDepth) : ofText? text = some schema := by
  have htree := Tree.ofText?_of_lexes htext
  obtain ⟨root, ⟨entries, hincreasing⟩⟩ := schema
  cases entries with
  | nil =>
    have hroot : root.document.depth < Json.maxDepth := by
      simpa [document, SortedMap.isEmpty, Json.depth, Json.depthFields, Nat.succ_le_iff]
        using hdepth
    exact ofText?_of_parts htree rfl hroot rfl
  | cons e es =>
    have hdepths : root.document.depth < Json.maxDepth ∧
        (Json.object (Entries.mapValues Shape.document (e :: es))).depth < Json.maxDepth := by
      simpa [document, SortedMap.isEmpty, Json.depth, Json.depthFields, Nat.succ_le_iff,
        Nat.max_lt] using hdepth
    have hdefinitions := definitionsOfTree?_object ⟨e :: es, hincreasing⟩ hdepths.2
    exact ofText?_of_parts htree rfl hdepths.1 hdefinitions

/-- A text made of the tokens of a valid schema is read as the schema, if it is not too deep. -/
theorem ofText_of_lexes (htext : Lexer.Lexes text.toList schema.document.tokens)
    (hdepth : schema.document.depth ≤ Json.maxDepth) (hvalid : schema.Valid) :
    ofText text = .ok schema := by
  rw [ofText, ofText?_of_lexes htext hdepth]
  show schema.validate.map (fun _ => schema) = _
  rw [hvalid]
  rfl

end Schema

/-! ### Both kinds of documents -/

/-- A valid schema is read back from either text of its document, and a shape from the text of its
own, if the text is not too deep and the binary64 numbers in it are read back. -/
theorem documents_read_back :
    (∀ schema : Schema, schema.Valid → schema.document.depth ≤ Json.maxDepth →
      (∀ d ∈ schema.document.doubles, d.ReadsBack) →
      Schema.ofText schema.toJsonText = .ok schema ∧
        Schema.ofText schema.toPrettyJsonText = .ok schema) ∧
    ∀ s : Shape, s.document.depth ≤ Json.maxDepth → (∀ d ∈ s.document.doubles, d.ReadsBack) →
      Shape.ofText? s.toJsonText = some s := by
  refine ⟨fun schema hvalid hdepth hdoubles => ⟨?_, ?_⟩, fun s hdepth hdoubles => ?_⟩
  · have htext := Json.lexes_textAs hdoubles false
    exact Schema.ofText_of_lexes htext hdepth hvalid
  · have htext := Json.lexes_textAs hdoubles true
    exact Schema.ofText_of_lexes htext hdepth hvalid
  · have htext := Json.lexes_textAs hdoubles false
    have hread := Json.ofTextAsWritten?_of_lexes htext
    rw [if_pos hdepth] at hread
    show (Json.ofTextAsWritten? (s.document.textAs false)).bind Shape.ofDocument? = _
    rw [hread]
    exact Shape.ofDocument?_document s

/-- A recursive schema with a definition, flags, an index signature beside fields, and literals. -/
def Schema.nodes : Schema where
  root := .struct
    [{ name := "größe", optional := true,
       shape := .literal (.ofJson (.number (.double ⟨true, 0⟩))) },
     { name := "\"next\"\n", readonly := true, shape := .ref "node" },
     { name := "tag", symbol := true, shape := .literal (.ofJson (.object [("kind", .null)])) }]
    (some { keys := [.number, .symbol], readonly := true,
            value := .union [.ref "node", .primitive .null] })
  definitions := .ofList
    [("node", .struct [{ name := "all", shape := .array (.ref "node") true }] none)]

theorem documents_read_back_nodes :
    Schema.nodes.Valid ∧ Schema.nodes.document.depth = 7 ∧
      (∀ d ∈ Schema.nodes.document.doubles, d.ReadsBack) ∧
      Schema.ofText Schema.nodes.toJsonText = .ok Schema.nodes ∧
      Schema.ofText Schema.nodes.toPrettyJsonText = .ok Schema.nodes ∧
      Shape.ofText? Schema.nodes.root.toJsonText = some Schema.nodes.root := by
  have hvalid : Schema.nodes.Valid := by decide +kernel
  have hdepth : Schema.nodes.document.depth = 7 := by decide +kernel
  have hdoubles : ∀ d ∈ Schema.nodes.document.doubles, d.ReadsBack := by decide +kernel
  have hschema := documents_read_back.1 Schema.nodes hvalid (by rw [hdepth]; decide) hdoubles
  have hshape := documents_read_back.2 Schema.nodes.root (by decide +kernel) (by decide +kernel)
  exact ⟨hvalid, hdepth, hdoubles, hschema.1, hschema.2, hshape⟩

end TypedPaths

/-
TypedPaths/CommandLine/Run.lean

Running a command.

Design.  A command reads texts through a function that gives the text of a source or the reason
why there is none, and its outcome says what it prints, whether it fails, and which file it
writes.  So a run is a value, and the program around it only moves texts in and out.
-/
import TypedPaths.CommandLine.Help
import TypedPaths.Catalog
import TypedPaths.Schema.Document
import TypedPaths.Text.Quoted

namespace TypedPaths.CommandLine

/-! ### Failures -/

/-- A failure: what could not be done, and for what reasons, the nearest first. -/
structure Failure where
  message : String
  causes : List String := []
deriving DecidableEq

namespace Failure

/-- The failure of an operation. -/
def ofError (e : Error) : Failure :=
  ⟨e.message, if e = .json then [Error.jsonDetails] else []⟩

/-- The failure of what asked for something that failed. -/
def within (message : String) (inner : Failure) : Failure :=
  ⟨message, inner.message :: inner.causes⟩

/-- A cause behind a label, with its further lines below its first. -/
def causeText (label cause : String) : String :=
  let blanks := String.ofList (List.replicate label.length ' ')
  label ++ String.intercalate ("\n" ++ blanks) (cause.splitOn "\n") ++ "\n"

/-- The texts of the causes, numbered if there are several. -/
def causeTexts : List String → List String
  | [cause] => [causeText "    " cause]
  | causes => causes.zipIdx.map fun (cause, i) => causeText ("    " ++ toString i ++ ": ") cause

/-- The report of a failure. -/
def report (f : Failure) : String :=
  "Error: " ++ f.message ++ "\n"
    ++ (if f.causes = [] then "" else "\nCaused by:\n" ++ String.join (causeTexts f.causes))

end Failure

/-! ### Outcomes -/

/-- What a command wants done: what is printed, how it fails, and which file is written.  Carrying
an outcome out may fail as well, if the system does not let the file be written; that is no part of
the outcome. -/
structure Outcome where
  stdout : String := ""
  failure : Option Failure := none
  /-- The file that is written, and its new text. -/
  written : Option (String × String) := none
deriving DecidableEq

namespace Outcome

/-- Prints a line. -/
def line (text : String) : Outcome := { stdout := text ++ "\n" }

/-- Fails before anything is printed. -/
def fail (f : Failure) : Outcome := { failure := some f }

/-- The outcome of what may fail before anything is printed. -/
def ofExcept : Except Failure Outcome → Outcome
  | .ok outcome => outcome
  | .error f => fail f

/-- The code with which the program ends if the outcome can be carried out. -/
def code (outcome : Outcome) : Nat := if outcome.failure.isSome then 1 else 0

/-- What is printed as an error. -/
def stderr (outcome : Outcome) : String :=
  match outcome.failure with
  | some f => f.report
  | none => ""

end Outcome

/-- Gives the text of a source, or the reason why there is none. -/
abbrev Reader := Source → Except String String

/-! ### Texts -/

/-- The text of a source. -/
def readSource (read : Reader) (source : Source) : Except Failure String :=
  match read source with
  | .ok text => .ok text
  | .error cause =>
    let what := match source with
      | .standardInput => "from stdin"
      | .file name => Text.quoted name
    .error ⟨"Failed to read " ++ what, [cause]⟩

/-- The value that a source holds. -/
def readData (read : Reader) (source : Source) : Except Failure Json := do
  match Json.ofText? (← readSource read source) with
  | some v => .ok v
  | none => .error ⟨"Failed to parse " ++ Text.quoted source.name, [Error.jsonDetails]⟩

/-- The catalog of the schema that a source holds. -/
def readCatalog (read : Reader) (source : Source) : Except Failure Catalog := do
  let text ← readSource read source
  match Schema.ofText text >>= Catalog.ofSchema with
  | .ok catalog => .ok catalog
  | .error e =>
    .error ((Failure.ofError e).within ("Failed to load schema " ++ Text.quoted source.name))

/-- The catalog of the schema in a file, if one is given. -/
def readGuard (read : Reader) : Option String → Except Failure (Option Catalog)
  | none => .ok none
  | some name => (readCatalog read (.file name)).map some

/-- The value that an argument denotes: a JSON text, or else the argument itself as a string. -/
def argumentValue (arg : String) : Json := (Json.ofText? arg).getD (.string arg)

/-! ### Commands -/

/-- The result of an operation. -/
def attempt {α : Type} (result : Except Error α) : Except Failure α :=
  result.mapError Failure.ofError

/-- Lists the paths of a schema. -/
def runPaths (read : Reader) (pretty : Bool) (schema : Source) (options : ListingOptions)
    (offset : Option String) (json : Bool) : Except Failure Outcome := do
  let catalog ← readCatalog read schema
  let set ← attempt <| match offset with
    | some offset => catalog.completions offset options
    | none => catalog.paths options
  let texts := set.toList.map Pattern.text
  .ok <| .line <|
    if json then (Json.array (texts.map .string)).textAs pretty
    else String.intercalate "\n" texts

/-- Shows the shape of the value at a path. -/
def runType (read : Reader) (pretty : Bool) (schema : Source) (path : String)
    (marks : AbsenceMarks) (json : Bool) : Except Failure Outcome := do
  let catalog ← readCatalog read schema
  let s ← attempt (catalog.valueType marks path)
  .ok (.line (if json then s.document.textAs pretty else s.text))

/-- The verdict on a path. -/
def verdict (catalog : Catalog) (writable : Bool) (path : String) : Except Error Unit :=
  if writable then catalog.checkWritable path {} else catalog.check path {}

/-- The line on a path. -/
def verdictLine (path : String) : Except Error Unit → String
  | .ok () => "Valid: " ++ path ++ "\n"
  | .error e => "Invalid: " ++ e.message ++ "\n"

/-- Checks paths: one line for each, and a failure that counts those which are not valid. -/
def runCheck (read : Reader) (schema : Source) (paths : List String) (writable : Bool) :
    Except Failure Outcome := do
  let catalog ← readCatalog read schema
  let verdicts := paths.map fun path => (path, verdict catalog writable path)
  let failures := verdicts.countP fun v => !v.2.isOk
  .ok
    { stdout := String.join (verdicts.map fun v => verdictLine v.1 v.2)
      failure :=
        if failures = 0 then none
        else some ⟨toString failures ++ " of " ++ toString paths.length ++ " paths failed", []⟩ }

/-- Shows the value at a path. -/
def runGet (read : Reader) (pretty : Bool) (input : Source) (path : String)
    (schema : Option String) : Except Failure Outcome := do
  let data ← readData read input
  let guard ← readGuard read schema
  let found ← match guard with
    | some catalog => attempt (catalog.get data path {})
    | none => .ok (data.get? path)
  match found with
  | some v => .ok (.line (v.textAs pretty))
  | none => .error ⟨"No value at `" ++ path ++ "`", []⟩

/-- Writes a value at a path, and prints the data or puts it into its file. -/
def runSet (read : Reader) (pretty : Bool) (input : Source) (path value : String)
    (schema : Option String) (inPlace : Bool) : Except Failure Outcome := do
  if inPlace ∧ input = .standardInput then
    .error ⟨"--in-place needs an input file, not stdin", []⟩
  let data ← readData read input
  let guard ← readGuard read schema
  let written ← attempt <| match guard with
    | some catalog => catalog.set data path (argumentValue value) {}
    | none => data.set path (argumentValue value)
  let text := written.textAs pretty
  .ok (if inPlace then { written := some (input.name, text ++ "\n") } else .line text)

/-- Validates a schema. -/
def runValidate (read : Reader) (schema : String) : Except Failure Outcome := do
  match Schema.ofText (← readSource read (.file schema)) with
  | .ok s =>
    .ok (.line ("Valid: " ++ s.root.text ++ " (" ++ toString s.definitions.size
      ++ " definitions)"))
  | .error e => .error ⟨"Invalid: " ++ e.message, []⟩

namespace Invocation

/-- Runs a command. -/
def run (invocation : Invocation) (read : Reader) : Outcome :=
  .ofExcept <|
    match invocation.command with
    | .paths schema options offset json =>
      runPaths read invocation.pretty schema options offset json
    | .type schema path marks json => runType read invocation.pretty schema path marks json
    | .check schema paths writable => runCheck read schema paths writable
    | .get input path schema => runGet read invocation.pretty input path schema
    | .set input path value schema inPlace =>
      runSet read invocation.pretty input path value schema inPlace
    | .validate schema => runValidate read schema

end Invocation

namespace Command

/-- The sources that a command may read. -/
def sources : Command → List Source
  | paths schema _ _ _ => [schema]
  | type schema _ _ _ => [schema]
  | check schema _ _ => [schema]
  | get input _ schema => input :: schema.toList.map .file
  | set input _ _ schema _ => input :: schema.toList.map .file
  | validate schema => [.file schema]

end Command

end TypedPaths.CommandLine

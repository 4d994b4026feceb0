/-
TypedPaths/Session.lean

Sessions: a catalog and data, asked again and again.

Design.  A session remembers the listings of the root that it has made, since they are the same
for every call with the same options.  An action on a session may fail, and what it has remembered
until then stays; the data change in a single place, at the end of a write that succeeds.

Only the root is remembered.  What continues a path of two segments or more is listed anew each
time, and a path whose parent leads nowhere is refused before anything is listed.
-/
import TypedPaths.Catalog

namespace TypedPaths

/-- A catalog with data, and the listings of the root made so far. -/
structure Session where
  catalog : Catalog
  data : Json := .null
  listings : List (ListingOptions × PatternSet) := []

/-- What a session is asked. -/
inductive Call where
  | paths (options : ListingOptions)
  | completions (offset : String) (options : ListingOptions)
  | check (path : String) (options : ListingOptions)
  | checkWritable (path : String) (options : ListingOptions)
  | valueType (path : String) (marks : AbsenceMarks)
  | get (path : String) (options : ListingOptions)
  | set (path : String) (value : Json) (options : ListingOptions)
deriving DecidableEq

/-- What a session answers. -/
inductive Reply where
  | patterns (set : PatternSet)
  | allowed
  | shape (s : Shape)
  | found (v : Option Json)
  | failed (e : Error)
deriving DecidableEq

namespace Session

/-- What is done with a session: it may fail, and leaves a session in either case. -/
abbrev Action (α : Type) := ExceptT Error (StateM Session) α

/-- What the catalog alone says. -/
def ofCatalog {α : Type} (result : Catalog → Except Error α) : Action α := do
  result (← get).catalog

/-! ### Listings and checks -/

/-- The listing of the root that is remembered for the options. -/
def listing? (s : Session) (options : ListingOptions) : Option PatternSet :=
  (s.listings.find? (·.1 = options)).map (·.2)

/-- The session that remembers a listing of the root for the options. -/
def remember (s : Session) (options : ListingOptions) (set : PatternSet) : Session :=
  { s with listings := (options, set) :: s.listings }

/-- The listing of the root: the one remembered, or else a new one, which is remembered. -/
def paths (options : ListingOptions) : Action PatternSet := do
  match (← get).listing? options with
  | some set => return set
  | none =>
    let set ← ofCatalog (·.paths options)
    modify (·.remember options set)
    return set

/-- The paths that continue a partial path; below the root they are those of the root. -/
def completions (offset : String) (options : ListingOptions) : Action PatternSet :=
  if (Path.segments offset).length < 2 then paths options
  else ofCatalog (·.schema.completions offset options)

/-- Checks that a path is among those that continue it. -/
def checkListed (path : String) (options : ListingOptions) (failure : Error) : Action Unit := do
  if (← completions path options).contains path then return
  else throw failure

/-- Checks that the schema allows a path; the empty path is always allowed. -/
def check (path : String) (options : ListingOptions) : Action Unit := do
  if Path.segments path = [] then return
  else
    ofCatalog fun catalog =>
      if (catalog.schema.resolveParent (Path.segments path).dropLast).isNone then
        .error (.invalidPath path)
      else .ok ()
    checkListed path options (.invalidPath path)

/-- Checks that the schema allows a path and that it can be assigned to. -/
def checkWritable (path : String) (options : ListingOptions) : Action Unit := do
  if path = "" then throw .emptyPath
  else
    check path options
    checkListed path options.writable (.readonlyPath path)

/-! ### Calls -/

/-- The value at a path that the schema allows. -/
def read (path : String) (options : ListingOptions) : Action (Option Json) := do
  check path options
  return (← get).data.get? path

/-- Puts a value at a path of the data, whatever the schema says. -/
def put (path : String) (value : Json) : Action Unit := do
  let data ← (← get).data.set path value
  modify fun s => { s with data }

/-- Puts a value at a path that the schema allows to assign to. -/
def write (path : String) (value : Json) (options : ListingOptions) : Action Unit := do
  checkWritable path options
  put path value

/-- What a call does. -/
def act : Call → Action Reply
  | .paths options => return .patterns (← paths options)
  | .completions offset options => return .patterns (← completions offset options)
  | .check path options => do check path options; return .allowed
  | .checkWritable path options => do checkWritable path options; return .allowed
  | .valueType path marks => return .shape (← ofCatalog (·.valueType marks path))
  | .get path options => return .found (← read path options)
  | .set path value options => do write path value options; return .allowed

/-- Answers a call. -/
def step (s : Session) (call : Call) : Session × Reply :=
  match (act call).run.run s with
  | (.ok reply, next) => (next, reply)
  | (.error e, next) => (next, .failed e)

/-- Answers calls one after another. -/
def run (s : Session) : List Call → Session × List Reply
  | [] => (s, [])
  | call :: calls =>
    let (next, reply) := s.step call
    let (last, replies) := next.run calls
    (last, reply :: replies)

end Session

end TypedPaths

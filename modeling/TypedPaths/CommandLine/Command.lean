/-
TypedPaths/CommandLine/Command.lean

The commands of the command line.

Design.  A command holds what its arguments say, with defaults filled in, so that running it asks
for nothing but the texts it names.  The option for indented output may stand before or after the
name of the command.
-/
import TypedPaths.CommandLine.Arguments
import TypedPaths.ValueType

namespace TypedPaths.CommandLine

/-- Where a text comes from. -/
inductive Source where
  | standardInput
  | file (name : String)
deriving DecidableEq

namespace Source

/-- The source that an argument names; a hyphen is the standard input. -/
def ofArgument (arg : String) : Source := if arg = "-" then standardInput else file arg

/-- The argument that names the source. -/
def name : Source → String
  | standardInput => "-"
  | file name => name

end Source

/-- A command and its arguments. -/
inductive Command where
  /-- List the paths of a schema. -/
  | paths (schema : Source) (options : ListingOptions) (offset : Option String) (json : Bool)
  /-- Show the shape of the value at a path. -/
  | type (schema : Source) (path : String) (marks : AbsenceMarks) (json : Bool)
  /-- Check paths against a schema. -/
  | check (schema : Source) (paths : List String) (writable : Bool)
  /-- Show the value at a path. -/
  | get (input : Source) (path : String) (schema : Option String)
  /-- Write a value at a path. -/
  | set (input : Source) (path value : String) (schema : Option String) (inPlace : Bool)
  /-- Validate a schema. -/
  | validate (schema : String)
deriving DecidableEq

/-- A command, and whether its JSON output is indented. -/
structure Invocation where
  command : Command
  pretty : Bool
deriving DecidableEq

/-- The names of the commands. -/
inductive CommandName where
  | paths
  | type
  | check
  | get
  | set
  | validate
deriving DecidableEq

/-- What help is about. -/
inductive HelpTopic where
  /-- All commands. -/
  | overview
  | command (name : CommandName)
  /-- Help itself. -/
  | help
deriving DecidableEq

/-- What a command line asks for. -/
inductive Request where
  | run (invocation : Invocation)
  | help (topic : HelpTopic)
  /-- Nothing: the command line breaks the rules. -/
  | usage
deriving DecidableEq

namespace CommandName

/-- The word for a command. -/
def text : CommandName → String
  | paths => "paths"
  | type => "type"
  | check => "check"
  | get => "get"
  | set => "set"
  | validate => "validate"

/-- All commands, in the order in which help lists them. -/
def all : List CommandName := [paths, type, check, get, set, validate]

/-- The command of a word. -/
def ofText? (text : String) : Option CommandName := all.find? (·.text = text)

/-- The option for indented output. -/
def prettyOption : OptionName := { long := "pretty", value := .nothing }

/-- The options that a command takes. -/
def options : CommandName → List OptionName
  | paths =>
    [{ long := "schema", short := some 's' }, { long := "depth", value := .number },
      { long := "writable", value := .nothing }, { long := "offset" },
      { long := "json", value := .nothing }, prettyOption]
  | type =>
    [{ long := "schema", short := some 's' }, { long := "set-mode", value := .nothing },
      { long := "json", value := .nothing }, prettyOption]
  | check =>
    [{ long := "schema", short := some 's' }, { long := "writable", value := .nothing },
      prettyOption]
  | get =>
    [{ long := "input", short := some 'i' }, { long := "schema", value := .file }, prettyOption]
  | set =>
    [{ long := "input", short := some 'i' }, { long := "schema", value := .file },
      { long := "in-place", value := .nothing }, prettyOption]
  | validate => [{ long := "schema", short := some 's', value := .file }, prettyOption]

/-- How many positions a command takes at most, if there is a limit. -/
def limit : CommandName → Option Nat
  | paths => some 0
  | type => some 1
  | check => none
  | get => some 1
  | set => some 2
  | validate => some 0

/-- What a command takes. -/
def form (name : CommandName) : Form := ⟨name.options, name.limit⟩

end CommandName

namespace Command

/-- The command of a name with its arguments. -/
def ofArguments? (name : CommandName) (args : Arguments) : Option Command := do
  match name, args.positions with
  | .paths, [] =>
    let default : ListingOptions := {}
    let depth ← match args.value? "depth" with
      | some text => number? text
      | none => some default.depth
    some (.paths (.ofArgument (← args.value? "schema")) ⟨depth, args.hasFlag "writable"⟩
      (args.value? "offset") (args.hasFlag "json"))
  | .type, [path] =>
    some (.type (.ofArgument (← args.value? "schema")) path
      (if args.hasFlag "set-mode" then .writing else .reading) (args.hasFlag "json"))
  | .check, path :: more =>
    some (.check (.ofArgument (← args.value? "schema")) (path :: more) (args.hasFlag "writable"))
  | .get, [path] =>
    some (.get (.ofArgument (← args.value? "input")) path (args.value? "schema"))
  | .set, [path, value] =>
    some (.set (.ofArgument (← args.value? "input")) path value (args.value? "schema")
      (args.hasFlag "in-place"))
  | .validate, [] => some (.validate (← args.value? "schema"))
  | _, _ => none

end Command

namespace Request

/-- What an interruption of the reading asks for. -/
def ofInterruption (topic : HelpTopic) : Interruption → Request
  | .help => help topic
  | .usage => usage

/-- What the arguments behind the name of a command ask for. -/
def ofCommand (pretty : Bool) (name : CommandName) (args : List String) : Request :=
  match Arguments.ofList name.form args with
  | .error e => ofInterruption (.command name) e
  | .ok args =>
    match Command.ofArguments? name args with
    | some command => run ⟨command, pretty || args.hasFlag "pretty"⟩
    | none => usage

/-- What the arguments behind the word for help ask for. -/
def ofTopics : List String → Request
  | [] => help .overview
  | ["help"] => help .help
  | [name] => (CommandName.ofText? name).elim usage fun name => help (.command name)
  | _ => usage

/-- What stands before the name of a command: the option for indented output. -/
def form : Form := ⟨[CommandName.prettyOption], some 0⟩

/-- What a command line asks for, behind options that are read. -/
def ofArgumentsAfter (read : Arguments) : List String → Request
  | [] => usage
  | "--" :: _ => usage
  | "help" :: topics => ofTopics topics
  | arg :: args =>
    match CommandName.ofText? arg with
    | some name => ofCommand (read.hasFlag "pretty") name args
    | none =>
      match Arguments.step form { read } arg with
      | .error e => ofInterruption .overview e
      | .ok s => ofArgumentsAfter s.read args

/-- What a command line asks for. -/
def ofArguments (args : List String) : Request := ofArgumentsAfter {} args

end Request

end TypedPaths.CommandLine

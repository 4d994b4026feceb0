/-
TypedPaths/CommandLine/Help.lean

Help on the command line.

Design.  Help is a sentence, the form of the command line, and tables of two columns, of which the
second starts behind the widest entry of the first.
-/
import TypedPaths.CommandLine.Command

namespace TypedPaths.CommandLine.Help

/-- The rows of a table: an entry and what it means. -/
abbrev Table := List (String × String)

/-- A table, with its second column behind the widest entry of the first. -/
def tableText (table : Table) : String :=
  let width := table.foldl (fun w row => max w row.1.length) 0
  String.join (table.map fun (entry, meaning) =>
    "  " ++ entry ++ String.ofList (List.replicate (width - entry.length + 2) ' ') ++ meaning
      ++ "\n")

/-- A page of help. -/
def page (about usage : String) (tables : List (String × Table)) : String :=
  about ++ "\n\nUsage: dotpath " ++ usage ++ "\n"
    ++ String.join (tables.map fun (title, table) => "\n" ++ title ++ ":\n" ++ tableText table)

/-- What a command does. -/
def about : CommandName → String
  | .paths => "List the valid paths into a schema"
  | .type => "Show the type of the value at a path"
  | .check => "Check paths against a schema"
  | .get => "Read the value at a path (exits non-zero when nothing is there)"
  | .set => "Write a JSON value at a path"
  | .validate => "Validate a schema document"

/-- The row on indented output. -/
def prettyRow : String × String := ("    --pretty", "Pretty-print JSON output")

/-- The row on help. -/
def helpRow : String × String := ("-h, --help", "Print help")

/-- The row on a schema that may be the standard input. -/
def schemaRow : String × String := ("-s, --schema <SCHEMA>", "Schema file (use - for stdin)")

/-- The row on data. -/
def inputRow : String × String := ("-i, --input <INPUT>", "Data file (use - for stdin)")

/-- The row on a schema to check a path against. -/
def guardRow : String × String :=
  ("    --schema <SCHEMA>", "Check the path against a schema first")

/-- The row on JSON output. -/
def jsonRow (meaning : String) : String × String := ("    --json", meaning)

/-- Help on a command. -/
def command (name : CommandName) : String :=
  match name with
  | .paths =>
    page (about name) "paths [OPTIONS] --schema <SCHEMA>"
      [("Options",
        [schemaRow,
          ("    --depth <DEPTH>", "Levels to enumerate [default: 3]"),
          ("    --writable", "Only list paths that can be assigned to"),
          ("    --offset <OFFSET>", "Continue from a partial path instead of the root"),
          jsonRow "Output as a JSON array", prettyRow, helpRow])]
  | .type =>
    page (about name) "type [OPTIONS] --schema <SCHEMA> <PATH>"
      [("Arguments", [("<PATH>", "Dot-path to resolve")]),
        ("Options",
          [schemaRow,
            ("    --set-mode", "Resolve as a write target (no absence markers)"),
            jsonRow "Output the resolved shape as JSON", prettyRow, helpRow])]
  | .check =>
    page (about name) "check [OPTIONS] --schema <SCHEMA> <PATHS>..."
      [("Arguments", [("<PATHS>...", "Paths to check")]),
        ("Options",
          [schemaRow, ("    --writable", "Require the paths to be writable"), prettyRow, helpRow])]
  | .get =>
    page (about name) "get [OPTIONS] --input <INPUT> <PATH>"
      [("Arguments", [("<PATH>", "Dot-path to read (empty for the whole document)")]),
        ("Options", [inputRow, guardRow, prettyRow, helpRow])]
  | .set =>
    page (about name) "set [OPTIONS] --input <INPUT> <PATH> <VALUE>"
      [("Arguments", [("<PATH>", "Dot-path to write"), ("<VALUE>", "JSON value to write")]),
        ("Options",
          [inputRow, guardRow, ("    --in-place", "Write the result back to the input file"),
            prettyRow, helpRow])]
  | .validate =>
    page (about name) "validate [OPTIONS] --schema <SCHEMA>"
      [("Options", [("-s, --schema <SCHEMA>", "Schema file"), prettyRow, helpRow])]

/-- What help does. -/
def aboutHelp : String := "Print this message or the help of the given subcommand(s)"

/-- Help on all commands. -/
def overview : String :=
  page "Enumerate, resolve, and access dot-paths in JSON data" "[OPTIONS] <COMMAND>"
    [("Commands",
      CommandName.all.map (fun name => (name.text, about name)) ++ [("help", aboutHelp)]),
      ("Options", [prettyRow, helpRow])]

/-- Help on help. -/
def help : String :=
  page aboutHelp "help [COMMAND]..."
    [("Arguments", [("[COMMAND]...", "Print help for the subcommand(s)")])]

/-- Help on a topic. -/
def text : HelpTopic → String
  | .overview => overview
  | .command name => command name
  | .help => help

end TypedPaths.CommandLine.Help

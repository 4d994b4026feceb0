/-
TypedPaths/Main.lean

The program: it reads the texts that a command names, runs the command and carries out what the
outcome says.
-/
import TypedPaths.CommandLine.Run

namespace TypedPaths.CommandLine

/-- The reason why a text could not be read or written. -/
def ioCause (e : IO.Error) : String :=
  match e with
  | .noFileOrDirectory .. => "No such file or directory (os error 2)"
  | .permissionDenied .. => "Permission denied (os error 13)"
  | e => toString e

/-- Reads the text of a source. -/
def readText (source : Source) : IO (Except String String) := do
  try
    match source with
    | .standardInput => return .ok (← (← IO.getStdin).readToEnd)
    | .file name => return .ok (← IO.FS.readFile name)
  catch e => return .error (ioCause e)

/-- Reads the texts of sources. -/
def readTexts (sources : List Source) : IO (List (Source × Except String String)) :=
  sources.mapM fun source => return (source, ← readText source)

/-- Carries out an outcome. -/
def carryOut (outcome : Outcome) : IO UInt32 := do
  let failed ← match outcome.written with
    | none => pure none
    | some (name, text) =>
      try
        IO.FS.writeFile name text
        pure none
      catch e => pure (some (Failure.mk ("Failed to write " ++ Text.quoted name) [ioCause e]))
  IO.print outcome.stdout
  match failed with
  | some failure =>
    IO.eprint failure.report
    return 1
  | none =>
    IO.eprint outcome.stderr
    return outcome.code.toUInt32

end TypedPaths.CommandLine

open TypedPaths.CommandLine

/-- Runs the command line. -/
def main (args : List String) : IO UInt32 := do
  match Request.ofArguments args with
  | .usage =>
    IO.eprint Help.overview
    return 2
  | .help topic =>
    IO.print (Help.text topic)
    return 0
  | .run invocation =>
    let texts ← readTexts invocation.command.sources
    let read (source : Source) : Except String String :=
      match texts.find? (·.1 = source) with
      | some (_, text) => text
      | none => .error "No such file or directory (os error 2)"
    carryOut (invocation.run read)

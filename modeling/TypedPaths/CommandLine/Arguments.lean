/-
TypedPaths/CommandLine/Arguments.lean

Arguments of a command line, sorted into options and positions.

Design.  Arguments are taken one at a time.  An option is given by its long name after two
hyphens, with its value after an equals sign or as the next argument, or by its letter after one
hyphen, with its value right behind it or as the next argument.  An argument that begins with a
hyphen is never the value of an option, except for a hyphen alone; after two hyphens alone
everything is a position.  No option is given twice.  The reading ends with the first argument
that breaks the rules or asks for help, whatever follows it.
-/
import TypedPaths.Order.SortedMap
import TypedPaths.Path

namespace TypedPaths.CommandLine

/-- A number of 64 bits in decimal digits, with a plus sign if it likes. -/
def number? (text : String) : Option Nat :=
  let digits := match text.toList with
    | '+' :: cs => cs
    | cs => cs
  if digits ≠ [] ∧ digits.all Char.isDigit ∧ Path.digitsValue digits < UInt64.size then
    some (Path.digitsValue digits)
  else none

/-- What an option asks for. -/
inductive ValueKind where
  /-- Nothing: the option is a flag. -/
  | nothing
  | text
  | number
  /-- The name of a file, which is not empty. -/
  | file
deriving DecidableEq

/-- Whether a text is a value of the kind. -/
def ValueKind.accepts (kind : ValueKind) (value : String) : Bool :=
  match kind with
  | nothing => false
  | text => true
  | number => (number? value).isSome
  | file => value ≠ ""

/-- An option that a command takes. -/
structure OptionName where
  long : String
  short : Option Char := none
  value : ValueKind := .text
deriving DecidableEq

/-- What a command takes: options, and positions up to a limit if there is one. -/
structure Form where
  options : List OptionName
  limit : Option Nat := none
deriving DecidableEq

/-- Why the arguments of a command are not used. -/
inductive Interruption where
  /-- They break the rules. -/
  | usage
  /-- They ask for help. -/
  | help
deriving DecidableEq

/-- Arguments, sorted: options with their values, flags, and positions. -/
structure Arguments where
  values : List (String × String) := []
  flags : List String := []
  positions : List String := []
deriving DecidableEq

namespace Arguments

/-- The value of an option. -/
def value? (args : Arguments) (option : String) : Option String :=
  Entries.find? option args.values

/-- Whether a flag is given. -/
def hasFlag (args : Arguments) (flag : String) : Bool := args.flags.contains flag

/-! ### Reading -/

/-- What the next argument is. -/
inductive Expecting where
  | any
  /-- The value of an option. -/
  | value (option : OptionName)
  /-- A position, whatever it looks like. -/
  | position

/-- What is read so far, and what the next argument is. -/
structure State where
  read : Arguments := {}
  expecting : Expecting := .any

/-- Whether an argument can only be an option. -/
def looksLikeOption (arg : String) : Bool := arg.toList.head? = some '-' && arg ≠ "-"

/-- Splits at the first equals sign. -/
def splitEquals : List Char → List Char × Option (List Char)
  | [] => ([], none)
  | '=' :: cs => ([], some cs)
  | c :: cs => (c :: (splitEquals cs).1, (splitEquals cs).2)

/-- Adds the value of an option. -/
def addValue (read : Arguments) (option : OptionName) (value : String) :
    Except Interruption State :=
  if option.value.accepts value then
    .ok { read := { read with values := (option.long, value) :: read.values } }
  else .error .usage

/-- Adds an option with its value, or with the value to come. -/
def addOption (read : Arguments) (option : OptionName) (value : Option (List Char)) :
    Except Interruption State :=
  if (read.value? option.long).isSome || read.hasFlag option.long then .error .usage
  else
    match option.value, value with
    | .nothing, none => .ok { read := { read with flags := option.long :: read.flags } }
    | .nothing, some _ => .error .usage
    | _, some v => addValue read option (String.ofList v)
    | _, none => .ok { read, expecting := .value option }

/-- Adds a position, unless there are as many as there may be. -/
def addPosition (form : Form) (s : State) (arg : String) : Except Interruption State :=
  if form.limit.all fun n => decide (s.read.positions.length < n) then
    .ok { s with read := { s.read with positions := s.read.positions ++ [arg] } }
  else .error .usage

/-- Reads the letters behind one hyphen: flags up to an option with a value, which is the rest. -/
def addLetters (options : List OptionName) (read : Arguments) : List Char →
    Except Interruption State
  | [] => .ok { read }
  | 'h' :: _ => .error .help
  | c :: cs =>
    match options.find? (·.short = some c) with
    | none => .error .usage
    | some option =>
      if option.value = .nothing then
        (addOption read option none).bind fun s => addLetters options s.read cs
      else
        match cs with
        | [] => addOption read option none
        | '=' :: cs => addOption read option (some cs)
        | cs => addOption read option (some cs)

/-- Takes one argument. -/
def step (form : Form) (s : State) (arg : String) : Except Interruption State :=
  match s.expecting with
  | .position => addPosition form s arg
  | .value option =>
    if looksLikeOption arg then .error .usage else addValue s.read option arg
  | .any =>
    if !looksLikeOption arg then addPosition form s arg
    else
      match arg.toList.tail with
      | ['-'] => .ok { s with expecting := .position }
      | '-' :: cs =>
        let (name, value) := splitEquals cs
        if name = "help".toList then
          .error (if value.isSome then .usage else .help)
        else
          match form.options.find? (·.long.toList = name) with
          | some option => addOption s.read option value
          | none => .error .usage
      | cs => addLetters form.options s.read cs

/-- Sorts arguments by the form of a command. -/
def ofList (form : Form) (args : List String) : Except Interruption Arguments :=
  (args.foldlM (step form) {}).bind fun s =>
    match s.expecting with
    | .value _ => .error .usage
    | _ => .ok s.read

end Arguments

end TypedPaths.CommandLine

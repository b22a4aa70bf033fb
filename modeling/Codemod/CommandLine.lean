import Codemod.Migration

/-!
# Codemod.CommandLine

The command line: `--root DIR`, `--workers N`, `--dry-run` and `--json`, each at most once.

A value is the next argument or follows an equals sign. The exit code is 0 with the report as
output, 1 for a migration that could not begin, and 2 for arguments that make no sense.
-/

namespace Codemod

structure CommandLine where
  root : Option String
  workers : Option Nat
  dryRun : Bool
  json : Bool
  deriving DecidableEq, Repr, Inhabited

namespace CommandLine

/-- What arguments amount to. -/
inductive Request where
  | migrate (line : CommandLine)
  /-- Help or the version is asked for. -/
  | inform
  | invalid
  deriving DecidableEq, Repr, Inhabited

def empty : CommandLine :=
  ⟨none, none, false, false⟩

/-- A number of workers in decimal; a plus sign may stand before it. -/
def workers? (value : String) : Option Nat :=
  let digits := match value.toList with
    | '+' :: cs => cs
    | cs => cs
  if !digits.isEmpty && digits.all Char.isDigit then
    let n := Json.digitsValue digits
    if n < wordLimit then some n else none
  else none

/-- Whether an argument can be the value of the option before it. -/
def isValue (arg : String) : Bool :=
  arg == "-" || arg.toList.head? != some '-'

def setRoot (line : CommandLine) (value : String) : Option CommandLine :=
  if line.root.isNone && !value.isEmpty then some { line with root := some value } else none

def setWorkers (line : CommandLine) (value : String) : Option CommandLine := do
  guard line.workers.isNone
  return { line with workers := some (← workers? value) }

/-- The option with a value that an argument names, and the value if it is part of the argument. -/
def option? (arg : String) :
    Option ((CommandLine → String → Option CommandLine) × Option String) := do
  let cs := arg.toList
  let name := cs.takeWhile (· != '=')
  let set ← if name == "--root".toList then some setRoot
    else if name == "--workers".toList then some setWorkers
    else none
  match cs.dropWhile (· != '=') with
  | [] => return (set, none)
  | _ :: value => return (set, some (String.ofList value))

/-- Whether an argument asks for help or the version. -/
def isInquiry (arg : String) : Bool :=
  arg == "--help" || arg == "--version" || ['-', 'h'].isPrefixOf arg.toList ||
    ['-', 'V'].isPrefixOf arg.toList

/-- Takes in one argument after the other. -/
def parse (line : CommandLine) : List String → Request
  | [] => .migrate line
  | arg :: args =>
    if arg == "--dry-run" then
      if line.dryRun then .invalid else parse { line with dryRun := true } args
    else if arg == "--json" then
      if line.json then .invalid else parse { line with json := true } args
    else if isInquiry arg then .inform
    else if arg == "--" then if args.isEmpty then .migrate line else .invalid
    else
      match option? arg with
      | none => .invalid
      | some (set, some value) =>
        match set line value with
        | some line => parse line args
        | none => .invalid
      | some (set, none) =>
        match args with
        | [] => .invalid
        | value :: rest =>
          if isValue value then
            match set line value with
            | some line => parse line rest
            | none => .invalid
          else .invalid

def options (line : CommandLine) : Options :=
  { Options.standard with
    rootDir := ⟨line.root.getD Options.standard.rootDir.text⟩
    workers := line.workers
    dryRun := line.dryRun }

/-- The report as it goes to standard output. -/
def output (line : CommandLine) (report : Report) : String :=
  if line.json then String.ofList (report.toJson.render 0) ++ "\n"
  else String.join (report.summary.map (· ++ "\n"))

/-- What the program answers: its exit code, its output, and a word to whoever called it. -/
structure Outcome where
  code : Nat
  output : String
  complaint : String
  deriving DecidableEq, Repr, Inhabited

/-- What arguments lead to, and the disk afterwards. -/
def run (args : List String) (available : Nat) (disk : Disk) : Outcome × Disk :=
  match parse empty args with
  | .invalid => (⟨2, "", "unexpected arguments"⟩, disk)
  | .inform => (⟨0, "", ""⟩, disk)
  | .migrate line =>
    match Codemod.migrate line.options available disk with
    | (.ok report, disk) => (⟨0, line.output report, ""⟩, disk)
    | (.error fault, disk) => (⟨1, "", "nothing was changed: " ++ fault.message⟩, disk)

end CommandLine

end Codemod

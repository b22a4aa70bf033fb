import Codemod.Path

/-!
# Codemod.Fault

What can go wrong in a migration, how far it reaches, and how it is worded.

* `Fault.severity`: a fatal fault ends the run before anything is written, a fault of one file
  skips that file, a fault of the run skips one step that is not about files.
* `Fault.message` is the wording.
-/

namespace Codemod

/-- How far a fault reaches. -/
inductive Severity where
  /-- Ends the run before any file is touched. -/
  | fatal
  /-- One file is skipped; the run goes on. -/
  | perFile
  /-- One step of the run is skipped. -/
  | perRun
  deriving DecidableEq, Repr, Inhabited

namespace Severity

def name : Severity → String
  | fatal => "fatal"
  | perFile => "per-file"
  | perRun => "per-run"

end Severity

/-- A source file that could not be parsed in any of its dialects. -/
structure ParseFault where
  path : Path
  line : Nat
  column : Nat
  reason : String
  deriving DecidableEq, Repr, Inhabited

namespace ParseFault

def message (f : ParseFault) : String :=
  f.path.text ++ ":" ++ toString f.line ++ ":" ++ toString f.column ++ ": " ++ f.reason

end ParseFault

inductive Fault where
  | configNotFound (root : Path)
  | sourceRootMissing (path : Path)
  | sourceRootInvalid (root : Path) (sourceRoot : String)
  | entryNotFound (dir : Path)
  | invalidProjectFile (path : Path) (cause : ParseFault)
  | parse (cause : ParseFault)
  | ambiguousExport (path : Path) (reason : String)
  | artifactExists (path artifact : Path)
  | manifestMissing (path : Path)
  | manifestInvalid (path : Path) (reason : String)
  | options (reason : String)
  | workerPool (reason : String)
  | io (path : Path) (reason : String)
  deriving DecidableEq, Repr, Inhabited

namespace Fault

def severity : Fault → Severity
  | configNotFound _ | sourceRootMissing _ | sourceRootInvalid .. | entryNotFound _
  | invalidProjectFile .. | options _ | workerPool _ => .fatal
  | parse _ | ambiguousExport .. | artifactExists .. | io .. => .perFile
  | manifestMissing _ | manifestInvalid .. => .perRun

def isFatal (f : Fault) : Bool :=
  f.severity == .fatal

def message : Fault → String
  | configNotFound root => "build configuration not found under " ++ root.text
  | sourceRootMissing path => "`sourceRoot` is not declared in " ++ path.text
  | sourceRootInvalid root sourceRoot =>
    "sourceRoot `" ++ sourceRoot ++ "` is not a directory under " ++ root.text
  | entryNotFound dir => "entry module app.(js|jsx|ts|tsx) not found in " ++ dir.text
  | invalidProjectFile path cause =>
    "cannot read project file " ++ path.text ++ ": " ++ cause.message
  | parse cause => cause.message
  | ambiguousExport path reason => path.text ++ ": " ++ reason
  | artifactExists path artifact =>
    path.text ++ ": refusing to overwrite existing " ++ artifact.text
  | manifestMissing path => "package manifest not found at " ++ path.text
  | manifestInvalid path reason =>
    "package manifest " ++ path.text ++ " is not valid JSON: " ++ reason
  | options reason => "invalid options: " ++ reason
  | workerPool reason => "failed to start worker pool: " ++ reason
  | io path reason => path.text ++ ": " ++ reason

end Fault

end Codemod

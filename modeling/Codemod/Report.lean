import Codemod.Json.Printer
import Codemod.Session

/-!
# Codemod.Report

What a migration did, or in a dry run would have done, as data, as JSON and as lines for a terminal.
-/

namespace Codemod

structure Report where
  project : Project
  dryRun : Bool
  /-- In the order of paths; the control files are among them. -/
  changedFiles : List Path
  artifacts : List Path
  skipped : List Skip
  notices : List Notice
  tally : Tally
  /-- Missing when the manifest could not be read. -/
  dependencies : Option DependencyPlan

namespace Path

def toJson (p : Path) : Json :=
  .ofString p.text

end Path

namespace Project

def toJson (p : Project) : Json :=
  .record [
    ("rootDir", p.rootDir.toJson),
    ("buildConfigPath", p.buildConfigPath.toJson),
    ("sourceRoot", .ofString p.sourceRoot),
    ("entryFilePath", p.entryFilePath.toJson),
    ("pages", .ofList .ofString p.pages)]

end Project

namespace Skip

def toJson (s : Skip) : Json :=
  .record [
    ("path", s.path.toJson),
    ("pass", .ofString s.pass),
    ("reason", .ofString s.reason),
    ("severity", .ofString s.severity.name)]

/-- The line that a summary gives to a skipped file. -/
def line (s : Skip) : String :=
  "  [" ++ s.pass ++ "] " ++ s.reason

end Skip

namespace Notice

def toJson (n : Notice) : Json :=
  .record [
    ("path", n.path.toJson),
    ("pass", .ofString n.pass),
    ("message", .ofString n.message)]

/-- The line that a summary gives to a notice. -/
def line (n : Notice) : String :=
  "  note [" ++ n.pass ++ "] " ++ n.path.text ++ ": " ++ n.message

end Notice

namespace Tally

def toJson (t : Tally) : Json :=
  .record (t.entries.map fun (f, n) => (f.name, .ofNat n))

end Tally

namespace Dependency

namespace Change

/-- A note is only there when there is something to say. -/
def toJson (c : Change) : Json :=
  .record ([
    ("name", .ofString c.name),
    ("currentRange", .ofOption .ofString c.currentRange),
    ("action", .ofString c.action.name),
    ("targetVersion", .ofOption .ofString c.targetVersion)] ++
    c.note.toList.map fun note => ("note", .ofString note))

end Change

end Dependency

namespace DependencyPlan

def toJson (plan : DependencyPlan) : Json :=
  .ofList Dependency.Change.toJson plan.changes

/-- The line that a summary gives to an action, unless no package needs it. -/
def line? (plan : DependencyPlan) (action : Dependency.Action) : Option String :=
  match plan.names action with
  | [] => none
  | names => some (action.name ++ ": " ++ " ".intercalate names)

end DependencyPlan

namespace Report

/-- The report of a session that has come to its end. -/
def ofSession (project : Project) (s : Session) (dependencies : Option DependencyPlan) : Report where
  project := project
  dryRun := s.dryRun
  changedFiles := s.changed
  artifacts := s.artifacts
  skipped := s.skipped
  notices := s.notices
  tally := s.tally
  dependencies := dependencies

def toJson (r : Report) : Json :=
  .record [
    ("project", r.project.toJson),
    ("dryRun", .bool r.dryRun),
    ("changedFiles", .ofList Path.toJson r.changedFiles),
    ("artifacts", .ofList Path.toJson r.artifacts),
    ("skipped", .ofList Skip.toJson r.skipped),
    ("notices", .ofList Notice.toJson r.notices),
    ("markers", r.tally.toJson),
    ("shouldEnableLegacyDecoratorSupport", .bool r.tally.needsDecorators),
    ("dependencyPlan", .ofOption DependencyPlan.toJson r.dependencies)]

/-- The heading and the lines of the skipped files, if there are any. -/
def skipLines : List Skip → List String
  | [] => []
  | skips => (toString skips.length ++ " skipped:") :: skips.map Skip.line

/-- The lines of the report for a terminal. -/
def summary (r : Report) : List String :=
  let verb := if r.dryRun then "would change" else "changed"
  [toString r.changedFiles.length ++ " file(s) " ++ verb] ++
    r.changedFiles.map (fun p => "  M " ++ p.text) ++
    r.artifacts.map (fun p => "  A " ++ p.text) ++
    skipLines r.skipped ++
    r.notices.map Notice.line ++
    r.tally.entries.map (fun (f, n) => f.name ++ ": " ++ toString n ++ " file(s)") ++
    ["legacy decorator support: " ++ if r.tally.needsDecorators then "true" else "false"] ++
    (r.dependencies.toList.flatMap fun plan =>
      [Dependency.Action.install, .upgrade, .uninstall].filterMap plan.line?)

end Report

end Codemod

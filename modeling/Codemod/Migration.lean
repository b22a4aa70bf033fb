import Codemod.Json.Parser
import Codemod.Report

/-!
# Codemod.Migration

The whole migration: the project is loaded, its control files are committed, the passes run, and
the dependencies are looked up.

A migration ends early where loading fails, and where the worker pool cannot be started. Nothing is
written by then. What fails later is in the report.
-/

namespace Codemod

namespace DependencyPlan

/-- Where the package manifest of a project is. -/
def manifestPath (root : Path) : Path :=
  root.join "package.json"

/-- The plan for the manifest under a root. -/
def load (root : Path) (disk : Disk) : Except Fault DependencyPlan :=
  let path := manifestPath root
  if disk.isFile path then do
    match Json.read? (← disk.read path) with
    | some manifest => return .ofManifest manifest
    | none => throw (.manifestInvalid path "not a JSON document")
  else .error (.manifestMissing path)

end DependencyPlan

namespace Session

/-- Looks up the dependencies. A manifest that cannot be read is skipped. -/
def planDependencies (s : Session) (root : Path) (disk : Disk) : Session × Option DependencyPlan :=
  match DependencyPlan.load root disk with
  | .ok plan => (s, some plan)
  | .error fault =>
    (s.skip (.ofFault (DependencyPlan.manifestPath root) "dependencies" fault), none)

end Session

/-- Migrates a project. `available` workers are used where the options leave their number open.
Starting the worker pool is up to the system: `refusal` is what it fails with, if it does. -/
def migrateWith (options : Options) (available : Nat) (refusal : Option String) (disk : Disk) :
    Except Fault Report × Disk :=
  match Project.load options disk, refusal with
  | .error fault, _ => (.error fault, disk)
  | .ok _, some reason => (.error (.workerPool reason), disk)
  | .ok plan, none =>
    let (s, disk) := (Session.start Pass.standard options available).commitProject plan disk
    let (s, disk) := s.run plan.project disk
    let (s, dependencies) := s.planDependencies plan.project.rootDir disk
    (.ok (.ofSession plan.project s dependencies), disk)

/-- Migrates a project with a worker pool that starts. -/
def migrate (options : Options) (available : Nat) (disk : Disk) : Except Fault Report × Disk :=
  migrateWith options available none disk

end Codemod

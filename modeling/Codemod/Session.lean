import Codemod.Feature
import Codemod.Pass
import Codemod.Project

/-!
# Codemod.Session

Running passes over a project.

Passes run one after another. The files of a pass are split into chunks, one for each worker; a
worker goes through its files one by one and answers a report, and the reports are merged in order
once the pass is done. Workers share nothing that changes: what they see of the session is as it was
when the pass began.

In a dry run nothing is written. What would have been written is kept in the session and read in
place of the file.
-/

namespace Codemod

/-- A file that was left alone, and why. -/
structure Skip where
  path : Path
  pass : String
  reason : String
  severity : Severity
  deriving DecidableEq, Repr, Inhabited

namespace Skip

def ofFault (path : Path) (pass : String) (fault : Fault) : Skip :=
  ⟨path, pass, fault.message, fault.severity⟩

end Skip

/-- Something that a pass saw and left as it is. -/
structure Notice where
  path : Path
  pass : String
  message : String
  deriving DecidableEq, Repr, Inhabited

inductive PassState where
  | pending
  | running
  | merged
  deriving DecidableEq, Repr, Inhabited

namespace PassState

def name : PassState → String
  | pending => "Pending"
  | running => "Running"
  | merged => "Merged"

end PassState

inductive Outcome where
  | unchanged
  | changed (contents : Text) (artifacts : List Path)
  | failed (fault : Fault)
  deriving DecidableEq, Repr, Inhabited

structure FileResult where
  path : Path
  outcome : Outcome
  notices : List String
  deriving DecidableEq, Repr, Inhabited

/-- What one worker answers for its chunk. -/
structure WorkerReport where
  /-- The features of files that were parsed for the first time. -/
  tally : Tally
  observed : List Path
  results : List FileResult
  deriving DecidableEq, Repr, Inhabited

namespace WorkerReport

def empty : WorkerReport :=
  ⟨.empty, [], []⟩

end WorkerReport

/-- What a worker sees of the session. -/
structure WorkerView where
  pass : Pass
  entry : Path
  observed : List Path
  overrides : List (Path × Text)
  dryRun : Bool

namespace WorkerView

/-- The text of a file as the session has it. -/
def load (view : WorkerView) (disk : Disk) (path : Path) : Except Fault Text :=
  match view.overrides.find? fun o => o.1.same path with
  | some (_, text) => .ok text
  | none => disk.read path

/-- Carries out a patch for one file. -/
def carryOut (view : WorkerView) (script : Script) (patch : Patch) (disk : Disk) :
    FileResult × Disk :=
  let result (outcome : Outcome) : FileResult := ⟨script.path, outcome, patch.notices⟩
  if patch.isEmpty then (result .unchanged, disk)
  else
    let contents := script.patched patch
    let creates := patch.artifacts.map fun a => PendingWrite.create a.path a.contents
    let writes := creates ++
      if contents = script.source then [] else [.overwrite script.path contents]
    if writes.isEmpty then (result .unchanged, disk)
    else
      match settle view.dryRun script.path writes disk with
      | (.ok (), disk) => (result (.changed contents (creates.map (·.path))), disk)
      | (.error fault, disk) => (result (.failed fault), disk)

/-- Whether a file was parsed in an earlier pass. -/
def hasObserved (view : WorkerView) (path : Path) : Bool :=
  view.observed.any path.same

/-- Parses a file, finds the patch, looks for features, and carries the patch out. -/
def process (view : WorkerView) (path : Path) (report : WorkerReport) (disk : Disk) :
    WorkerReport × Disk :=
  let add (report : WorkerReport) (result : FileResult) : WorkerReport :=
    { report with results := report.results ++ [result] }
  match view.load disk path with
  | .error fault => (add report ⟨path, .failed fault, []⟩, disk)
  | .ok source =>
    match Script.parse path source with
    | .error cause => (add report ⟨path, .failed (.parse cause), []⟩, disk)
    | .ok script =>
      let report := if view.hasObserved path then report else
        { report with
          tally := report.tally.merge (.ofProgram script.program)
          observed := report.observed ++ [path] }
      if view.pass.applies script then
        match view.pass.patch view.entry script with
        | .error fault => (add report ⟨path, .failed fault, []⟩, disk)
        | .ok patch =>
          let (result, disk) := view.carryOut script patch disk
          (add report result, disk)
      else (add report ⟨path, .unchanged, []⟩, disk)

/-- Goes through the files of one chunk. -/
def processAll (view : WorkerView) : List Path → WorkerReport → Disk → WorkerReport × Disk
  | [], report, disk => (report, disk)
  | path :: paths, report, disk =>
    let (report, disk) := view.process path report disk
    view.processAll paths report disk

/-- Lets one worker after the other go through its chunk. -/
def processChunks (view : WorkerView) : List (List Path) → Disk → List WorkerReport × Disk
  | [], disk => ([], disk)
  | chunk :: chunks, disk =>
    let (report, disk) := view.processAll chunk .empty disk
    let (reports, disk) := view.processChunks chunks disk
    (report :: reports, disk)

end WorkerView

/-- Pieces of `size` elements, the last of which may be shorter. -/
def chunksWithin {α : Type} (size : Nat) : (fuel : Nat) → List α → List (List α)
  | _, [] => []
  | 0, xs => [xs]
  | fuel + 1, x :: xs => (x :: xs).take size :: chunksWithin size fuel ((x :: xs).drop size)

/-- A list in order, as at most `workers` pieces of about the same size. -/
def chunks {α : Type} (workers : Nat) (xs : List α) : List (List α) :=
  chunksWithin (max ((xs.length + workers - 1) / workers) 1) xs.length xs

structure Session where
  passes : List Pass
  states : List PassState
  workers : Nat
  dryRun : Bool
  tally : Tally
  /-- Files that were parsed in some pass. -/
  observed : List Path
  /-- What a dry run would have written. -/
  overrides : List (Path × Text)
  /-- In increasing order, each once. -/
  changed : List Path
  artifacts : List Path
  skipped : List Skip
  notices : List Notice

namespace Session

/-- A session before any pass. `available` workers are used where the options leave it open. -/
def start (passes : List Pass) (options : Options) (available : Nat) : Session where
  passes := passes
  states := passes.map fun _ => .pending
  workers := options.workerCount available
  dryRun := options.dryRun
  tally := .empty
  observed := []
  overrides := []
  changed := []
  artifacts := []
  skipped := []
  notices := []

/-- Puts a path into an increasing list unless it is there. -/
def insertPath (path : Path) : List Path → List Path
  | [] => [path]
  | p :: ps =>
    if path.same p then p :: ps
    else if path.lt p then path :: p :: ps
    else p :: insertPath path ps

def setOverride (s : Session) (path : Path) (text : Text) : Session :=
  if s.dryRun then
    { s with overrides := (path, text) :: s.overrides.filter fun o => !o.1.same path }
  else s

/-- Takes note of a write that was carried out. -/
def recordWrite (s : Session) (w : PendingWrite) : Session :=
  (if w.createOnly then { s with artifacts := s.artifacts ++ [w.path] }
    else { s with changed := insertPath w.path s.changed }).setOverride w.path w.contents

def skip (s : Session) (skip : Skip) : Session :=
  { s with skipped := s.skipped ++ [skip] }

/-- Commits the writes of one control file. A failure skips that file only. -/
def commitGroup (s : Session) (owner : Path) (writes : List PendingWrite) (disk : Disk) :
    Session × Disk :=
  match settle s.dryRun owner writes disk with
  | (.ok (), disk) => (writes.foldl recordWrite s, disk)
  | (.error fault, disk) => (s.skip (.ofFault owner "project" fault), disk)

def commitGroups (s : Session) : List (Path × List PendingWrite) → Disk → Session × Disk
  | [], disk => (s, disk)
  | (owner, writes) :: groups, disk =>
    let (s, disk) := s.commitGroup owner writes disk
    s.commitGroups groups disk

/-- Commits the writes planned for the control files of a project. -/
def commitProject (s : Session) (plan : ProjectPlan) (disk : Disk) : Session × Disk :=
  s.commitGroups plan.writes disk

/-- Takes in the result for one file. -/
def mergeResult (pass : String) (s : Session) (r : FileResult) : Session :=
  let s := { s with notices := s.notices ++ r.notices.map fun m => ⟨r.path, pass, m⟩ }
  match r.outcome with
  | .unchanged => s
  | .changed contents artifacts =>
    { s with
      artifacts := s.artifacts ++ artifacts
      changed := insertPath r.path s.changed }.setOverride r.path contents
  | .failed fault => s.skip (.ofFault r.path pass fault)

/-- Takes in the report of one worker. -/
def mergeReport (pass : String) (s : Session) (r : WorkerReport) : Session :=
  r.results.foldl (mergeResult pass)
    { s with tally := s.tally.merge r.tally, observed := s.observed ++ r.observed }

/-- Runs one pass over files. -/
def runPass (s : Session) (pass : Pass) (entry : Path) (files : List Path) (disk : Disk) :
    Session × Disk :=
  let view : WorkerView := ⟨pass, entry, s.observed, s.overrides, s.dryRun⟩
  let (reports, disk) := view.processChunks (chunks s.workers files) disk
  (reports.foldl (mergeReport pass.name) s, disk)

/-- The files that a pass is run over. -/
def filesFor (pass : Pass) (tree pages : List Path) : List Path :=
  match pass.scope with
  | .sourceTree => tree
  | .pages => pages

def runPasses (s : Session) (entry : Path) (tree pages : List Path) :
    List Pass → Disk → Session × Disk
  | [], disk => (s, disk)
  | pass :: passes, disk =>
    let (s, disk) := s.runPass pass entry (filesFor pass tree pages) disk
    s.runPasses entry tree pages passes disk

/-- Runs every pass in order over its files of a project. -/
def run (s : Session) (project : Project) (disk : Disk) : Session × Disk :=
  let tree := SourceTree.sources disk project.sourceDir
  let pages := project.pageFiles disk
  let (s, disk) := s.runPasses project.entryFilePath tree pages s.passes disk
  ({ s with states := s.passes.map fun _ => .merged }, disk)

end Session

end Codemod

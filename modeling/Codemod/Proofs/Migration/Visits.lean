import Codemod.Migration
import Codemod.Proofs.Project.Load
import Codemod.Proofs.Session.Writing
import Codemod.Proofs.SourceTree

/-!
# Codemod.Proofs.Migration.Visits

A migration as a journey.

Once its project is loaded, a migration visits the control files and then, pass by pass, the sources
and the modules of the pages (`migrationVisits`). `migrate_journey` says that this is all it does to
the disk, and that the report lists what was written.
-/

namespace Codemod

/-- The visits of the passes to a project, as its disk is when they begin. -/
def Project.visits (p : Project) (disk : Disk) : List Visit :=
  Session.passVisits p.entryFilePath (SourceTree.sources disk p.sourceDir) (p.pageFiles disk)
    Pass.standard

namespace Report

/-- The report lists what was written. -/
structure Lists (report : Report) (log : List Done) : Prop where
  /-- Whatever was rewritten has changed. -/
  changed : ∀ d ∈ log, d.wish.rewritten.isSome = true →
    ∃ q ∈ report.changedFiles, q.same d.path = true
  /-- Only what was written has changed. -/
  only : ∀ q ∈ report.changedFiles, ∃ d ∈ log, d.path = q
  artifacts : report.artifacts = log.flatMap Done.artifacts

end Report

variable {options : Options} {available : Nat} {disk disk' : Disk} {plan : ProjectPlan}

/-- The disk once the control files of a loaded project are committed. -/
def Project.committed (options : Options) (available : Nat) (plan : ProjectPlan) (disk : Disk) :
    Disk :=
  ((Session.start Pass.standard options available).commitProject plan disk).2

/-- The visits that a migration makes, from the control files on. -/
def migrationVisits (options : Options) (available : Nat) (disk : Disk) : List Visit :=
  match Project.load options disk with
  | .error _ => []
  | .ok plan =>
    plan.writes.map Visit.ofGroup ++
      plan.project.visits (Project.committed options available plan disk)

theorem migrate_of_load (available : Nat) (hload : Project.load options disk = .ok plan) :
    migrate options available disk =
      let committed := (Session.start Pass.standard options available).commitProject plan disk
      let passed := committed.1.run plan.project committed.2
      let planned := passed.1.planDependencies plan.project.rootDir passed.2
      (.ok (.ofSession plan.project planned.1 planned.2), passed.2) := by
  unfold migrate migrateWith
  rw [hload]

namespace Session

theorem accounts_planDependencies (s : Session) (root : Path) (disk : Disk) :
    Accounts s (s.planDependencies root disk).1 [] := by
  unfold planDependencies
  split <;> exact accounts_of_eq rfl rfl rfl rfl rfl

theorem run_journey {s : Session} {project : Project} (hw : s.Writing)
    (hpasses : s.passes = Pass.standard) (hwf : disk.WellFormed)
    (hdir : disk.isDir project.sourceDir = true) :
    ∃ log, Journey disk (project.visits disk) log (s.run project disk).2 ∧
      Accounts s (s.run project disk).1 log := by
  have hkeep : ∀ pass ∈ s.passes, pass.KeepsToFile :=
    fun _ hpass => Pass.keepsToFile_of_mem (hpasses ▸ hpass)
  obtain ⟨log, hjourney, haccounts⟩ := runPasses_journey project.entryFilePath hw hkeep hwf
    (fun _ hp => SourceTree.isScript_of_mem_sources hwf hdir hp)
    (fun _ hp => Project.isScript_of_mem_pageFiles hp)
  have hvisits : project.visits disk = passVisits project.entryFilePath
      (SourceTree.sources disk project.sourceDir) (project.pageFiles disk) s.passes := by
    rw [hpasses, Project.visits]
  rw [run_eq, hvisits]
  refine ⟨log, hjourney, ?_⟩
  rw [← List.append_nil log]
  exact haccounts.trans (accounts_of_eq rfl rfl rfl rfl rfl)

/-- The report lists what the session has kept, whatever becomes of the dependencies. -/
theorem Accounts.lists {s : Session} {log : List Done} {passes : List Pass}
    (h : Accounts (start passes options available) s log) (project : Project) (disk : Disk) :
    (Report.ofSession project (s.planDependencies project.rootDir disk).1
      (s.planDependencies project.rootDir disk).2).Lists log := by
  have hplanned := h.trans (accounts_planDependencies s project.rootDir disk)
  rw [List.append_nil] at hplanned
  refine ⟨hplanned.changed, ?_, hplanned.artifacts⟩
  intro q hq
  rcases hplanned.only q hq with hq | hd
  · cases hq
  · exact hd

end Session

/-- A migration commits the control files, then makes the visits of its passes, and lists what was
written. -/
theorem migrate_stages (available : Nat) (hwf : disk.WellFormed) (hreal : options.dryRun = false)
    (hload : Project.load options disk = .ok plan) :
    ∃ report log log', migrate options available disk =
        (.ok report, (migrate options available disk).2) ∧
      report.project = plan.project ∧
      Journey disk (plan.writes.map Visit.ofGroup) log
        (Project.committed options available plan disk) ∧
      Journey (Project.committed options available plan disk)
        (plan.project.visits (Project.committed options available plan disk)) log'
        (migrate options available disk).2 ∧
      report.Lists (log ++ log') := by
  have hsound := Project.load_sound hload
  have hstart : (Session.start Pass.standard options available).Writing := ⟨hreal, rfl⟩
  obtain ⟨log, hcontrol, haccounts⟩ := Session.commitGroups_journey hstart hwf hsound.groups
  obtain ⟨log', hpassed, haccounts'⟩ :=
    Session.run_journey (haccounts.writing hstart) haccounts.passes (hcontrol.wellFormed hwf)
      (hcontrol.grows.sameDirs.isDir hsound.sourceDir)
  rw [migrate_of_load available hload]
  exact ⟨_, log, log', rfl, rfl, hcontrol, hpassed,
    (haccounts.trans haccounts').lists plan.project _⟩

/-- A migration makes its visits, and lists what was written. -/
theorem migrate_journey (available : Nat) (hwf : disk.WellFormed) (hreal : options.dryRun = false)
    (hload : Project.load options disk = .ok plan) :
    ∃ report log, migrate options available disk =
        (.ok report, (migrate options available disk).2) ∧
      Journey disk (migrationVisits options available disk) log
        (migrate options available disk).2 ∧
      report.Lists log := by
  obtain ⟨report, log, log', hmigrate, -, hcontrol, hpassed, hlists⟩ :=
    migrate_stages available hwf hreal hload
  unfold migrationVisits
  rw [hload]
  exact ⟨report, log ++ log', hmigrate, hcontrol.append hpassed, hlists⟩

/-- What a migration reports to have written. -/
def written (outcome : Except Fault Report) : Option (List Path × List Path) :=
  outcome.toOption.map fun report => (report.changedFiles, report.artifacts)

theorem eq_ok_of_written {outcome : Except Fault Report × Disk} {changed artifacts : List Path}
    (h : written outcome.1 = some (changed, artifacts)) :
    ∃ report disk', outcome = (.ok report, disk') ∧ report.changedFiles = changed ∧
      report.artifacts = artifacts := by
  obtain ⟨result, disk'⟩ := outcome
  cases result with
  | error fault => cases h
  | ok report =>
    cases h
    exact ⟨report, disk', rfl, rfl, rfl⟩

/-- A small project with this entry module. -/
def projectDisk (entry : String) : Disk :=
  let tree := ((Disk.bare []).makeDirAt ["config"]).makeDirAt ["src"]
  let config := "x = \x7b sourceRoot: 'src', framework: '', defineConstants: 0 \x7d"
  (tree.putAt ["config", "index.js"] (.text config.toList)).putAt ["src", "app.js"]
    (.text entry.toList)

/-- An entry module whose configuration moves. -/
def configuredDisk : Disk :=
  projectDisk "class A \x7b config = \x7b a: 1 \x7d \x7d"

end Codemod

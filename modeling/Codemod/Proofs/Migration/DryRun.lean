import Codemod.Proofs.Migration.Visits
import Codemod.Proofs.Session.DryRun

/-!
# Codemod.Proofs.Migration.DryRun

A dry run of a migration, and the migration that it stands for.

A dry run writes nothing, and it fails exactly if the migration does. `migrate_dryRun` says when it
also reports the same: no two of the new files that it lists may be at the same place. This is so
because it looks for files in the way on the disk only, and not among those that it would have
written itself (`migrate_dryRun_differs`).

Two things must be plain for that (`ProjectPlan.Plain`). Each file that changes is worked on under
one path, since the overrides of a dry run go by paths. And no page is the configuration module that
the app is about to get, since a dry run looks for the modules of pages on the disk as well.
-/

namespace Codemod

namespace Options

def asDry (o : Options) : Options :=
  { o with dryRun := true }

def asReal (o : Options) : Options :=
  { o with dryRun := false }

end Options

namespace ProjectPlan

/-- The files that a migration may work on. -/
def work (plan : ProjectPlan) (disk : Disk) : List Path :=
  plan.writes.map (·.1) ++ SourceTree.sources disk plan.project.sourceDir ++
    plan.project.pageFiles disk

/-- The changed files are worked on under one path only, and no page comes into being with the
control files. -/
structure Plain (plan : ProjectPlan) (options : Options) (available : Nat) (disk : Disk)
    (changed : List Path) : Prop where
  alone : ∀ p ∈ plan.work disk, (∃ c ∈ changed, c.same p = true) →
    ∀ q ∈ plan.work disk, disk.locate p = disk.locate q → p.same q = true
  pages : plan.project.pageFiles (Project.committed options.asReal available plan disk) =
    plan.project.pageFiles disk

end ProjectPlan

variable {options : Options} {available : Nat} {disk disk' : Disk} {plan : ProjectPlan}

theorem ProjectPlan.Plain.workable {changed : List Path}
    (h : plan.Plain options available disk changed) (hsound : Project.Sound disk plan)
    (hwf : disk.WellFormed) : Workable disk (plan.work disk) changed where
  alone := h.alone
  isScript := by
    intro p hp
    rw [work, List.mem_append, List.mem_append] at hp
    rcases hp with (hp | hp) | hp
    · obtain ⟨group, hgroup, rfl⟩ := List.mem_map.mp hp
      exact (hsound.groups group hgroup).isScript
    · exact SourceTree.isScript_of_mem_sources hwf hsound.sourceDir hp
    · exact Project.isScript_of_mem_pageFiles hp

/-- The dependencies are the same after a journey, since it leaves the manifest alone. -/
theorem DependencyPlan.load_of_journey {visits : List Visit} {log : List Done}
    (h : Journey disk visits log disk') (root : Path) : load root disk' = load root disk := by
  have hsame := h.grows.sameDirs
  have hname : Text.IsName Path.manifestName.toList := by decide
  have hend : (manifestPath root).EndsIn Path.manifestName :=
    (Path.endsIn_of_isName hname).join (Path.isAbsolute_of_isName hname) root
  cases hloc : disk.locate (manifestPath root) with
  | error obstacle =>
    have hfile : disk.isFile (manifestPath root) = false := by
      rw [Disk.isFile, Disk.contents?, hloc]
      rfl
    have hfile' : disk'.isFile (manifestPath root) = false := by
      rw [← Bool.not_eq_true]
      intro hfile'
      obtain ⟨loc, hloc', -⟩ := Disk.isFile_iff.mp hfile'
      rw [hsame.symm.locate hloc'] at hloc
      cases hloc
    rw [load, load, hfile, hfile']
    rfl
  | ok loc =>
    have hloc' := hsame.locate hloc
    obtain ⟨dir, -, rfl, -⟩ := Disk.locate_withFileName hend hloc
    have hat := h.contentsAt?_manifest dir
    have hfile : disk'.isFile (manifestPath root) = disk.isFile (manifestPath root) := by
      rw [Disk.isFile, Disk.isFile, Disk.contents?, Disk.contents?, hloc, hloc']
      exact congrArg Option.isSome hat
    have hread : disk'.read (manifestPath root) = disk.read (manifestPath root) := by
      rw [Disk.read_of_locate hloc, Disk.read_of_locate hloc', Disk.textAt, Disk.textAt, hat,
        hsame.isDirAt]
    rw [load, load, hfile, hread]

namespace Session

variable {s : Session} {project : Project} {work changed : List Path}

theorem run_dryRun (hdry : s.dryRun = true) (hpasses : s.passes = Pass.standard)
    (project : Project) (disk : Disk) :
    (s.run project disk).2 = disk ∧ GoesOn s (s.run project disk).1 := by
  have hkeep : ∀ pass ∈ s.passes, pass.KeepsToFile :=
    fun _ hpass => Pass.keepsToFile_of_mem (hpasses ▸ hpass)
  obtain ⟨hdisk, hon⟩ := runPasses_dryRun hdry project.entryFilePath
    (SourceTree.sources disk project.sourceDir) (project.pageFiles disk) hkeep disk
  rw [run_eq]
  exact ⟨hdisk, hon.dryRun, hon.passes, hon.artifacts, hon.kept⟩

theorem run_mirror (h : s.Mirrors work disk disk') (hpasses : s.passes = Pass.standard)
    (hwf : disk.WellFormed) (hwork : Workable disk work changed)
    (hdir : disk.isDir project.sourceDir = true)
    (htree : SourceTree.sources disk' project.sourceDir = SourceTree.sources disk project.sourceDir)
    (hpages : project.pageFiles disk' = project.pageFiles disk)
    (htreeWork : ∀ p ∈ SourceTree.sources disk project.sourceDir, p ∈ work)
    (hpagesWork : ∀ p ∈ project.pageFiles disk, p ∈ work)
    (horderly : (s.run project disk).1.Orderly disk changed) :
    (s.writing.run project disk').1 = (s.run project disk).1.writing := by
  rw [run_eq] at horderly
  have hsession := runPasses_mirror h (fun _ hpass => Pass.keepsToFile_of_mem (hpasses ▸ hpass))
    project.entryFilePath hwf hwork htreeWork (SourceTree.sources_pairwise hwf hdir) hpagesWork
    (project.pageFiles_pairwise disk) ⟨horderly.scattered, horderly.within⟩
  have hpasses' : s.writing.passes = s.passes := rfl
  rw [run_eq, run_eq, htree, hpages, hpasses', hsession]
  rfl

theorem planDependencies_writing (root : Path)
    (h : DependencyPlan.load root disk' = DependencyPlan.load root disk) :
    s.writing.planDependencies root disk' =
      ((s.planDependencies root disk).1.writing, (s.planDependencies root disk).2) := by
  unfold planDependencies
  rw [h]
  cases DependencyPlan.load root disk <;> rfl

theorem planDependencies_keeps (s : Session) (root : Path) (disk : Disk) :
    (s.planDependencies root disk).1.dryRun = s.dryRun ∧
      (s.planDependencies root disk).1.artifacts = s.artifacts ∧
      (s.planDependencies root disk).1.changed = s.changed := by
  unfold planDependencies
  cases DependencyPlan.load root disk <;> exact ⟨rfl, rfl, rfl⟩

end Session

theorem Report.ofSession_writing (project : Project) {s : Session}
    (dependencies : Option DependencyPlan) (hdry : s.dryRun = true) :
    ofSession project s dependencies =
      { ofSession project s.writing dependencies with dryRun := true } := by
  rw [ofSession, hdry]
  rfl

theorem migrate_asDry_disk (options : Options) (available : Nat) (disk : Disk) :
    (migrate options.asDry available disk).2 = disk := by
  cases hload : Project.load options.asDry disk with
  | error fault =>
    unfold migrate migrateWith
    rw [hload]
  | ok plan =>
    have hsound := Project.load_sound hload
    have hstart : (Session.start Pass.standard options.asDry available).dryRun = true := rfl
    obtain ⟨hdisk, hon⟩ := Session.commitGroups_dryRun hstart hsound.groups
    obtain ⟨hdisk', -⟩ := Session.run_dryRun hon.dryRun hon.passes plan.project disk
    rw [migrate_of_load available hload]
    simp only [Session.commitProject, hdisk]
    exact hdisk'

theorem migrate_asDry_of_load (available : Nat) (hload : Project.load options disk = .ok plan) :
    let start := Session.start Pass.standard options.asDry available
    let passed := ((start.commitGroups plan.writes disk).1.run plan.project disk).1
    let planned := passed.planDependencies plan.project.rootDir disk
    (migrate options.asDry available disk).1 = .ok (.ofSession plan.project planned.1 planned.2) ∧
      planned.1.dryRun = true ∧ planned.1.artifacts = passed.artifacts ∧
      planned.1.changed = passed.changed := by
  have hload' : Project.load options.asDry disk = .ok plan := hload
  have hsound := Project.load_sound hload
  obtain ⟨hdisk, hon⟩ := Session.commitGroups_dryRun
    (rfl : (Session.start Pass.standard options.asDry available).dryRun = true) hsound.groups
  obtain ⟨hdisk', hon'⟩ := Session.run_dryRun hon.dryRun hon.passes plan.project disk
  intro start passed planned
  obtain ⟨hdry, hlisted⟩ := passed.planDependencies_keeps plan.project.rootDir disk
  refine ⟨?_, hdry.trans hon'.dryRun, hlisted⟩
  rw [migrate_of_load available hload']
  simp only [Session.commitProject, hdisk, hdisk']
  rfl

/-- The dry run of a plain project reports what the migration does, if the new files are at
different places. -/
theorem report_asDry_eq {dry real : Report} (hwf : disk.WellFormed)
    (hload : Project.load options disk = .ok plan)
    (hdry : (migrate options.asDry available disk).1 = .ok dry)
    (hreal : (migrate options.asReal available disk).1 = .ok real)
    (hplain : plan.Plain options available disk dry.changedFiles)
    (hscattered : disk.Scattered dry.artifacts) : dry = { real with dryRun := true } := by
  have hload' : Project.load options.asReal disk = .ok plan := hload
  have hsound := Project.load_sound hload
  have hwork := hplain.workable hsound hwf
  obtain ⟨hreport, hplanned, hartifacts, hchanged⟩ := migrate_asDry_of_load available hload
  rw [hdry] at hreport
  cases hreport
  rw [migrate_of_load available hload'] at hreal
  cases hreal
  generalize hs : Session.start Pass.standard options.asDry available = s at *
  have hbegin : s.Mirrors (plan.work disk) disk disk := by
    rw [← hs]
    exact ⟨rfl, .refl _ disk⟩
  have hpasses : s.passes = Pass.standard := by rw [← hs]; rfl
  have hwriting : Session.start Pass.standard options.asReal available = s.writing := by
    rw [← hs]
    rfl
  have hpages := hplain.pages
  rw [Project.committed, hwriting] at hpages
  rw [hwriting]
  obtain ⟨hdisk, hon⟩ := Session.commitGroups_dryRun hbegin.dryRun hsound.groups
  have hon' := (Session.run_dryRun hon.dryRun (hon.passes.trans hpasses) plan.project disk).2
  have hpassed : ((s.commitGroups plan.writes disk).1.run plan.project disk).1.Orderly disk
      ((((s.commitGroups plan.writes disk).1.run plan.project disk).1.planDependencies
        plan.project.rootDir disk).1.changed) :=
    ⟨hartifacts ▸ hscattered, fun c hc => hchanged ▸ hc⟩
  -- the control files
  obtain ⟨hcommit, hmirrors⟩ := Session.commitGroups_mirror hbegin hwf hwork hsound.groups
    (fun g hg => List.mem_append_left _ (List.mem_append_left _ (List.mem_map_of_mem hg)))
    (hon'.orderly hpassed)
  obtain ⟨log, hcontrol, -⟩ := Session.commitGroups_journey (s := s.writing) ⟨rfl, rfl⟩ hwf
    hsound.groups
  -- the passes
  have hrun := Session.run_mirror hmirrors (hon.passes.trans hpasses) hwf hwork hsound.sourceDir
    (hcontrol.sources_eq hwf hsound.sourceDir) hpages
    (fun p hp => List.mem_append_left _ (List.mem_append_right _ hp))
    (fun p hp => List.mem_append_right _ hp) hpassed
  obtain ⟨log', hjourney, -⟩ := Session.run_journey
    (s := (s.commitGroups plan.writes disk).1.writing) ⟨rfl, rfl⟩ (hon.passes.trans hpasses)
    (hcontrol.wellFormed hwf) (hcontrol.grows.sameDirs.isDir hsound.sourceDir)
  have hdependencies := DependencyPlan.load_of_journey (hcontrol.append hjourney)
    plan.project.rootDir
  simp only [Session.commitProject, hcommit, hrun,
    Session.planDependencies_writing _ hdependencies]
  exact Report.ofSession_writing plan.project _ hplanned

/-- A dry run writes nothing and fails as the migration does. It reports what the migration does
only if the new files that it lists are at different places, and in a plain project always then. -/
theorem migrate_dryRun (options : Options) (available : Nat) (hwf : disk.WellFormed) :
    (migrate options.asDry available disk).2 = disk ∧
      (∀ fault, (migrate options.asDry available disk).1 = .error fault ↔
        (migrate options.asReal available disk).1 = .error fault) ∧
      ∀ plan, Project.load options disk = .ok plan →
        ∃ dry real, (migrate options.asDry available disk).1 = .ok dry ∧
          (migrate options.asReal available disk).1 = .ok real ∧
          (dry = { real with dryRun := true } → disk.Scattered dry.artifacts) ∧
          (plan.Plain options available disk dry.changedFiles →
            disk.Scattered dry.artifacts → dry = { real with dryRun := true }) := by
  refine ⟨migrate_asDry_disk options available disk, ?_, ?_⟩
  · intro fault
    cases hload : Project.load options disk with
    | error fault' =>
      have hload' : Project.load options.asDry disk = .error fault' := hload
      have hload'' : Project.load options.asReal disk = .error fault' := hload
      unfold migrate migrateWith
      rw [hload', hload'']
    | ok plan =>
      have hload' : Project.load options.asDry disk = .ok plan := hload
      have hload'' : Project.load options.asReal disk = .ok plan := hload
      rw [migrate_of_load available hload', migrate_of_load available hload'']
      constructor
      · intro h
        cases h
      · intro h
        cases h
  · intro plan hload
    have hload' : Project.load options.asReal disk = .ok plan := hload
    obtain ⟨hdry, -⟩ := migrate_asDry_of_load available hload
    obtain ⟨real, log, hreal, hjourney, hlists⟩ := migrate_journey available hwf rfl hload'
    have hreal' := congrArg Prod.fst hreal
    refine ⟨_, real, hdry, hreal', ?_, ?_⟩
    · intro hagree
      rw [hagree, hlists.artifacts]
      exact hjourney.scattered_artifacts
    · intro hplain hscattered
      exact report_asDry_eq hwf hload hdry hreal' hplain hscattered

/-- An entry module and a page beside it, whose configurations move to the same place. -/
def twinDisk : Disk :=
  let page := "export default class B \x7b config = \x7b a: 1 \x7d \x7d"
  (projectDisk "class A \x7b config = \x7b pages: ['app'] \x7d \x7d").putAt ["src", "app.jsx"]
    (.text page.toList)

set_option maxRecDepth 100000 in
/-- The dry run lists the new file twice. The migration adds it once, and leaves the page alone. -/
theorem migrate_dryRun_differs :
    twinDisk.WellFormed ∧
      written (migrate Options.standard.asDry 1 twinDisk).1 =
        some ([⟨"./src/app.js"⟩, ⟨"./src/app.jsx"⟩],
          [⟨"./src/app.config.js"⟩, ⟨"./src/app.config.js"⟩]) ∧
      written (migrate Options.standard.asReal 1 twinDisk).1 =
        some ([⟨"./src/app.js"⟩], [⟨"./src/app.config.js"⟩]) := by
  unfold twinDisk projectDisk
  dsimp only
  repeat rw [String.toList_ofList]
  decide +kernel

set_option maxRecDepth 100000 in
-- the entry module is a page under another path: there the dry run still finds its configuration
example :
    let disk := projectDisk "class A \x7b config = \x7b pages: ['../src/app'] \x7d \x7d"
    let skipping (options : Options) :=
      (migrate options 1 disk).1.toOption.map fun report => report.skipped.map (·.pass)
    skipping Options.standard.asDry = some ["page-config", "dependencies"] ∧
      skipping Options.standard.asReal = some ["dependencies"] := by
  unfold projectDisk
  dsimp only
  repeat rw [String.toList_ofList]
  decide +kernel

set_option maxRecDepth 100000 in
/-- With one configuration to move, the dry run reports what the migration does. -/
theorem migrate_dryRun_configured :
    ∃ dry real, configuredDisk.WellFormed ∧
      (migrate Options.standard.asDry 1 configuredDisk).1 = .ok dry ∧
      (migrate Options.standard.asReal 1 configuredDisk).1 = .ok real ∧
      real.artifacts = [⟨"./src/app.config.js"⟩] ∧ dry = { real with dryRun := true } := by
  have hwf : configuredDisk.WellFormed := by decide +kernel
  obtain ⟨hwritten, hloads, hplain⟩ :
      written (migrate Options.standard.asDry 1 configuredDisk).1 =
        some ([⟨"./src/app.js"⟩], [⟨"./src/app.config.js"⟩]) ∧
      (Project.load .standard configuredDisk).toOption.isSome = true ∧
      ∀ plan ∈ (Project.load .standard configuredDisk).toOption,
        (∀ p ∈ plan.work configuredDisk, ∀ q ∈ plan.work configuredDisk,
          (configuredDisk.locate p).toOption = (configuredDisk.locate q).toOption →
            p.same q = true) ∧
        plan.project.pageFiles (Project.committed Options.standard.asReal 1 plan configuredDisk) =
          plan.project.pageFiles configuredDisk := by
    rw [configuredDisk, projectDisk, String.toList_ofList, String.toList_ofList]
    decide +kernel
  cases hload : Project.load .standard configuredDisk with
  | error fault =>
    rw [hload] at hloads
    cases hloads
  | ok plan =>
    obtain ⟨hapart, hpages⟩ := hplain plan (by rw [hload]; rfl)
    obtain ⟨-, -, hreports⟩ := migrate_dryRun .standard 1 hwf
    obtain ⟨dry, real, hdry, hreal, -, hagree⟩ := hreports plan hload
    obtain ⟨dry', disk', hmigrate, -, hartifacts⟩ := eq_ok_of_written hwritten
    have hdry' := congrArg Prod.fst hmigrate
    rw [hdry] at hdry'
    cases hdry'
    have heq := hagree ⟨fun p hp _ q hq h => hapart p hp q hq (by rw [h]), hpages⟩
      (by rw [hartifacts]; exact List.pairwise_singleton _ _)
    refine ⟨dry, real, hwf, hdry, hreal, ?_, heq⟩
    rw [heq] at hartifacts
    exact hartifacts

end Codemod

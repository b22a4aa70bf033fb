import Codemod.Proofs.Migration.Visits

/-!
# Codemod.Proofs.Migration.Again

Migrating a project again.

A second migration is meant to find nothing to do. Whether it does is decided by the disk that the
first one left: `migrate_again_iff` says that it changes no file, and reports none, exactly if the
project can still be loaded and nothing comes of its visits to the files that the first migration
has changed, or has not visited. All other files are settled by the first migration.

That is a real condition: an edit which overlaps another one is dropped, and is then found by the
second migration (`migrate_again_not_idle`).
-/

namespace Codemod

variable {options : Options} {available : Nat} {disk disk' : Disk} {report : Report}

namespace Report

/-- One of the changed files is at the place that the path leads to. -/
def Touches (report : Report) (disk : Disk) (path : Path) : Prop :=
  ∃ q ∈ report.changedFiles, ∃ loc, disk.locate q = .ok loc ∧ disk.locate path = .ok loc

end Report

theorem Journey.locate_of_mem_log {visits : List Visit} {log : List Done} {d : Done}
    (h : Journey disk visits log disk') (hd : d ∈ log) : ∃ loc, disk.locate d.path = .ok loc := by
  induction h with
  | stop disk => cases hd
  | idle _ _ _ ih => exact ih hd
  | write _ hs _ _ ih =>
    rcases List.mem_cons.mp hd with rfl | hd
    · exact ⟨_, hs.located⟩
    · obtain ⟨loc, hloc⟩ := ih hd
      exact ⟨loc, (Disk.sameDirs_grant _ _ _).symm.locate hloc⟩

theorem Journey.wish_ne_nothing {visits : List Visit} {log : List Done} {d : Done}
    (h : Journey disk visits log disk') (hd : d ∈ log) : d.wish ≠ .nothing := by
  induction h with
  | stop disk => cases hd
  | idle _ _ _ ih => exact ih hd
  | write _ _ hbusy _ ih =>
    rcases List.mem_cons.mp hd with rfl | hd
    · exact (Visit.not_idle_iff.mp hbusy).1
    · exact ih hd

theorem load_of_migrate (h : migrate options available disk = (.ok report, disk')) :
    ∃ plan, Project.load options disk = .ok plan := by
  cases hload : Project.load options disk with
  | error fault =>
    unfold migrate migrateWith at h
    rw [hload] at h
    cases h
  | ok plan => exact ⟨plan, rfl⟩

theorem migrate_eq_ok (hwf : disk.WellFormed) (hreal : options.dryRun = false)
    (h : migrate options available disk = (.ok report, disk')) :
    ∃ log, Journey disk (migrationVisits options available disk) log disk' ∧ report.Lists log := by
  obtain ⟨plan, hload⟩ := load_of_migrate h
  obtain ⟨report', log, hmigrate, hjourney, hlists⟩ := migrate_journey available hwf hreal hload
  rw [h] at hmigrate hjourney
  cases hmigrate
  exact ⟨log, hjourney, hlists⟩

/-- A file at whose place nothing has changed was spared. -/
theorem Report.Lists.spares {visits : List Visit} {log : List Done} {path : Path}
    (hlists : report.Lists log) (hjourney : Journey disk visits log disk')
    (htouches : ¬ report.Touches disk path) : Journey.Spares log disk path := by
  intro d hd hrewritten loc hloc hpath
  obtain ⟨q, hq, hsame⟩ := hlists.changed d hd hrewritten
  obtain ⟨d', hd', rfl⟩ := hlists.only q hq
  obtain ⟨loc', hloc'⟩ := hjourney.locate_of_mem_log hd'
  cases Disk.locate_of_same hsame hloc' hloc
  exact htouches ⟨d'.path, hq, loc, hloc', hpath⟩

theorem Report.Lists.log_eq_nil {log : List Done} (hlists : report.Lists log)
    (hwishes : ∀ d ∈ log, d.wish ≠ .nothing) (hchanged : report.changedFiles = [])
    (hartifacts : report.artifacts = []) : log = [] := by
  rw [List.eq_nil_iff_forall_not_mem]
  intro d hd
  have hrewritten : d.wish.rewritten = none := by
    cases hr : d.wish.rewritten with
    | none => rfl
    | some text =>
      obtain ⟨q, hq, -⟩ := hlists.changed d hd (by rw [hr]; rfl)
      rw [hchanged] at hq
      cases hq
  have hmoved : d.wish.moved = none := by
    have hnil := List.flatMap_eq_nil_iff.mp (hlists.artifacts.symm.trans hartifacts) d hd
    rw [Done.artifacts, Wish.artifacts] at hnil
    simpa using hnil
  have heta : d.wish = ⟨d.wish.moved, d.wish.rewritten⟩ := rfl
  rw [hmoved, hrewritten] at heta
  exact hwishes d hd heta

/-- A second migration does nothing exactly if the project can still be loaded and nothing comes of
the visits to files that the first one has changed or has not visited. -/
theorem migrate_again_iff (hwf : disk.WellFormed) (hreal : options.dryRun = false)
    (h : migrate options available disk = (.ok report, disk')) :
    (∃ again, migrate options available disk' = (.ok again, disk') ∧
      again.changedFiles = [] ∧ again.artifacts = []) ↔
    (∃ plan, Project.load options disk' = .ok plan) ∧
      ∀ v ∈ migrationVisits options available disk',
        v ∉ migrationVisits options available disk ∨ report.Touches disk v.path →
          v.Idle disk' := by
  obtain ⟨log, hjourney, hlists⟩ := migrate_eq_ok hwf hreal h
  have hwf' := hjourney.wellFormed hwf
  constructor
  · rintro ⟨again, hagain, hchanged, hartifacts⟩
    obtain ⟨log', hjourney', hlists'⟩ := migrate_eq_ok hwf' hreal hagain
    have hlog := hlists'.log_eq_nil (fun d hd => hjourney'.wish_ne_nothing hd) hchanged hartifacts
    obtain ⟨-, hidle⟩ := hjourney'.idle_of_log_nil hlog
    exact ⟨load_of_migrate hagain, fun v hv _ => hidle v hv⟩
  · rintro ⟨⟨plan, hload⟩, hopen⟩
    obtain ⟨again, log', hagain, hjourney', hlists'⟩ := migrate_journey available hwf' hreal hload
    have hidle : ∀ v ∈ migrationVisits options available disk', v.Idle disk' := by
      intro v hv
      by_cases hvisited : v ∈ migrationVisits options available disk
      · by_cases htouches : report.Touches disk v.path
        · exact hopen v hv (.inr htouches)
        · exact hjourney.idle_after hwf hvisited (hlists.spares hjourney htouches)
      · exact hopen v hv (.inl hvisited)
    obtain ⟨rfl, hdisk⟩ := hjourney'.eq_of_idle hidle
    rw [hdisk] at hagain
    refine ⟨again, hagain, ?_, hlists'.artifacts⟩
    rw [List.eq_nil_iff_forall_not_mem]
    intro q hq
    obtain ⟨d, hd, -⟩ := hlists'.only q hq
    cases hd

/-- An entry module that gets an import behind one that is to go. -/
def crowdedDisk : Disk :=
  projectDisk "import 'nervjs'\nclass A \x7b f() \x7b return this.$router.params \x7d \x7d"

set_option maxRecDepth 100000 in
/-- The removal of the old import overlaps the new one and is dropped, until the next migration. -/
theorem migrate_again_not_idle :
    crowdedDisk.WellFormed ∧
      written (migrate .standard 1 crowdedDisk).1 = some ([⟨"./src/app.js"⟩], []) ∧
      written (migrate .standard 1 (migrate .standard 1 crowdedDisk).2).1 =
        some ([⟨"./src/app.js"⟩], []) := by
  -- the files as lists of characters, so that the runs do not decode the literals
  rw [crowdedDisk, projectDisk, String.toList_ofList, String.toList_ofList]
  decide +kernel

set_option maxRecDepth 100000 in
/-- Once the configuration has moved, the visits to the changed entry module are idle. -/
theorem migrate_again_iff_configured :
    ∃ report disk', configuredDisk.WellFormed ∧
      migrate .standard 1 configuredDisk = (.ok report, disk') ∧
      report.artifacts = [⟨"./src/app.config.js"⟩] ∧
      (∃ plan, Project.load .standard disk' = .ok plan) ∧
      ∀ v ∈ migrationVisits .standard 1 disk',
        v ∉ migrationVisits .standard 1 configuredDisk ∨
          report.Touches configuredDisk v.path → v.Idle disk' := by
  have hwf : configuredDisk.WellFormed := by decide +kernel
  obtain ⟨hfirst, hagain, hsame⟩ : written (migrate .standard 1 configuredDisk).1 =
        some ([⟨"./src/app.js"⟩], [⟨"./src/app.config.js"⟩]) ∧
      written (migrate .standard 1 (migrate .standard 1 configuredDisk).2).1 = some ([], []) ∧
      (migrate .standard 1 (migrate .standard 1 configuredDisk).2).2 =
        (migrate .standard 1 configuredDisk).2 := by
    rw [configuredDisk, projectDisk, String.toList_ofList, String.toList_ofList]
    decide +kernel
  obtain ⟨report, disk', hmigrate, -, hartifacts⟩ := eq_ok_of_written hfirst
  rw [hmigrate] at hagain hsame
  obtain ⟨again, disk'', hagain, hchanged, hnone⟩ := eq_ok_of_written hagain
  rw [hagain] at hsame
  subst hsame
  exact ⟨report, disk'', hwf, hmigrate, hartifacts, (migrate_again_iff hwf rfl hmigrate).mp
    ⟨again, hagain, hchanged, hnone⟩⟩

end Codemod

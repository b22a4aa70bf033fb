import Codemod.Proofs.Migration.Again
import Codemod.Proofs.Migration.DryRun
import Codemod.Proofs.Migration.Failure

/-!
# Codemod.Proofs.Migration.Listing

What a migration does to the disk is in its report, and what is in its report was done.

`migrate_frame` compares the disk before and after. A place where anything is different is that of a
changed file or of a new one; a new file was not there before and is there afterwards; a changed
file was there before, with one exception.

The exception is a file that the migration itself has added: once the control files are committed,
the new configuration module of the app is on the disk, and a page that goes by its name is visited
like any other. It takes a module that reads differently under its new extension to make anything
come of that visit (`migrate_frame_moved_page`).
-/

namespace Codemod

variable {options : Options} {available : Nat} {disk disk' : Disk} {plan : ProjectPlan}
  {report : Report} {log log' : List Done}

namespace Project

/-- A page of the project, with one of the extensions that are tried. -/
def NamesPage (p : Project) (path : Path) : Prop :=
  ∃ page ∈ p.pages, ∃ ext ∈ ["tsx", "ts", "jsx", "js"],
    path = ⟨(p.sourceDir.join (String.ofList (page.toList.dropWhile (· == '/')))).text ++ "." ++ ext⟩

theorem namesPage_of_mem_pageFiles {p : Project} {path : Path} (h : path ∈ p.pageFiles disk) :
    p.NamesPage path := by
  rw [pageFiles] at h
  rcases mem_foldl_addPageFile h with h | h
  · cases h
  · obtain ⟨page, hpage, hfile⟩ := List.mem_filterMap.mp h
    rw [pageFile?] at hfile
    obtain ⟨ext, hext, rfl⟩ := List.mem_map.mp (List.mem_of_find?_eq_some hfile)
    exact ⟨page, hpage, ext, hext, rfl⟩

theorem path_of_mem_visits {p : Project} {v : Visit} (h : v ∈ p.visits disk) :
    v.path ∈ SourceTree.sources disk p.sourceDir ∨ v.path ∈ p.pageFiles disk := by
  obtain ⟨pass, -, hv⟩ := List.mem_flatMap.mp h
  obtain ⟨path, hpath, rfl⟩ := List.mem_map.mp hv
  rw [Session.filesFor] at hpath
  split at hpath
  · exact .inl hpath
  · exact .inr hpath

end Project

namespace Report.Lists

theorem of_contents?_ne {visits : List Visit} (hlists : report.Lists log)
    (hjourney : Journey disk visits log disk') {path : Path}
    (hne : disk'.contents? path ≠ disk.contents? path) :
    ∃ q, (q ∈ report.changedFiles ∨ q ∈ report.artifacts) ∧ disk.SamePlace q path := by
  have hsame := hjourney.grows.sameDirs
  cases hloc : disk.locate path with
  | error obstacle =>
    -- a path that leads nowhere still leads nowhere
    have hloc' : ∀ loc, disk'.locate path ≠ .ok loc := by
      intro loc hloc'
      rw [hsame.symm.locate hloc'] at hloc
      cases hloc
    refine absurd ?_ hne
    rw [Disk.contents?, Disk.contents?, hloc]
    cases hlocate : disk'.locate path with
    | error obstacle' => rfl
    | ok loc => exact absurd hlocate (hloc' loc)
  | ok loc =>
    have hat : disk'.contentsAt? loc ≠ disk.contentsAt? loc := by
      rw [Disk.contents?, Disk.contents?, hloc, hsame.locate hloc] at hne
      exact hne
    have hwritten : ∃ d ∈ log, d.WritesAt disk loc := by
      apply Classical.byContradiction
      intro hnone
      exact hat (hjourney.contentsAt?_of_not_writesAt fun d hd hwrites => hnone ⟨d, hd, hwrites⟩)
    obtain ⟨d, hd, ⟨hrewritten, hplace⟩ | ⟨a, ha, hplace⟩⟩ := hwritten
    · obtain ⟨q, hq, hq'⟩ := hlists.changed d hd hrewritten
      obtain ⟨d', hd', rfl⟩ := hlists.only q hq
      obtain ⟨loc', hloc'⟩ := hjourney.locate_of_mem_log hd'
      cases Disk.locate_of_same hq' hloc' hplace
      exact ⟨d'.path, .inl hq, loc, hloc', hloc⟩
    · refine ⟨a, .inr ?_, loc, hplace, hloc⟩
      rw [hlists.artifacts]
      exact List.mem_flatMap.mpr ⟨d, hd, ha⟩

theorem of_mem_artifacts {visits : List Visit} (hlists : report.Lists log)
    (hjourney : Journey disk visits log disk') {a : Path} (ha : a ∈ report.artifacts) :
    disk.isThere a = false ∧ disk'.isFile a = true := by
  rw [hlists.artifacts] at ha
  obtain ⟨loc, hloc, hfree⟩ := hjourney.artifacts_new ha
  refine ⟨hfree, Disk.isFile_iff.mpr ⟨loc, hjourney.grows.sameDirs.locate hloc, ?_⟩⟩
  exact (hjourney.isSome_contentsAt? loc).mpr (.inr ⟨a, ha, hloc⟩)

end Report.Lists

/-- What the control files add is the configuration module of the app. -/
theorem Project.Sound.artifacts_control (hsound : Project.Sound disk plan) {mid : Disk}
    (hcontrol : Journey disk (plan.writes.map Visit.ofGroup) log mid) {a : Path}
    (ha : a ∈ log.flatMap Done.artifacts) : a = plan.project.entryFilePath.configModule := by
  obtain ⟨d, hd, ha⟩ := List.mem_flatMap.mp ha
  obtain ⟨v, hv, mid, rfl⟩ := hcontrol.exists_visit hd
  obtain ⟨group, hgroup, rfl⟩ := List.mem_map.mp hv
  obtain ⟨hmoved, rfl⟩ := Wish.mem_artifacts.mp ha
  exact congrArg Path.configModule (hsound.moves group hgroup hmoved)

/-- A changed file was there before, unless it is the configuration module that the app got. -/
theorem isFile_of_mem_changedFiles (hwf : disk.WellFormed) (hsound : Project.Sound disk plan)
    {mid : Disk} (hcontrol : Journey disk (plan.writes.map Visit.ofGroup) log mid)
    (hpassed : Journey mid (plan.project.visits mid) log' disk')
    (hlists : report.Lists (log ++ log')) {c : Path} (hc : c ∈ report.changedFiles) :
    disk.isFile c = true ∨
      plan.project.NamesPage c ∧ plan.project.entryFilePath.configModule ∈ report.artifacts ∧
        disk.SamePlace c plan.project.entryFilePath.configModule := by
  obtain ⟨d, hd, rfl⟩ := hlists.only c hc
  rcases List.mem_append.mp hd with hd | hd
  · obtain ⟨v, hv, _, rfl⟩ := hcontrol.exists_visit hd
    obtain ⟨group, hgroup, rfl⟩ := List.mem_map.mp hv
    exact .inl (hsound.groups group hgroup).isScript.isFile
  · obtain ⟨v, hv, _, rfl⟩ := hpassed.exists_visit hd
    rcases Project.path_of_mem_visits hv with hsource | hpage
    · -- committing the control files has added no source
      rw [hcontrol.sources_eq hwf hsound.sourceDir] at hsource
      exact .inl (SourceTree.isScript_of_mem_sources hwf hsound.sourceDir hsource).isFile
    · obtain ⟨loc, hloc, hat⟩ :=
        Disk.isFile_iff.mp (Project.isScript_of_mem_pageFiles hpage).isFile
      have hloc' := hcontrol.grows.sameDirs.symm.locate hloc
      rcases (hcontrol.isSome_contentsAt? loc).mp hat with hat | ⟨a, ha, hplace⟩
      · exact .inl (Disk.isFile_iff.mpr ⟨loc, hloc', hat⟩)
      · obtain rfl := hsound.artifacts_control hcontrol ha
        refine .inr ⟨Project.namesPage_of_mem_pageFiles hpage, ?_, loc, hloc', hplace⟩
        rw [hlists.artifacts, List.flatMap_append]
        exact List.mem_append_left _ ha

/-- A migration that fails, or is a dry run, leaves the disk as it was. Otherwise every difference
is at the place of a changed file or a new file that the report lists. New files were not there
before and are there now; files that were there and are not listed as changed are as they were; and
the listed ones were there, other than a page that goes by the name of the module which the
configuration of the app has moved to. -/
theorem migrate_frame (options : Options) (available : Nat) (hwf : disk.WellFormed) :
    (options.dryRun = true → (migrate options available disk).2 = disk) ∧
    (∀ fault disk', migrate options available disk = (.error fault, disk') → disk' = disk) ∧
    ∀ report disk', options.dryRun = false →
      migrate options available disk = (.ok report, disk') →
        disk.SameDirs disk' ∧
        (∀ path, disk'.contents? path ≠ disk.contents? path →
          ∃ q, (q ∈ report.changedFiles ∨ q ∈ report.artifacts) ∧ disk.SamePlace q path) ∧
        (∀ a ∈ report.artifacts, disk.isThere a = false ∧ disk'.isFile a = true) ∧
        (∀ c ∈ report.changedFiles, disk.isFile c = true ∨
          report.project.NamesPage c ∧
            report.project.entryFilePath.configModule ∈ report.artifacts ∧
            disk.SamePlace c report.project.entryFilePath.configModule) ∧
        ∀ path, disk.isFile path = true → ¬ report.Touches disk path →
          disk'.contents? path = disk.contents? path := by
  refine ⟨?_, fun fault disk' h => (migrateWith_eq_error h).1, ?_⟩
  · intro hdry
    have hoptions : options.asDry = options := by rw [Options.asDry, ← hdry]
    have hdisk := migrate_asDry_disk options available disk
    rwa [hoptions] at hdisk
  · intro report disk' hreal h
    obtain ⟨plan, hload⟩ := load_of_migrate h
    have hsound := Project.load_sound hload
    obtain ⟨_, log, log', hmigrate, hproject, hcontrol, hpassed, hlists⟩ :=
      migrate_stages available hwf hreal hload
    rw [h] at hmigrate hpassed
    cases hmigrate
    have hjourney := hcontrol.append hpassed
    refine ⟨hjourney.grows.sameDirs, fun path => hlists.of_contents?_ne hjourney,
      fun a => hlists.of_mem_artifacts hjourney, ?_, ?_⟩
    · rw [hproject]
      exact fun c => isFile_of_mem_changedFiles hwf hsound hcontrol hpassed hlists
    · intro path hfile htouches
      apply Classical.byContradiction
      intro hne
      obtain ⟨q, hq | hq, loc, hloc, hplace⟩ := hlists.of_contents?_ne hjourney hne
      · exact htouches ⟨q, hq, loc, hloc, hplace⟩
      · -- the file was there, so it is no new one
        obtain ⟨loc', hloc', hat⟩ := Disk.isFile_iff.mp hfile
        rw [hplace] at hloc'
        cases hloc'
        have hfree := (hlists.of_mem_artifacts hjourney hq).1
        rw [Disk.isThere_of_locate hloc, hat] at hfree
        cases hfree

/-- An entry module with a configuration that names its own module as a page. Where there is markup,
`<b>c</b>` ends and a string follows; where there is none, it is an assertion and a comparison with
a regular expression, and the object ends inside what was the string. -/
def movedPageDisk : Disk :=
  let tree := ((Disk.bare []).makeDirAt ["config"]).makeDirAt ["src"]
  let config := "x = \x7b sourceRoot: 'src', framework: '', defineConstants: 0 \x7d"
  let entry := "class A \x7b config = \x7b pages: ['app.config'], a: <b>c</b>, " ++
    "d: '/ \x7d.f(B); class B \x7b config = \x7b\x7d \x7d //' \x7d \x7d"
  (tree.putAt ["config", "index.js"] (.text config.toList)).putAt ["src", "app.tsx"]
    (.text entry.toList)

theorem movedPageDisk_wellFormed : movedPageDisk.WellFormed := by
  decide +kernel

set_option maxRecDepth 100000 in
theorem written_movedPageDisk :
    written (migrate .standard 1 movedPageDisk).1 =
      some ([⟨"./src/app.config.ts"⟩, ⟨"./src/app.tsx"⟩],
        [⟨"./src/app.config.ts"⟩, ⟨"./src/app.config.config.ts"⟩]) := by
  unfold movedPageDisk
  dsimp only
  rw [String.toList_append, String.toList_ofList, String.toList_ofList, String.toList_ofList]
  decide +kernel

/-- A file that was not there before is listed as changed. -/
theorem migrate_frame_moved_page :
    ∃ report disk' c, movedPageDisk.WellFormed ∧
      migrate .standard 1 movedPageDisk = (.ok report, disk') ∧
      c ∈ report.changedFiles ∧ movedPageDisk.isThere c = false := by
  obtain ⟨report, disk', hmigrate, hchanged, -⟩ := eq_ok_of_written written_movedPageDisk
  exact ⟨report, disk', ⟨"./src/app.config.ts"⟩, movedPageDisk_wellFormed, hmigrate,
    by simp [hchanged], by decide +kernel⟩

/-- One changed file was there and the other is the new module of the app; the build configuration
is as it was. -/
theorem migrate_frame_both_ways :
    ∃ report disk', movedPageDisk.WellFormed ∧
      migrate .standard 1 movedPageDisk = (.ok report, disk') ∧
      report.changedFiles = [⟨"./src/app.config.ts"⟩, ⟨"./src/app.tsx"⟩] ∧
      movedPageDisk.isFile ⟨"./src/app.tsx"⟩ = true ∧
      (report.project.NamesPage ⟨"./src/app.config.ts"⟩ ∧
        report.project.entryFilePath.configModule ∈ report.artifacts ∧
        movedPageDisk.SamePlace ⟨"./src/app.config.ts"⟩
          report.project.entryFilePath.configModule) ∧
      disk'.contents? ⟨"./config/index.js"⟩ = movedPageDisk.contents? ⟨"./config/index.js"⟩ := by
  have hold : movedPageDisk.isFile ⟨"./src/app.tsx"⟩ = true := by decide +kernel
  have hnew : movedPageDisk.isFile ⟨"./src/app.config.ts"⟩ = false := by decide +kernel
  have hconfig : movedPageDisk.isFile ⟨"./config/index.js"⟩ = true := by decide +kernel
  obtain ⟨report, disk', hmigrate, hchanged, -⟩ := eq_ok_of_written written_movedPageDisk
  obtain ⟨-, -, hframe⟩ := migrate_frame .standard 1 movedPageDisk_wellFormed
  obtain ⟨-, -, -, hexisted, hkept⟩ := hframe report _ rfl hmigrate
  refine ⟨report, disk', movedPageDisk_wellFormed, hmigrate, hchanged, hold, ?_,
    hkept _ hconfig ?_⟩
  · rcases hexisted ⟨"./src/app.config.ts"⟩ (by simp [hchanged]) with hfile | hmoved
    · rw [hnew] at hfile
      cases hfile
    · exact hmoved
  · rintro ⟨q, hq, loc, hloc, hplace⟩
    have hplaces : ∀ q ∈ [Path.mk "./src/app.config.ts", ⟨"./src/app.tsx"⟩],
        (movedPageDisk.locate q).toOption ≠
          (movedPageDisk.locate ⟨"./config/index.js"⟩).toOption := by decide +kernel
    rw [hchanged] at hq
    exact hplaces q hq (by rw [hloc, hplace])

end Codemod

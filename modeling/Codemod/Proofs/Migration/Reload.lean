import Codemod.Proofs.Migration.Listing
import Codemod.Proofs.Module.ConfigObject

/-!
# Codemod.Proofs.Migration.Reload

Loading a project again after it was migrated.

The first load finds the pages in the entry module, and the second one in the module that the
configuration has moved to. `load_again` says what it takes for the two to agree. The files of the
project are found where they were, since all new files are configuration modules by name
(`Journey.isFile_eq`); and the new module holds the object that has moved, since nothing is written
to its place once it is taken (`Journey.contentsAt?_moved`).

What remains is about texts: whether they read back, and whether the new module is the one that the
second load comes to. Each of these can fail (`load_again_differs`).
-/

namespace Codemod

namespace Entry

theorem moved_writes (script : Script) :
    (Wish.ofWrites (writes script)).moved =
      (moving? script.program).map fun found => found.1.asModule script.source := by
  rw [writes]
  cases moving? script.program <;> split <;> rfl

theorem pages_of_moving {program : Program} {object : ObjectLiteral} {span : Span}
    (h : moving? program = some (object, span)) : pages program = object.pages := by
  rw [moving?, Option.bind_eq_bind, Option.bind_eq_some_iff] at h
  obtain ⟨config, hconfig, h⟩ := h
  rw [Option.bind_eq_bind, Option.bind_eq_some_iff] at h
  obtain ⟨_, -, h⟩ := h
  cases h
  rw [pages, hconfig]
  rfl

end Entry

namespace Journey

variable {disk disk' : Disk} {visits : List Visit} {log : List Done}

theorem locate_artifact (h : Journey disk visits log disk') {a : Path}
    (ha : a ∈ log.flatMap Done.artifacts) :
    ∃ loc : Location, disk.locate a = .ok loc.configModule := by
  induction h with
  | stop disk => cases ha
  | idle _ _ _ ih => exact ih ha
  | write _ hs _ _ ih =>
    rw [List.flatMap_cons, List.mem_append] at ha
    rcases ha with ha | ha
    · obtain ⟨-, rfl⟩ := Wish.mem_artifacts.mp ha
      exact ⟨_, hs.beside⟩
    · obtain ⟨loc, hloc⟩ := ih ha
      exact ⟨loc, (Disk.sameDirs_grant _ _ _).symm.locate hloc⟩

/-- All new files are configuration modules by name. -/
theorem isFile_eq (h : Journey disk visits log disk') {path : Path}
    (hpath : Project.IsControl path) : disk'.isFile path = disk.isFile path := by
  obtain ⟨name, hend, -, hname⟩ := hpath
  have hsame := h.grows.sameDirs
  rw [Bool.eq_iff_iff, Disk.isFile_iff, Disk.isFile_iff]
  constructor
  · rintro ⟨loc, hloc, hat⟩
    have hloc' := hsame.symm.locate hloc
    refine ⟨loc, hloc', ((h.isSome_contentsAt? loc).mp hat).resolve_right ?_⟩
    rintro ⟨a, ha, hplace⟩
    obtain ⟨other, hother⟩ := h.locate_artifact ha
    obtain ⟨dir, -, rfl, -⟩ := Disk.locate_withFileName hend hloc'
    rw [hplace] at hother
    obtain ⟨-, hlast⟩ := List.append_inj' (Except.ok.inj hother) rfl
    rw [(List.cons.inj hlast).1, Path.holds_configName] at hname
    cases hname
  · rintro ⟨loc, hloc, hat⟩
    exact ⟨loc, hsame.locate hloc, h.grows.files loc hat⟩

/-- Where a visit always moves a configuration, there is a new file afterwards. -/
theorem exists_artifact (h : Journey disk visits log disk') {v : Visit} {loc : Location}
    (hv : v ∈ visits) (hmoves : ∀ disk, (v.wish disk).moved.isSome = true)
    (hloc : disk.locate v.path.configModule = .ok loc)
    (hfree : disk.isThere v.path.configModule = false) :
    ∃ a ∈ log.flatMap Done.artifacts, disk.locate a = .ok loc := by
  induction h with
  | stop disk => cases hv
  | @idle disk _ u _ _ _ hidle _ ih =>
    rcases List.mem_cons.mp hv with rfl | hv
    · rcases hidle with hnothing | hrefused
      · have hmoved := hmoves disk
        rw [hnothing] at hmoved
        cases hmoved
      · exact absurd (fun _ => hfree) hrefused
    · exact ih hv hloc hfree
  | @write disk _ u _ log place hscript hs _ _ ih =>
    have hsame := Disk.sameDirs_grant disk place (u.wish disk)
    rw [List.flatMap_cons]
    rcases List.mem_cons.mp hv with rfl | hv
    · refine ⟨v.path.configModule, List.mem_append_left _ ?_, hloc⟩
      exact Wish.mem_artifacts.mpr ⟨hmoves disk, rfl⟩
    · by_cases hplace : (u.wish disk).moved.isSome = true ∧ place.configModule = loc
      · refine ⟨u.path.configModule, List.mem_append_left _ ?_, hplace.2 ▸ hs.beside⟩
        exact Wish.mem_artifacts.mpr ⟨hplace.1, rfl⟩
      · -- the place is still free
        have hfree' : (disk.grant place (u.wish disk)).isThere v.path.configModule = false := by
          rw [Disk.isThere_of_locate hloc, Bool.or_eq_false_iff] at hfree
          rw [Disk.isThere_of_locate (hsame.locate hloc), hsame.isDirAt, hfree.2, Bool.or_false,
            ← Bool.not_eq_true, Disk.isSome_contentsAt?_grant _ _ _ _ (hscript.contentsAt? hs),
            hfree.1, not_or]
          exact ⟨Bool.false_ne_true, hplace⟩
        obtain ⟨a, ha, hplaced⟩ := ih hv (hsame.locate hloc) hfree'
        exact ⟨a, List.mem_append_right _ ha, hsame.symm.locate hplaced⟩

theorem contentsAt?_of_spares (h : Journey disk visits log disk') {path : Path} {loc : Location}
    (hspares : Spares log disk path) (hloc : disk.locate path = .ok loc)
    (hat : (disk.contentsAt? loc).isSome = true) :
    disk'.contentsAt? loc = disk.contentsAt? loc := by
  refine h.contentsAt?_of_not_writesAt ?_
  rintro d hd (⟨hrewritten, hplace⟩ | ⟨a, ha, hplace⟩)
  · exact hspares d hd hrewritten loc hplace hloc
  · -- new files are where no file was
    rw [h.artifacts_free (List.mem_flatMap.mpr ⟨d, hd, ha⟩) hplace] at hat
    cases hat

/-- A new file holds what has moved to it, as long as it is spared. -/
theorem contentsAt?_moved (h : Journey disk visits log disk') {d : Done} {text : Text}
    {loc : Location} (hd : d ∈ log) (hmoved : d.wish.moved = some text)
    (hloc : disk.locate d.path.configModule = .ok loc)
    (hspares : Spares log disk d.path.configModule) :
    disk'.contentsAt? loc = some (.text text) := by
  induction h with
  | stop disk => cases hd
  | idle _ _ _ ih => exact ih hd hloc hspares
  | @write disk _ u _ log place _ hs _ hrest ih =>
    have hsame := Disk.sameDirs_grant disk place (u.wish disk)
    have hspares' : Spares log disk d.path.configModule :=
      fun d' hd' => hspares d' (List.mem_cons_of_mem _ hd')
    rcases List.mem_cons.mp hd with rfl | hd
    · rw [hs.beside] at hloc
      cases hloc
      have hat : (disk.grant place (u.wish disk)).contentsAt? place.configModule =
          some (.text text) := by
        rw [Disk.contentsAt?_grant, if_neg, if_pos ⟨by rw [hmoved]; rfl, rfl⟩, hmoved]
        · rfl
        · rintro ⟨hrewritten, hplace⟩
          exact hspares _ List.mem_cons_self hrewritten place hs.located (hplace ▸ hs.beside)
      rw [hrest.contentsAt?_of_spares (hspares'.of_sameDirs hsame) (hsame.locate hs.beside)
        (by rw [hat]; rfl), hat]
    · exact ih hd (hsame.locate hloc) (hspares'.of_sameDirs hsame)

end Journey

theorem Disk.read_eq_of_contentsAt? {disk disk' : Disk} {path : Path} {loc : Location}
    (hsame : disk.SameDirs disk') (hloc : disk.locate path = .ok loc)
    (h : disk'.contentsAt? loc = disk.contentsAt? loc) : disk'.read path = disk.read path := by
  rw [read_of_locate (hsame.locate hloc), read_of_locate hloc, textAt, textAt, h, hsame.isDirAt]

variable {options : Options} {available : Nat} {disk disk' : Disk} {plan : ProjectPlan}
  {report : Report} {script : Script} {object : ObjectLiteral} {span : Span}

/-- The configuration of the entry module is in its new module. -/
theorem read_configModule {log log' : List Done} {mid : Disk} {visits : List Visit}
    (hwf : disk.WellFormed) (hload : Project.load options disk = .ok plan)
    (hcontrol : Journey disk (plan.writes.map Visit.ofGroup) log mid)
    (hpassed : Journey mid visits log' disk') (hlists : report.Lists (log ++ log'))
    (hentry : Project.readScript disk plan.project.entryFilePath = .ok script)
    (hmoving : Entry.moving? script.program = some (object, span))
    (hnew : plan.project.entryFilePath.configModule ∈ report.artifacts)
    (hspared : ¬ report.Touches disk plan.project.entryFilePath.configModule) :
    disk'.read plan.project.entryFilePath.configModule = .ok (object.asModule script.source) := by
  have hjourney := hcontrol.append hpassed
  obtain ⟨hfree, -⟩ := hlists.of_mem_artifacts hjourney hnew
  obtain ⟨loc, hs, -⟩ := (Project.load_sound hload).entry.sits hwf
  obtain ⟨entry, hloads, hplanned, hwrites⟩ := Project.loads_of_load hload
  obtain rfl : entry = script := Except.ok.inj (hloads.entry.symm.trans hentry)
  have hmoved : (Wish.ofWrites (Entry.writes entry)).moved =
      some (object.asModule entry.source) := by
    rw [Entry.moved_writes, hmoving]
    rfl
  have hgroup : (plan.project.entryFilePath, Entry.writes entry) ∈ plan.writes := by
    refine hplanned fun hnil => ?_
    rw [hnil] at hmoved
    cases hmoved
  -- the place was free, so one of the control files has got a new module there
  obtain ⟨a, ha, -⟩ := hcontrol.exists_artifact (List.mem_map_of_mem hgroup)
    (fun _ => by rw [Visit.wish, Visit.ofGroup, hmoved]; rfl) hs.beside hfree
  obtain ⟨d, hd, ha⟩ := List.mem_flatMap.mp ha
  obtain ⟨v, hv, _, rfl⟩ := hcontrol.exists_visit hd
  obtain ⟨group, hgroup', rfl⟩ := List.mem_map.mp hv
  rcases hwrites group hgroup' with ⟨text, rfl⟩ | rfl
  · cases (Wish.mem_artifacts.mp ha).1
  · have hat := hjourney.contentsAt?_moved (List.mem_append_left log' hd) hmoved hs.beside
      (hlists.spares hjourney hspared)
    rw [Disk.read_of_locate (hjourney.grows.sameDirs.locate hs.beside), Disk.textAt, hat]
    rfl

theorem declared_of_not_touches {p : Project} {root : Path} {log : List Done}
    {visits : List Visit} (hlists : report.Lists log) (hjourney : Journey disk visits log disk')
    (hfound : Project.locateBuildConfig disk root = .ok p.buildConfigPath)
    (hdeclared : p.Declared disk) (htouches : ¬ report.Touches disk p.buildConfigPath) :
    p.Declared disk' := by
  obtain ⟨config, object, hconfig, hfind⟩ := hdeclared
  obtain ⟨loc, hloc, hat⟩ := Disk.isFile_iff.mp (Project.isFile_of_locateBuildConfig hfound)
  have hread : disk'.read p.buildConfigPath = disk.read p.buildConfigPath :=
    Disk.read_eq_of_contentsAt? hjourney.grows.sameDirs hloc
      (hjourney.contentsAt?_of_spares (hlists.spares hjourney htouches) hloc hat)
  refine ⟨config, object, ?_, hfind⟩
  rw [Project.readScript, hread, ← Project.readScript, hconfig]

/-- What a second load has to find once the object has moved out of the entry module. -/
structure Project.Legible (p : Project) (report : Report) (disk disk' : Disk) (script : Script)
    (object : ObjectLiteral) : Prop where
  /-- The build configuration still declares the source root, in case it was changed. -/
  declared : report.Touches disk p.buildConfigPath → p.Declared disk'
  /-- What is left of the entry module can be read and names no pages. -/
  left : ∃ rest, readScript disk' p.entryFilePath = .ok rest ∧ Entry.pages rest.program = []
  /-- The text of the new module reads as the object. -/
  moved : ∃ module object',
    Script.parse p.entryFilePath.configModule (object.asModule script.source) = .ok module ∧
      module.program.defaultExport = .object object' ∧ object'.Same object
  /-- No pass has changed the new module. -/
  spared : ¬ report.Touches disk p.entryFilePath.configModule
  /-- The search for pages comes to it. -/
  searched : Searched disk' (configModules p.entryFilePath) p.entryFilePath.configModule
  /-- If the object names no pages, no other module did. -/
  named : object.pages = [] → p.pages = []

theorem Project.Loads.pages_eq {p : Project} (h : p.Loads options disk script)
    (hmoving : Entry.moving? script.program = some (object, span))
    (hnamed : object.pages = [] → p.pages = []) : p.pages = object.pages := by
  have hpages := h.pages
  rw [Entry.pages_of_moving hmoving] at hpages
  by_cases hnone : object.pages = []
  · rw [hnamed hnone, hnone]
  · rw [if_neg (by simpa using hnone)] at hpages
    exact (Except.ok.inj hpages).symm

/-- Once the configuration of the entry module has moved to a new module, the project is loaded as
it was before, with the same pages, if only the texts are legible. -/
theorem load_again {first : ProjectPlan} (hwf : disk.WellFormed) (hreal : options.dryRun = false)
    (hload : Project.load options disk = .ok first)
    (h : migrate options available disk = (.ok report, disk'))
    (hentry : Project.readScript disk first.project.entryFilePath = .ok script)
    (hmoving : Entry.moving? script.program = some (object, span))
    (hnew : first.project.entryFilePath.configModule ∈ report.artifacts)
    (hlegible : first.project.Legible report disk disk' script object) :
    ∃ again, Project.load options disk' = .ok again ∧ again.project = first.project := by
  obtain ⟨_, log, log', hmigrate, -, hcontrol, hpassed, hlists⟩ :=
    migrate_stages available hwf hreal hload
  rw [h] at hmigrate hpassed
  cases hmigrate
  have hjourney := hcontrol.append hpassed
  obtain ⟨entry, hloads, -⟩ := Project.loads_of_load hload
  obtain rfl : entry = script := Except.ok.inj (hloads.entry.symm.trans hentry)
  have hfiles : ∀ path, Project.IsControl path → disk'.isFile path = disk.isFile path :=
    fun _ hpath => hjourney.isFile_eq hpath
  have hdeclared : first.project.Declared disk' := by
    by_cases htouches : report.Touches disk first.project.buildConfigPath
    · exact hlegible.declared htouches
    · exact declared_of_not_touches hlists hjourney hloads.buildConfig hloads.declared htouches
  have hroot : (Text.isBlank first.project.sourceRoot.toList ||
      !disk'.isDir first.project.sourceDir) = false := by
    have hdir := hjourney.grows.sameDirs.isDir (Project.load_sound hload).sourceDir
    have hroot := hloads.sourceRoot
    rw [Bool.or_eq_false_iff] at hroot ⊢
    exact ⟨hroot.1, by rw [hdir]; rfl⟩
  obtain ⟨rest, hrest, hnone⟩ := hlegible.left
  obtain ⟨module, object', hparse, hexport, hobject⟩ := hlegible.moved
  have hmodule :
      Project.readScript disk' first.project.entryFilePath.configModule = .ok module := by
    rw [Project.readScript, read_configModule hwf hload hcontrol hpassed hlists hentry hmoving hnew
      hlegible.spared, Fault.ok_bind, hparse]
    rfl
  have hagain : first.project.Loads options disk' rest := by
    refine ⟨hloads.rootDir, ?_, hdeclared, hroot, ?_, hrest, ?_⟩
    · rw [Project.locateBuildConfig_eq hfiles, hloads.buildConfig]
    · rw [Project.locateEntry_eq hfiles, hloads.entryFile]
    · rw [hnone, List.isEmpty_nil, if_pos rfl,
        Project.configuredPages_of_object hlegible.searched hmodule hexport,
        hobject.pages_eq, hloads.pages_eq hmoving hlegible.named]
  exact hagain.load

/-- Whether an object, moved to a module of its own, reads as it did. -/
def ObjectLiteral.rereads (object : ObjectLiteral) (source : Text) (path : Path) : Bool :=
  (Script.parse path (object.asModule source)).toOption.any fun module =>
    match module.program.defaultExport with
    | .object object' => decide (object'.Same object)
    | _ => false

theorem ObjectLiteral.of_rereads {source : Text} {path : Path}
    (h : object.rereads source path = true) :
    ∃ module object', Script.parse path (object.asModule source) = .ok module ∧
      module.program.defaultExport = .object object' ∧ object'.Same object := by
  obtain ⟨module, hparse, h⟩ := exists_ok_of_any h
  split at h
  · rename_i object' hexport
    exact ⟨module, object', hparse, hexport, of_decide_eq_true h⟩
  · cases h

def indentedDisk : Disk :=
  projectDisk "class A \x7b\n  config = \x7b\n    pages: ['a']\n  \x7d\n\x7d"

set_option maxRecDepth 100000 in
/-- The configuration has moved to the left margin of its new module, and the page is found
there. -/
theorem load_again_indented :
    ∃ first again report disk', indentedDisk.WellFormed ∧
      Project.load .standard indentedDisk = .ok first ∧ first.project.pages = ["a"] ∧
      migrate .standard 1 indentedDisk = (.ok report, disk') ∧
      report.artifacts = [⟨"./src/app.config.js"⟩] ∧
      Project.load .standard disk' = .ok again ∧ again.project = first.project := by
  have hwf : indentedDisk.WellFormed := by decide +kernel
  have hruns : ((Project.load .standard indentedDisk).toOption.any fun plan => decide
        (plan.project = ⟨⟨"."⟩, ⟨"./config/index.js"⟩, "src", ⟨"./src/app.js"⟩, ["a"]⟩)) ∧
      ((Project.readScript indentedDisk ⟨"./src/app.js"⟩).toOption.any fun script =>
        (Entry.moving? script.program).any fun found =>
          !found.1.pages.isEmpty && found.1.rereads script.source ⟨"./src/app.config.js"⟩) ∧
      written (migrate .standard 1 indentedDisk).1 =
        some ([⟨"./src/app.js"⟩], [⟨"./src/app.config.js"⟩]) ∧
      ((Project.readScript (migrate .standard 1 indentedDisk).2
        ⟨"./src/app.js"⟩).toOption.any fun rest => (Entry.pages rest.program).isEmpty) ∧
      (migrate .standard 1 indentedDisk).2.isFile ⟨"./src/app.config.js"⟩ = true ∧
      (migrate .standard 1 indentedDisk).2.isFile ⟨"./src/app.config.ts"⟩ = false := by
    rw [indentedDisk, projectDisk, String.toList_ofList, String.toList_ofList]
    decide +kernel
  have hplaces : ∀ path ∈ [Path.mk "./config/index.js", ⟨"./src/app.config.js"⟩],
      (indentedDisk.locate ⟨"./src/app.js"⟩).toOption ≠ (indentedDisk.locate path).toOption := by
    decide +kernel
  have hentryFile : Path.configModule ⟨"./src/app.js"⟩ = ⟨"./src/app.config.js"⟩ := by
    decide +kernel
  have hmodules : Project.configModules ⟨"./src/app.js"⟩ =
      [⟨"./src/app.config.ts"⟩, ⟨"./src/app.config.js"⟩] := by decide +kernel
  obtain ⟨hproject, hmoves, hwritten, hleft, hfiles⟩ := hruns
  obtain ⟨report, disk', hmigrate, hchanged, hartifacts⟩ := eq_ok_of_written hwritten
  rw [hmigrate] at hleft hfiles
  obtain ⟨first, hload, hproject⟩ := exists_ok_of_any hproject
  have hproject := of_decide_eq_true hproject
  obtain ⟨script, hscript, hmoves⟩ := exists_ok_of_any hmoves
  obtain ⟨⟨object, span⟩, hmoving, hmoves⟩ := (Option.any_eq_true _ _).mp hmoves
  rw [Bool.and_eq_true] at hmoves
  obtain ⟨rest, hrest, hnone⟩ := exists_ok_of_any hleft
  have hspared : ∀ path ∈ [Path.mk "./config/index.js", ⟨"./src/app.config.js"⟩],
      ¬ report.Touches indentedDisk path := by
    rintro path hpath ⟨q, hq, loc, hloc, hplace⟩
    rw [hchanged, List.mem_singleton] at hq
    subst hq
    exact hplaces path hpath (by rw [hloc, hplace])
  have hlegible : first.project.Legible report indentedDisk disk' script object := by
    rw [hproject]
    refine ⟨fun htouches => absurd htouches (hspared _ (by simp)), ?_, ?_, ?_, ?_, ?_⟩
    · exact ⟨rest, hrest, List.isEmpty_iff.mp hnone⟩
    · exact ObjectLiteral.of_rereads (hentryFile ▸ hmoves.2)
    · exact hspared _ (by simp [hentryFile])
    · rw [hentryFile, hmodules]
      exact ⟨hfiles.1, [_], [], rfl, by simpa using .inl hfiles.2⟩
    · intro hnil
      simp [hnil] at hmoves
  obtain ⟨again, hagain, hsame⟩ := load_again hwf rfl hload hmigrate
    (by rw [hproject]; exact hscript) hmoving
    (by rw [hproject, hartifacts, hentryFile]; exact List.mem_singleton_self _) hlegible
  exact ⟨first, again, report, disk', hwf, hload, by rw [hproject], hmigrate, hartifacts, hagain,
    hsame⟩

/-- A project whose entry module, which is typed and may have markup, has this configuration. -/
def typedDisk (config : String) : Disk :=
  let tree := ((Disk.bare []).makeDirAt ["config"]).makeDirAt ["src"]
  let build := "x = \x7b sourceRoot: 'src', framework: '', defineConstants: 0 \x7d"
  (tree.putAt ["config", "index.js"] (.text build.toList)).putAt ["src", "app.tsx"]
    (.text ("class A \x7b config = " ++ config ++ " \x7d").toList)

set_option maxRecDepth 100000 in
/-- A module that was there before is the first that the search comes to, or no longer is; a second
configuration is left in the entry module; and what may have markup moves to a module that may not.
In none of these cases does the second load find the pages of the first. -/
theorem load_again_differs :
    let pages (disk : Disk) := (Project.load .standard disk).toOption.map (·.project.pages)
    let artifacts (disk : Disk) := (migrate .standard 1 disk).1.toOption.map (·.artifacts)
    let after (disk : Disk) := pages (migrate .standard 1 disk).2
    let shadowed := (projectDisk "class A \x7b config = \x7b pages: ['a'] \x7d \x7d").putAt
      ["src", "app.config.ts"] (.text "export default \x7b\x7d".toList)
    let doubled := projectDisk
      "class A \x7b config = \x7b pages: ['a'] \x7d; config = \x7b pages: ['b'] \x7d \x7d"
    let marked := typedDisk "\x7b pages: ['a'], b: <b>c</b> \x7d"
    let covered := (typedDisk "\x7b\x7d").putAt
      ["src", "app.config.js"] (.text "export default \x7b pages: ['a'] \x7d".toList)
    (shadowed.WellFormed ∧ artifacts shadowed = some [⟨"./src/app.config.js"⟩] ∧
      pages shadowed = some ["a"] ∧ after shadowed = some []) ∧
    (doubled.WellFormed ∧ artifacts doubled = some [⟨"./src/app.config.js"⟩] ∧
      pages doubled = some ["a"] ∧ after doubled = some ["b"]) ∧
    (marked.WellFormed ∧ artifacts marked = some [⟨"./src/app.config.ts"⟩] ∧
      pages marked = some ["a"] ∧ after marked = none) ∧
    covered.WellFormed ∧ artifacts covered = some [⟨"./src/app.config.ts"⟩] ∧
      pages covered = some ["a"] ∧ after covered = some [] := by
  unfold typedDisk projectDisk
  dsimp only
  repeat rw [String.toList_append]
  repeat rw [String.toList_ofList]
  decide +kernel

end Codemod

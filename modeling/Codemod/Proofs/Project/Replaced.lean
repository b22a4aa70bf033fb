import Codemod.Proofs.Disk.Agree
import Codemod.Proofs.Project.Load
import Codemod.Proofs.SourceTree

/-!
# Codemod.Proofs.Project.Replaced

Loading a project whose build configuration has another text.

The other files of a project have other names than its build configuration, so a load finds them
where they were and reads what it read (`load_replaced`). Of the build configuration it needs the
source root, and what it plans for it depends on the configuration object.
-/

namespace Codemod

namespace Disk

variable {disk : Disk} {loc : Location}

/-- A file that is written anew is where it was. -/
theorem samePaths_putAt (hat : (disk.contentsAt? loc).isSome = true) (contents : Contents) :
    SamePaths disk (disk.putAt loc contents) := by
  refine ⟨.putAt disk loc contents, fun other => ?_⟩
  rw [contentsAt?_putAt]
  split
  · rename_i heq
    rw [← heq, hat]
    rfl
  · rfl

end Disk

namespace Project

variable {options : Options} {disk disk' : Disk} {plan : ProjectPlan} {path : Path}

theorem configuredPages_congr {paths : List Path}
    (h : ∀ path ∈ paths, disk'.isFile path = disk.isFile path ∧
      (disk.isFile path = true → disk'.read path = disk.read path)) :
    configuredPages disk' paths = configuredPages disk paths := by
  induction paths with
  | nil => rfl
  | cons path paths ih =>
    obtain ⟨hfile, hread⟩ := h path List.mem_cons_self
    rw [configuredPages, configuredPages, ih fun p hp => h p (List.mem_cons_of_mem path hp), hfile]
    split
    · rename_i hthere
      rw [readScript, readScript, hread hthere]
    · rfl

theorem endsIn_of_locateBuildConfig {root : Path} (h : locateBuildConfig disk root = .ok path) :
    ∃ name ∈ ["index.js", "index.ts"], path.EndsIn name := by
  unfold locateBuildConfig at h
  split at h
  · rename_i hfound
    cases h
    obtain ⟨candidate, hcandidate, rfl⟩ := List.mem_map.mp (List.mem_of_find?_eq_some hfound)
    exact endsIn_candidate hcandidate root
  · cases h

theorem endsIn_of_locateEntry {dir : Path} (h : locateEntry disk dir = .ok path) :
    ∃ ext ∈ SourceTree.extensions, path.EndsIn (Entry.stem ++ "." ++ ext) := by
  unfold locateEntry at h
  split at h
  · rename_i hfound
    cases h
    obtain ⟨ext, hext, rfl⟩ := List.mem_map.mp (List.mem_of_find?_eq_some hfound)
    have hname : ∀ e ∈ SourceTree.extensions, Text.IsName (Entry.stem ++ "." ++ e).toList := by
      decide
    exact ⟨ext, hext, (Path.endsIn_of_isName (hname ext hext)).join
      (Path.isAbsolute_of_isName (hname ext hext)) dir⟩
  · cases h

/-- Nothing is planned for a build configuration that needs no edits. -/
theorem owner_of_settled {script : Script} {object : ObjectLiteral} {root : String}
    (hload : load options disk = .ok plan)
    (hscript : readScript disk plan.project.buildConfigPath = .ok script)
    (hfind : BuildConfig.find? script.program = some (object, root))
    (hsettled : BuildConfig.edits script.source script.style options object = []) :
    ∀ group ∈ plan.writes, group.1 = plan.project.entryFilePath := by
  rw [load] at hload
  obtain ⟨configPath, -, hload⟩ := Fault.bind_eq_ok hload
  obtain ⟨config, hconfig, hload⟩ := Fault.bind_eq_ok hload
  cases hfound : BuildConfig.find? config.program with
  | none =>
    rw [hfound] at hload
    cases hload
  | some found =>
    simp only [hfound] at hload
    obtain ⟨_, hpair, hload⟩ := Fault.bind_eq_ok hload
    cases hpair
    split at hload
    · obtain ⟨_, hthrow, -⟩ := Fault.bind_eq_ok hload
      cases hthrow
    obtain ⟨entryPath, -, hload⟩ := Fault.bind_eq_ok hload
    obtain ⟨entry, -, hload⟩ := Fault.bind_eq_ok hload
    obtain ⟨pages, hload⟩ : ∃ pages, _ = Except.ok plan := by
      split at hload
      · obtain ⟨pages, -, hload⟩ := Fault.bind_eq_ok hload
        exact ⟨pages, hload⟩
      · obtain ⟨pages, -, hload⟩ := Fault.bind_eq_ok hload
        exact ⟨pages, hload⟩
    cases hload
    obtain rfl : config = script := Except.ok.inj (hconfig.symm.trans hscript)
    obtain rfl : found = (object, root) := Option.some.inj (hfound.symm.trans hfind)
    intro group hgroup
    rw [hsettled, List.isEmpty_nil, if_pos rfl, List.nil_append] at hgroup
    split at hgroup
    · cases hgroup
    · rw [List.mem_singleton.mp hgroup]

/-- The names of the entry module and of its configuration modules. -/
def entryNames : List String :=
  SourceTree.extensions.map (fun ext => Entry.stem ++ "." ++ ext) ++
    ["ts", "js"].map fun ext => Entry.stem ++ ".config." ++ ext

/-- What a load finds and reads beside the build configuration is found and read again if the build
configuration has another text. -/
theorem load_replaced {loc : Location} {text : Text} {script : Script} {object : ObjectLiteral}
    (hload : load options disk = .ok plan)
    (hloc : disk.locate plan.project.buildConfigPath = .ok loc)
    (hparse : Script.parse plan.project.buildConfigPath text = .ok script)
    (hfind : BuildConfig.find? script.program = some (object, plan.project.sourceRoot))
    (hsettled : BuildConfig.edits script.source script.style options object = []) :
    ∃ again, load options (disk.putAt loc (.text text)) = .ok again ∧
      again.project = plan.project ∧ ∀ group ∈ again.writes,
        group.1 = plan.project.entryFilePath ∧ group.1 ≠ plan.project.buildConfigPath := by
  obtain ⟨entry, hloads, -⟩ := loads_of_load hload
  obtain ⟨loc', hloc', hat⟩ := Disk.isFile_iff.mp (isFile_of_locateBuildConfig hloads.buildConfig)
  obtain rfl : loc' = loc := Except.ok.inj (hloc'.symm.trans hloc)
  have hpaths := Disk.samePaths_putAt hat (.text text)
  have hagree : Disk.AgreeOn (· ≠ loc') disk (disk.putAt loc' (.text text)) :=
    .of_putAt disk (by simp) _
  generalize hdisk : disk.putAt loc' (.text text) = disk' at hpaths hagree
  -- the build configuration has another name than what is in the source directory
  obtain ⟨name, hname, hend⟩ := endsIn_of_locateBuildConfig hloads.buildConfig
  obtain ⟨ext, hext, hentry⟩ := endsIn_of_locateEntry hloads.entryFile
  obtain ⟨place, hplace, -⟩ := Disk.isFile_iff.mp (isFile_of_locateEntry hloads.entryFile)
  obtain ⟨dir, -, rfl, -⟩ := Disk.locate_withFileName hend hloc
  obtain ⟨src, -, rfl, hbeside⟩ := Disk.locate_withFileName hentry hplace
  have hnames : ∀ other ∈ entryNames, Text.IsName other.toList ∧
      ∀ name ∈ ["index.js", "index.ts"], other ≠ name := by
    decide
  have hother {other : String} (h : other ∈ entryNames) : src ++ [other] ≠ dir ++ [name] := by
    intro heq
    obtain ⟨-, hlast⟩ := List.append_inj' heq rfl
    exact (hnames other h).2 name hname (List.cons.inj hlast).1
  have hnew : readScript disk' plan.project.buildConfigPath = .ok script := by
    have hread : disk'.read plan.project.buildConfigPath = .ok text := by
      rw [Disk.read_of_locate (hagree.sameDirs.locate hloc), Disk.textAt, ← hdisk,
        Disk.contentsAt?_putAt, if_pos rfl]
      rfl
    rw [readScript, hread, Fault.ok_bind, hparse]
    rfl
  have hsame : readScript disk' plan.project.entryFilePath = .ok entry := by
    rw [readScript, hagree.read hplace (hother (List.mem_append_left _ (List.mem_map_of_mem hext))),
      ← readScript, hloads.entry]
  have hpages : configuredPages disk' (configModules plan.project.entryFilePath) =
      configuredPages disk (configModules plan.project.entryFilePath) := by
    refine configuredPages_congr fun path hpath => ⟨hpaths.isFile path, fun _ => ?_⟩
    obtain ⟨e, he, rfl⟩ := List.mem_map.mp hpath
    have hmem : Entry.stem ++ ".config." ++ e ∈ entryNames :=
      List.mem_append_right _ (List.mem_map_of_mem he)
    exact hagree.read (hbeside _ (hnames _ hmem).1) (hother hmem)
  have hdir : disk'.isDir plan.project.sourceDir = true :=
    hagree.sameDirs.isDir (load_sound hload).sourceDir
  have hroot := hloads.sourceRoot
  rw [Bool.or_eq_false_iff] at hroot
  have hagain : Loads options disk' plan.project entry :=
    { rootDir := hloads.rootDir
      buildConfig := by
        rw [locateBuildConfig_eq fun path _ => hpaths.isFile path, hloads.buildConfig]
      declared := ⟨script, object, hnew, hfind⟩
      sourceRoot := by rw [hroot.1, hdir]; rfl
      entryFile := by rw [locateEntry_eq fun path _ => hpaths.isFile path, hloads.entryFile]
      entry := hsame
      pages := by rw [hpages, hloads.pages] }
  obtain ⟨again, hload', hproject⟩ := hagain.load
  refine ⟨again, hload', hproject, fun group hgroup => ?_⟩
  have howner := owner_of_settled hload' (by rw [hproject]; exact hnew) hfind hsettled group hgroup
  rw [hproject] at howner
  refine ⟨howner, fun heq => ?_⟩
  rw [← howner, heq] at hentry
  exact (hnames _ (List.mem_append_left _ (List.mem_map_of_mem hext))).2 name hname
    (hentry.unique hend)

end Project

end Codemod

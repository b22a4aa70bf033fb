import Codemod.Project
import Codemod.Proofs.Commit
import Mathlib.Data.List.Find

/-!
# Codemod.Proofs.Project.Load

How loading a project goes, step by step.

* `load_eq_error`: every fault that ends a load is fatal, except for one of its control files not
  being text.
* `loads_of_load`, `Loads.load`: a load succeeds exactly if it finds all that makes up a project on
  its way.
* `load_sound`: once a project is loaded, its source directory and its control files are there, and
  what is to be written for them are their own texts and a configuration module.
* `isScript_of_mem_pageFiles`, `pageFiles_pairwise`: the modules of its pages are there as well, and
  none is listed twice.
-/

namespace Codemod

theorem Fault.bind_eq_error {α β : Type} {x : Except Fault α} {f : α → Except Fault β}
    {fault : Fault} (h : x >>= f = .error fault) :
    x = .error fault ∨ ∃ a, x = .ok a ∧ f a = .error fault := by
  cases x with
  | error e =>
    cases h
    exact .inl rfl
  | ok a => exact .inr ⟨a, rfl, h⟩

theorem Fault.ok_bind {α β : Type} (a : α) (f : α → Except Fault β) :
    (Except.ok a >>= f) = f a :=
  rfl

theorem Fault.pure_bind {α β : Type} (a : α) (f : α → Except Fault β) :
    ((pure a : Except Fault α) >>= f) = f a :=
  rfl

theorem Fault.error_bind {α β : Type} (fault : Fault) (f : α → Except Fault β) :
    (Except.error fault >>= f) = .error fault :=
  rfl

theorem Fault.bind_eq_ok {α β : Type} {x : Except Fault α} {f : α → Except Fault β} {b : β}
    (h : x >>= f = .ok b) : ∃ a, x = .ok a ∧ f a = .ok b := by
  cases x with
  | error e => cases h
  | ok a => exact ⟨a, rfl, h⟩

namespace Project

variable {options : Options} {disk : Disk} {plan : ProjectPlan} {p : Project} {fault : Fault}
  {path : Path}

/-- The build configuration declares a source root, and this is the entry module in it. -/
def IsEntry (options : Options) (disk : Disk) (path : Path) : Prop :=
  ∃ configPath config object root,
    locateBuildConfig disk options.rootDir = .ok configPath ∧
    readScript disk configPath = .ok config ∧
    BuildConfig.find? config.program = some (object, root) ∧
    (Text.isBlank root.toList || !disk.isDir (options.rootDir.join root)) = false ∧
    locateEntry disk (options.rootDir.join root) = .ok path

/-- The search for pages goes on behind this module: it is not there, or exports no object. -/
def PassedOver (disk : Disk) (path : Path) : Prop :=
  disk.isFile path = false ∨
    ∃ script, readScript disk path = .ok script ∧
      ∀ object, script.program.defaultExport ≠ .object object

/-- The search for pages comes to this one of the modules. -/
def Searched (disk : Disk) (paths : List Path) (path : Path) : Prop :=
  disk.isFile path = true ∧
    ∃ passed rest, paths = passed ++ path :: rest ∧ ∀ p ∈ passed, PassedOver disk p

/-- The files that a load comes to. -/
inductive Reads (options : Options) (disk : Disk) : Path → Prop where
  | buildConfig {path : Path} :
      locateBuildConfig disk options.rootDir = .ok path → Reads options disk path
  | entry {path : Path} : IsEntry options disk path → Reads options disk path
  | appConfig {entry path : Path} {script : Script} :
      IsEntry options disk entry → readScript disk entry = .ok script →
      Entry.pages script.program = [] → Searched disk (configModules entry) path →
      Reads options disk path

/-- A fault that a load may end with: a fatal one, or that one of these files is no text. -/
def Ends (disk : Disk) (files : Path → Prop) (fault : Fault) : Prop :=
  fault.severity = .fatal ∨
    ∃ path, files path ∧ disk.Garbled path ∧ fault = Obstacle.notText.fault path

theorem Ends.imp {files files' : Path → Prop} (h : Ends disk files fault)
    (hsub : ∀ path, files path → files' path) : Ends disk files' fault := by
  rcases h with h | ⟨path, hfile, h⟩
  · exact .inl h
  · exact .inr ⟨path, hsub path hfile, h⟩

theorem isFile_of_locateBuildConfig {root : Path} (h : locateBuildConfig disk root = .ok path) :
    disk.isFile path = true := by
  unfold locateBuildConfig at h
  split at h
  · rename_i hfound
    cases h
    exact List.find?_some hfound
  · cases h

theorem severity_of_locateBuildConfig {root : Path}
    (h : locateBuildConfig disk root = .error fault) : fault.severity = .fatal := by
  unfold locateBuildConfig at h
  split at h
  · cases h
  · cases h
    rfl

theorem isFile_of_locateEntry {dir : Path} (h : locateEntry disk dir = .ok path) :
    disk.isFile path = true := by
  unfold locateEntry at h
  split at h
  · rename_i hfound
    cases h
    exact List.find?_some hfound
  · cases h

theorem severity_of_locateEntry {dir : Path} (h : locateEntry disk dir = .error fault) :
    fault.severity = .fatal := by
  unfold locateEntry at h
  split at h
  · cases h
  · cases h
    rfl

theorem readScript_eq_error (hfile : disk.isFile path = true)
    (h : readScript disk path = .error fault) : Ends disk (· = path) fault := by
  unfold readScript at h
  rcases Disk.read_of_isFile hfile with ⟨text, hread⟩ | ⟨hgarbled, hread⟩
  · rw [hread] at h
    obtain h | ⟨source, hsource, h⟩ := Fault.bind_eq_error h
    · cases h
    · split at h
      · cases h
      · cases h
        exact .inl rfl
  · rw [hread] at h
    cases h
    exact .inr ⟨path, rfl, hgarbled, rfl⟩

theorem readScript_of_garbled (h : disk.Garbled path) :
    readScript disk path = .error (Obstacle.notText.fault path) := by
  rw [readScript, Disk.read_of_garbled h]
  rfl

theorem Searched.cons {paths : List Path} {p : Path} (hp : PassedOver disk p)
    (h : Searched disk paths path) : Searched disk (p :: paths) path := by
  obtain ⟨hfile, passed, rest, rfl, hpassed⟩ := h
  refine ⟨hfile, p :: passed, rest, rfl, ?_⟩
  intro q hq
  rcases List.mem_cons.mp hq with rfl | hq
  · exact hp
  · exact hpassed q hq

theorem configuredPages_eq_error {paths : List Path}
    (h : configuredPages disk paths = .error fault) : Ends disk (Searched disk paths) fault := by
  induction paths with
  | nil => cases h
  | cons p paths ih =>
    have hrest (hp : PassedOver disk p) (h : configuredPages disk paths = .error fault) :
        Ends disk (Searched disk (p :: paths)) fault :=
      (ih h).imp fun _ hs => hs.cons hp
    rw [configuredPages] at h
    split at h
    · rename_i hfile
      obtain h | ⟨script, hscript, h⟩ := Fault.bind_eq_error h
      · refine (readScript_eq_error hfile h).imp ?_
        rintro _ rfl
        exact ⟨hfile, [], paths, rfl, nofun⟩
      · split at h
        · cases h
        · rename_i hexport
          exact hrest (.inr ⟨script, hscript, hexport⟩) h
    · rename_i hfile
      exact hrest (.inl (by simpa using hfile)) h

/-- The search goes on behind modules that are passed over. -/
theorem configuredPages_append {passed : List Path} (h : ∀ p ∈ passed, PassedOver disk p)
    (paths : List Path) :
    configuredPages disk (passed ++ paths) = configuredPages disk paths := by
  induction passed with
  | nil => rfl
  | cons p passed ih =>
    have ih' := ih fun q hq => h q (List.mem_cons_of_mem p hq)
    rw [List.cons_append, configuredPages]
    rcases h p List.mem_cons_self with hp | ⟨script, hscript, hexport⟩
    · rw [hp, if_neg Bool.false_ne_true]
      exact ih'
    · split
      · rw [hscript, Fault.ok_bind]
        split
        · rename_i object hobject
          exact absurd hobject (hexport object)
        · exact ih'
      · exact ih'

theorem configuredPages_of_garbled {paths : List Path} (hs : Searched disk paths path)
    (h : disk.Garbled path) :
    configuredPages disk paths = .error (Obstacle.notText.fault path) := by
  obtain ⟨hfile, passed, rest, rfl, hpassed⟩ := hs
  rw [configuredPages_append hpassed, configuredPages, if_pos hfile, readScript_of_garbled h]
  rfl

/-- The pages are those of the module that the search comes to. -/
theorem configuredPages_of_object {paths : List Path} {script : Script} {object : ObjectLiteral}
    (hs : Searched disk paths path) (hscript : readScript disk path = .ok script)
    (hobject : script.program.defaultExport = .object object) :
    configuredPages disk paths = .ok object.pages := by
  obtain ⟨hfile, passed, rest, rfl, hpassed⟩ := hs
  rw [configuredPages_append hpassed, configuredPages, if_pos hfile, hscript, Fault.ok_bind]
  simp only [hobject]
  rfl

theorem load_eq_error (h : load options disk = .error fault) :
    Ends disk (Reads options disk) fault := by
  rw [load] at h
  obtain h | ⟨configPath, hconfigPath, h⟩ := Fault.bind_eq_error h
  · exact .inl (severity_of_locateBuildConfig h)
  obtain h | ⟨config, hconfig, h⟩ := Fault.bind_eq_error h
  · exact (readScript_eq_error (isFile_of_locateBuildConfig hconfigPath) h).imp
      fun _ heq => heq ▸ .buildConfig hconfigPath
  cases hfind : BuildConfig.find? config.program with
  | none =>
    rw [hfind] at h
    cases h
    exact .inl rfl
  | some found =>
    obtain ⟨object, root⟩ := found
    simp only [hfind] at h
    obtain h | ⟨_, hpair, h⟩ := Fault.bind_eq_error h
    · cases h
    cases hpair
    split at h
    · obtain h | ⟨_, hthrow, -⟩ := Fault.bind_eq_error h
      · cases h
        exact .inl rfl
      · cases hthrow
    rename_i hroot
    obtain h | ⟨entryPath, hentryPath, h⟩ := Fault.bind_eq_error h
    · exact .inl (severity_of_locateEntry h)
    have hentry : IsEntry options disk entryPath :=
      ⟨configPath, config, object, root, hconfigPath, hconfig, hfind, by simpa using hroot,
        hentryPath⟩
    obtain h | ⟨entry, hscript, h⟩ := Fault.bind_eq_error h
    · exact (readScript_eq_error (isFile_of_locateEntry hentryPath) h).imp
        fun _ heq => heq ▸ .entry hentry
    split at h
    · rename_i hpages
      obtain h | ⟨pages, -, h⟩ := Fault.bind_eq_error h
      · exact (configuredPages_eq_error h).imp fun _ hs =>
          .appConfig hentry hscript (List.isEmpty_iff.mp hpages) hs
      · cases h
    · obtain h | ⟨pages, -, h⟩ := Fault.bind_eq_error h
      · cases h
      · cases h

theorem load_of_garbled (hr : Reads options disk path) (h : disk.Garbled path) :
    load options disk = .error (Obstacle.notText.fault path) := by
  rw [load]
  cases hr with
  | buildConfig hpath =>
    rw [hpath, Fault.ok_bind, readScript_of_garbled h]
    rfl
  | entry hentry =>
    obtain ⟨configPath, config, object, root, hconfigPath, hconfig, hfind, hroot, hpath⟩ := hentry
    simp only [hconfigPath, hconfig, hfind, hroot, hpath, readScript_of_garbled h, Fault.ok_bind,
      Fault.pure_bind, Fault.error_bind, Bool.false_eq_true, if_false]
  | appConfig hentry hscript hpages hs =>
    obtain ⟨configPath, config, object, root, hconfigPath, hconfig, hfind, hroot, hpath⟩ := hentry
    simp only [hconfigPath, hconfig, hfind, hroot, hpath, hscript, hpages,
      configuredPages_of_garbled hs h, Fault.ok_bind, Fault.pure_bind, Fault.error_bind,
      Bool.false_eq_true, if_false, List.isEmpty_nil, if_true]

theorem readScript_eq_ok {script : Script} (h : readScript disk path = .ok script) :
    script.path = path := by
  unfold readScript at h
  obtain ⟨source, -, h⟩ := Fault.bind_eq_ok h
  split at h
  · rename_i hparse
    cases h
    unfold Script.parse at hparse
    split at hparse
    · cases hparse
      rfl
    · cases hparse
  · cases h

/-- The build configuration can be read and declares the source root. -/
def Declared (p : Project) (disk : Disk) : Prop :=
  ∃ config object, readScript disk p.buildConfigPath = .ok config ∧
    BuildConfig.find? config.program = some (object, p.sourceRoot)

/-- What a load finds on its way. -/
structure Loads (options : Options) (disk : Disk) (p : Project) (script : Script) : Prop where
  rootDir : p.rootDir = options.rootDir
  buildConfig : locateBuildConfig disk p.rootDir = .ok p.buildConfigPath
  declared : p.Declared disk
  sourceRoot : (Text.isBlank p.sourceRoot.toList || !disk.isDir p.sourceDir) = false
  entryFile : locateEntry disk p.sourceDir = .ok p.entryFilePath
  entry : readScript disk p.entryFilePath = .ok script
  pages : (if (Entry.pages script.program).isEmpty
    then configuredPages disk (configModules p.entryFilePath)
    else .ok (Entry.pages script.program)) = .ok p.pages

theorem Loads.load {script : Script} (h : Loads options disk p script) :
    ∃ plan, Project.load options disk = .ok plan ∧ plan.project = p := by
  obtain ⟨rootDir, buildConfigPath, sourceRoot, entryFilePath, pages⟩ := p
  obtain ⟨hroot, hconfigPath, ⟨config, object, hconfig, hfind⟩, hdir, hentryPath, hentry,
    hpages⟩ := h
  simp only at hroot hconfigPath hconfig hfind hdir hentryPath hentry hpages
  subst hroot
  rw [sourceDir] at hdir hentryPath
  rw [Project.load]
  simp only [hconfigPath, hconfig, hfind, hdir, hentryPath, hentry, Fault.ok_bind,
    Fault.pure_bind, Bool.false_eq_true, if_false]
  split
  · rename_i hown
    rw [if_pos hown] at hpages
    rw [hpages]
    exact ⟨_, rfl, rfl⟩
  · rename_i hown
    rw [if_neg hown] at hpages
    cases hpages
    exact ⟨_, rfl, rfl⟩

/-- A load has found its files, and has planned a new text for the build configuration at most, and
whatever the entry module needs. -/
theorem loads_of_load (h : load options disk = .ok plan) :
    ∃ entry, Loads options disk plan.project entry ∧
      (Entry.writes entry ≠ [] → (plan.project.entryFilePath, Entry.writes entry) ∈ plan.writes) ∧
      ∀ group ∈ plan.writes,
        (∃ text, group = (plan.project.buildConfigPath,
          [PendingWrite.overwrite plan.project.buildConfigPath text])) ∨
        group = (plan.project.entryFilePath, Entry.writes entry) := by
  rw [load] at h
  obtain ⟨configPath, hconfigPath, h⟩ := Fault.bind_eq_ok h
  obtain ⟨config, hconfig, h⟩ := Fault.bind_eq_ok h
  cases hfind : BuildConfig.find? config.program with
  | none =>
    rw [hfind] at h
    cases h
  | some found =>
    obtain ⟨object, root⟩ := found
    simp only [hfind] at h
    obtain ⟨_, hpair, h⟩ := Fault.bind_eq_ok h
    cases hpair
    split at h
    · obtain ⟨_, hthrow, -⟩ := Fault.bind_eq_ok h
      cases hthrow
    rename_i hroot
    rw [Bool.not_eq_true] at hroot
    obtain ⟨entryPath, hentryPath, h⟩ := Fault.bind_eq_ok h
    obtain ⟨entry, hentry, h⟩ := Fault.bind_eq_ok h
    obtain ⟨pages, hpages, h⟩ : ∃ pages, (if (Entry.pages entry.program).isEmpty
        then configuredPages disk (configModules entryPath)
        else .ok (Entry.pages entry.program)) = .ok pages ∧ _ := by
      split at h
      · rename_i hown
        rw [if_pos hown]
        exact Fault.bind_eq_ok h
      · rename_i hown
        rw [if_neg hown]
        exact Fault.bind_eq_ok h
    cases h
    refine ⟨entry, ⟨rfl, hconfigPath, ⟨config, object, hconfig, hfind⟩, hroot, hentryPath, hentry,
      hpages⟩, ?_, ?_⟩
    · intro hwrites
      refine List.mem_append_right _ ?_
      rw [if_neg (by simpa using hwrites)]
      exact List.mem_singleton_self _
    · intro group hgroup
      rcases List.mem_append.mp hgroup with hgroup | hgroup
      · split at hgroup
        · cases hgroup
        · exact .inl ⟨_, List.mem_singleton.mp hgroup⟩
      · split at hgroup
        · cases hgroup
        · exact .inr (List.mem_singleton.mp hgroup)

/-- What a load has made sure of. -/
structure Sound (disk : Disk) (plan : ProjectPlan) : Prop where
  sourceDir : disk.isDir plan.project.sourceDir = true
  entry : disk.IsScript plan.project.entryFilePath
  groups : ∀ group ∈ plan.writes, OwnGroup disk group
  /-- The only configuration that moves is that of the entry module. -/
  moves : ∀ group ∈ plan.writes, (Wish.ofWrites group.2).moved.isSome = true →
    group.1 = plan.project.entryFilePath

theorem isScript_of_endsIn {name : String} (hfile : disk.isFile path = true)
    (hend : path.EndsIn name) (hne : name ≠ Path.manifestName) : disk.IsScript path :=
  ⟨hfile, ⟨name, hend⟩, fun hmanifest => hne (hend.unique hmanifest)⟩

/-- The path ends in the name of a file, which is no manifest and no configuration module. -/
def IsControl (path : Path) : Prop :=
  ∃ name, path.EndsIn name ∧ name ≠ Path.manifestName ∧
    Text.holds ".config.".toList name.toList = false

/-- The name that the path of a build configuration ends in. -/
theorem endsIn_candidate {candidate : String} (h : candidate ∈ BuildConfig.candidates)
    (root : Path) : ∃ name ∈ ["index.js", "index.ts"], (root.join candidate).EndsIn name := by
  simp only [BuildConfig.candidates, List.mem_cons, List.not_mem_nil, or_false] at h
  rcases h with rfl | rfl
  · have hend : (Path.mk "config/index.js").EndsIn "index.js" :=
      ⟨by decide, ["config".toList], by decide⟩
    exact ⟨_, by simp, hend.join rfl root⟩
  · have hend : (Path.mk "config/index.ts").EndsIn "index.ts" :=
      ⟨by decide, ["config".toList], by decide⟩
    exact ⟨_, by simp, hend.join rfl root⟩

theorem isControl_buildConfig {candidate : String} (h : candidate ∈ BuildConfig.candidates)
    (root : Path) : IsControl (root.join candidate) := by
  have hnames : ∀ name ∈ ["index.js", "index.ts"], name ≠ Path.manifestName ∧
      Text.holds ".config.".toList name.toList = false := by
    decide
  obtain ⟨name, hname, hend⟩ := endsIn_candidate h root
  exact ⟨name, hend, hnames name hname⟩

theorem isControl_entry {ext : String} (h : ext ∈ SourceTree.extensions) (dir : Path) :
    IsControl (dir.join (Entry.stem ++ "." ++ ext)) := by
  have hnames : ∀ e ∈ SourceTree.extensions, Text.IsName (Entry.stem ++ "." ++ e).toList ∧
      Entry.stem ++ "." ++ e ≠ Path.manifestName ∧
      Text.holds ".config.".toList (Entry.stem ++ "." ++ e).toList = false := by
    decide
  obtain ⟨hname, hother⟩ := hnames ext h
  exact ⟨_, (Path.endsIn_of_isName hname).join (Path.isAbsolute_of_isName hname) dir, hother⟩

theorem isScript_of_locateBuildConfig {root : Path} (h : locateBuildConfig disk root = .ok path) :
    disk.IsScript path := by
  have hfile := isFile_of_locateBuildConfig h
  unfold locateBuildConfig at h
  split at h
  · rename_i hfound
    cases h
    obtain ⟨candidate, hcandidate, rfl⟩ := List.mem_map.mp (List.mem_of_find?_eq_some hfound)
    obtain ⟨name, hend, hne, -⟩ := isControl_buildConfig hcandidate root
    exact isScript_of_endsIn hfile hend hne
  · cases h

theorem isScript_of_locateEntry {dir : Path} (h : locateEntry disk dir = .ok path) :
    disk.IsScript path := by
  have hfile := isFile_of_locateEntry h
  unfold locateEntry at h
  split at h
  · rename_i hfound
    cases h
    obtain ⟨ext, hext, rfl⟩ := List.mem_map.mp (List.mem_of_find?_eq_some hfound)
    obtain ⟨name, hend, hne, -⟩ := isControl_entry hext dir
    exact isScript_of_endsIn hfile hend hne
  · cases h

/-- Where the control files are depends on what files there are by such names. -/
theorem locateBuildConfig_eq {disk' : Disk} {root : Path}
    (h : ∀ path, IsControl path → disk'.isFile path = disk.isFile path) :
    locateBuildConfig disk' root = locateBuildConfig disk root := by
  have hfind : (BuildConfig.candidates.map root.join).find? disk'.isFile =
      (BuildConfig.candidates.map root.join).find? disk.isFile := by
    refine List.find?_congr fun path hpath => ?_
    obtain ⟨candidate, hcandidate, rfl⟩ := List.mem_map.mp hpath
    exact h _ (isControl_buildConfig hcandidate root)
  unfold locateBuildConfig
  rw [hfind]

theorem locateEntry_eq {disk' : Disk} {dir : Path}
    (h : ∀ path, IsControl path → disk'.isFile path = disk.isFile path) :
    locateEntry disk' dir = locateEntry disk dir := by
  have hfind : (SourceTree.extensions.map fun ext => dir.join (Entry.stem ++ "." ++ ext)).find?
        disk'.isFile =
      (SourceTree.extensions.map fun ext => dir.join (Entry.stem ++ "." ++ ext)).find?
        disk.isFile := by
    refine List.find?_congr fun path hpath => ?_
    obtain ⟨ext, hext, rfl⟩ := List.mem_map.mp hpath
    exact h _ (isControl_entry hext dir)
  unfold locateEntry
  rw [hfind]

theorem ownGroup_config (hscript : disk.IsScript path) (text : Text) :
    OwnGroup disk (path, [PendingWrite.overwrite path text]) :=
  ⟨hscript, ⟨none, some text⟩, rfl⟩

theorem ownGroup_entry {script : Script} (hscript : disk.IsScript path)
    (hpath : script.path = path) : OwnGroup disk (path, Entry.writes script) := by
  subst hpath
  refine ⟨hscript, ⟨(Entry.moving? script.program).map fun found =>
    found.1.asModule script.source, if (Entry.edits script).isEmpty then none
      else some (Edit.applyAll script.source (Entry.edits script))⟩, ?_⟩
  simp only [Entry.writes, Wish.writes]
  cases Entry.moving? script.program <;> split <;> rfl

theorem load_sound (h : load options disk = .ok plan) : Sound disk plan := by
  obtain ⟨entry, hloads, -, hwrites⟩ := loads_of_load h
  have hentryScript := isScript_of_locateEntry hloads.entryFile
  have hsourceDir : disk.isDir plan.project.sourceDir = true := by
    have hroot := hloads.sourceRoot
    rw [Bool.or_eq_false_iff, Bool.not_eq_false'] at hroot
    exact hroot.2
  refine ⟨hsourceDir, hentryScript, ?_, ?_⟩
  · intro group hgroup
    rcases hwrites group hgroup with ⟨text, rfl⟩ | rfl
    · exact ownGroup_config (isScript_of_locateBuildConfig hloads.buildConfig) text
    · exact ownGroup_entry hentryScript (readScript_eq_ok hloads.entry)
  · intro group hgroup hmoved
    rcases hwrites group hgroup with ⟨text, rfl⟩ | rfl
    · cases hmoved
    · rfl

theorem pageFile?_isScript {page : String} (h : p.pageFile? disk page = some path) :
    disk.IsScript path := by
  rw [pageFile?] at h
  have hfile := List.find?_some h
  obtain ⟨ext, hext, rfl⟩ := List.mem_map.mp (List.mem_of_find?_eq_some h)
  rw [String.append_assoc] at hfile ⊢
  have hscript : 's' ∈ ("." ++ ext).toList ∧ '/' ∉ ("." ++ ext).toList ∧
      ∀ last, ("." ++ ext).toList.getLast?.or last ≠ Path.manifestName.toList.getLast? := by
    simp only [List.mem_cons, List.not_mem_nil, or_false] at hext
    rcases hext with rfl | rfl | rfl | rfl <;> simp [Path.manifestName]
  obtain ⟨hs, hslash, hlast⟩ := hscript
  obtain ⟨name, hend⟩ := Path.endsIn_append (c := 's') hs (by decide) hslash
  refine isScript_of_endsIn hfile hend ?_
  rintro rfl
  have hmanifest := hend.getLast?
  rw [String.toList_append, List.getLast?_append] at hmanifest
  exact hlast _ hmanifest

theorem mem_foldl_addPageFile {entry : Path} {files added : List Path}
    (h : path ∈ files.foldl (addPageFile entry) added) : path ∈ added ∨ path ∈ files := by
  induction files generalizing added with
  | nil => exact .inl h
  | cons file files ih =>
    rcases ih h with h | h
    · rw [addPageFile] at h
      split at h
      · exact .inl h
      · rcases List.mem_append.mp h with h | h
        · exact .inl h
        · exact .inr (List.mem_singleton.mp h ▸ List.mem_cons_self)
    · exact .inr (List.mem_cons_of_mem file h)

theorem pairwise_foldl_addPageFile {entry : Path} {files added : List Path}
    (h : added.Pairwise fun p q => p.same q = false) :
    (files.foldl (addPageFile entry) added).Pairwise fun p q => p.same q = false := by
  induction files generalizing added with
  | nil => exact h
  | cons file files ih =>
    apply ih
    rw [addPageFile]
    split
    · exact h
    · rename_i hnew
      simp only [Bool.or_eq_true, List.any_eq_true, not_or, not_exists, not_and,
        Bool.not_eq_true] at hnew
      refine List.pairwise_append.mpr ⟨h, List.pairwise_singleton _ _, ?_⟩
      intro p hp q hq
      rw [List.mem_singleton.mp hq, Path.same_comm]
      exact hnew.2 p hp

theorem pageFiles_pairwise (p : Project) (disk : Disk) :
    (p.pageFiles disk).Pairwise fun p q => p.same q = false :=
  pairwise_foldl_addPageFile .nil

theorem isScript_of_mem_pageFiles (h : path ∈ p.pageFiles disk) :
    disk.IsScript path := by
  rw [pageFiles] at h
  rcases mem_foldl_addPageFile h with h | h
  · cases h
  · obtain ⟨page, -, hpage⟩ := List.mem_filterMap.mp h
    exact pageFile?_isScript hpage

end Project

end Codemod

import Codemod.Project.BuildConfig
import Codemod.Project.Entry
import Codemod.SourceTree

/-!
# Codemod.Project

A project on disk: where its build configuration, its sources, its entry module and its pages are,
and the writes that its two control files need.

`Project.load` only reads. Whatever makes a migration impossible comes to light here, before
anything is written.
-/

namespace Codemod

structure Project where
  rootDir : Path
  buildConfigPath : Path
  /-- As declared, seen from the root. -/
  sourceRoot : String
  entryFilePath : Path
  /-- Seen from the source root, without extension, each once, in declared order. -/
  pages : List String
  deriving DecidableEq, Repr, Inhabited

/-- A project and the writes planned for its control files, grouped by the file they belong to. -/
structure ProjectPlan where
  project : Project
  writes : List (Path × List PendingWrite)
  deriving DecidableEq, Repr, Inhabited

namespace Project

def sourceDir (p : Project) : Path :=
  p.rootDir.join p.sourceRoot

/-- The module of a page on disk, tried with one extension after the other. -/
def pageFile? (p : Project) (disk : Disk) (page : String) : Option Path :=
  let base := p.sourceDir.join (String.ofList (page.toList.dropWhile (· == '/')))
  (["tsx", "ts", "jsx", "js"].map fun ext => Path.mk (base.text ++ "." ++ ext)).find? disk.isFile

/-- Adds the file of a page unless it is the entry module or there already. -/
def addPageFile (entry : Path) (files : List Path) (file : Path) : List Path :=
  if file.same entry || files.any file.same then files else files ++ [file]

/-- The modules of the pages, without the entry module. Pages without a module are left out. -/
def pageFiles (p : Project) (disk : Disk) : List Path :=
  (p.pages.filterMap (p.pageFile? disk)).foldl (addPageFile p.entryFilePath) []

def locateBuildConfig (disk : Disk) (root : Path) : Except Fault Path :=
  match (BuildConfig.candidates.map root.join).find? disk.isFile with
  | some path => .ok path
  | none => .error (.configNotFound root)

def locateEntry (disk : Disk) (dir : Path) : Except Fault Path :=
  match (SourceTree.extensions.map fun ext => dir.join (Entry.stem ++ "." ++ ext)).find?
      disk.isFile with
  | some path => .ok path
  | none => .error (.entryNotFound dir)

/-- Reads and parses one of the files that make up the project. -/
def readScript (disk : Disk) (path : Path) : Except Fault Script := do
  let source ← disk.read path
  match Script.parse path source with
  | .ok script => return script
  | .error cause => throw (.invalidProjectFile path cause)

/-- The pages in the first configuration module of the app that exports an object. -/
def configuredPages (disk : Disk) : List Path → Except Fault (List String)
  | [] => .ok []
  | path :: paths =>
    if disk.isFile path then do
      let script ← readScript disk path
      match script.program.defaultExport with
      | .object object => return object.pages
      | _ => configuredPages disk paths
    else configuredPages disk paths

/-- The configuration modules that an earlier migration may have left beside the entry module. -/
def configModules (entry : Path) : List Path :=
  ["ts", "js"].map fun ext => entry.withFileName (Entry.stem ++ ".config." ++ ext)

def load (options : Options) (disk : Disk) : Except Fault ProjectPlan := do
  let root := options.rootDir
  let configPath ← locateBuildConfig disk root
  let config ← readScript disk configPath
  let (object, sourceRoot) ← match BuildConfig.find? config.program with
    | some found => pure found
    | none => throw (.sourceRootMissing configPath)
  let sourceDir := root.join sourceRoot
  if Text.isBlank sourceRoot.toList || !disk.isDir sourceDir then
    throw (.sourceRootInvalid root sourceRoot)
  let entryPath ← locateEntry disk sourceDir
  let entry ← readScript disk entryPath
  let own := Entry.pages entry.program
  let pages ← if own.isEmpty then configuredPages disk (configModules entryPath) else pure own
  let configEdits := BuildConfig.edits config.source config.style options object
  let configWrites := if configEdits.isEmpty then [] else
    [(configPath, [PendingWrite.overwrite configPath (Edit.applyAll config.source configEdits)])]
  let entryWrites := Entry.writes entry
  return {
    project := ⟨root, configPath, sourceRoot, entryPath, pages⟩
    writes := configWrites ++ if entryWrites.isEmpty then [] else [(entryPath, entryWrites)] }

end Project

end Codemod

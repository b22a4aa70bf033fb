import Codemod.Disk

/-!
# Codemod.SourceTree

The scripts below a directory, in the order of paths.

Dependencies, declaration files and configuration modules are no sources.
-/

namespace Codemod

namespace SourceTree

/-- Extensions of scripts. -/
def extensions : List String :=
  ["js", "jsx", "ts", "tsx"]

/-- The directory that dependencies are kept in. -/
def dependencyDir : String := "node_modules"

/-- Whether a file is a source, by its name. All names are texts here; a name that is none, which a
file system may hold, is not a source and would be passed over. -/
def isSource (path : Path) : Bool :=
  match path.fileName?, path.extension? with
  | some name, some ext =>
    extensions.contains ext && !(".d.ts".toList.isSuffixOf name.toList) &&
      !(Text.holds ".config.".toList name.toList)
  | _, _ => false

/-- Puts a path into an increasing list. -/
def insert (path : Path) : List Path → List Path
  | [] => [path]
  | p :: ps => if path.lt p then path :: p :: ps else p :: insert path ps

/-- The paths of the files below a directory, written from `dir` on. -/
def below (disk : Disk) (dir : Path) (loc : Location) : List Path :=
  disk.files.filterMap fun (file, _) =>
    let way := file.drop loc.length
    if loc.isPrefixOf file && !way.isEmpty && !way.contains dependencyDir then
      some (way.foldl Path.join dir)
    else none

/-- The sources at or below a path. -/
def sources (disk : Disk) (dir : Path) : List Path :=
  if dir.fileName? == some dependencyDir then []
  else
    let files := match disk.locate dir with
      | .error _ => []
      | .ok loc => if disk.isDirAt loc then below disk dir loc
        else if disk.isFile dir then [dir] else []
    (files.filter isSource).foldr insert []

end SourceTree

end Codemod

import Codemod.CommandLine

/-!
# Codemod.Main

The program: the project directory is read as a whole, the migration is worked out, and the files
that differ are written back.
-/

namespace Codemod

/-- How many workers share the files of a pass when nothing else is said. -/
def defaultWorkers : Nat := 4

/-- The location that the text of a path names, seen from a directory. -/
def Location.ofText (home : Location) (text : String) : Location :=
  (Text.splitAt '/' text.toList).foldl (fun loc piece =>
    if piece.isEmpty || piece == ['.'] then loc
    else if piece == ['.', '.'] then loc.dropLast
    else loc ++ [String.ofList piece])
    (if (Path.mk text).isAbsolute then [] else home)

/-- The text of a location as an absolute path. -/
def Location.text (loc : Location) : String :=
  "/" ++ "/".intercalate loc

/-- Reads the files under a directory, dependencies left out. -/
def readDisk (home root : Location) : IO Disk := do
  let top := (← IO.currentDir) / root.text
  let mut disk := (Disk.bare home).makeDirAt root
  if !(← top.isDir) then return Disk.bare home
  let entries ← top.walkDir fun dir =>
    return dir.fileName != some SourceTree.dependencyDir && dir.fileName != some ".git"
  for entry in entries do
    let loc := Location.ofText [] entry.toString
    if ← entry.isDir then disk := disk.makeDirAt loc
    else
      let bytes ← IO.FS.readBinFile entry
      disk := disk.putAt loc (match String.fromUTF8? bytes with
        | some text => .text text.toList
        | none => .bytes bytes.toList)
  return disk

/-- Writes the files that differ. Each is moved into place as a whole. -/
def writeDisk (old new : Disk) : IO Unit := do
  for (loc, contents) in new.files do
    match contents with
    | .text text =>
      if old.contentsAt? loc != some contents then
        IO.FS.writeFile (loc.text ++ ".new") (String.ofList text)
        IO.FS.rename (loc.text ++ ".new") loc.text
    | .bytes _ => pure ()

end Codemod

open Codemod in
def main (args : List String) : IO UInt32 := do
  let home := Location.ofText [] (← IO.currentDir).toString
  let root := match CommandLine.parse .empty args with
    | .migrate line => Location.ofText home line.options.rootDir.text
    | _ => home
  let disk ← readDisk home root
  let (outcome, changed) := CommandLine.run args defaultWorkers disk
  writeDisk disk changed
  IO.print outcome.output
  if !outcome.complaint.isEmpty then IO.eprintln outcome.complaint
  return outcome.code.toUInt32

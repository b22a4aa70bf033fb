import Codemod.Fault

/-!
# Codemod.Disk

A file tree as a value.

A `Location` names a place by the directories on the way from the top. `Disk.locate` follows a path
to its location, from the working directory on or, for an absolute path, from the top: every
directory on the way has to exist.

* `Disk.contents?`, `Disk.isFile`, `Disk.isDir` and `Disk.isThere` ask what a path leads to.
* `Disk.put` writes a file; `contentsAt?_putAt` says that it changes no other one.
-/

namespace Codemod

/-- The contents of a file: text, or bytes that are no text. -/
inductive Contents where
  | text (value : Text)
  | bytes (value : List UInt8)
  deriving DecidableEq, Repr, Inhabited

abbrev Location := List String

/-- What keeps a file from being read or written. -/
inductive Obstacle where
  | missing
  | notDirectory
  | isDirectory
  | notText
  deriving DecidableEq, Repr, Inhabited

namespace Obstacle

def message : Obstacle → String
  | missing => "No such file or directory (os error 2)"
  | notDirectory => "Not a directory (os error 20)"
  | isDirectory => "Is a directory (os error 21)"
  | notText => "stream did not contain valid UTF-8"

/-- The fault of a file that an obstacle stands before. -/
def fault (o : Obstacle) (path : Path) : Fault :=
  .io path o.message

end Obstacle

structure Disk where
  /-- The working directory. -/
  home : Location
  files : List (Location × Contents)
  /-- All directories except the top. -/
  dirs : List Location
  deriving DecidableEq, Repr, Inhabited

namespace Disk

def contentsAt? (disk : Disk) (loc : Location) : Option Contents :=
  (disk.files.find? fun f => f.1 == loc).map (·.2)

def isDirAt (disk : Disk) (loc : Location) : Bool :=
  loc.isEmpty || disk.dirs.contains loc

/-- One step on the way along a path. -/
def follow (disk : Disk) (loc : Location) (piece : Text) : Except Obstacle Location :=
  if disk.isDirAt loc then
    if piece.isEmpty || piece == ['.'] then .ok loc
    else if piece == ['.', '.'] then .ok loc.dropLast
    else .ok (loc ++ [String.ofList piece])
  else if (disk.contentsAt? loc).isSome then .error .notDirectory
  else .error .missing

/-- The location that a path leads to, whether or not something is there. -/
def locate (disk : Disk) (path : Path) : Except Obstacle Location :=
  if path.text.isEmpty then .error .missing
  else (Text.splitAt '/' path.text.toList).foldlM disk.follow
    (if path.isAbsolute then [] else disk.home)

def contents? (disk : Disk) (path : Path) : Option Contents :=
  (disk.locate path).toOption.bind disk.contentsAt?

def isFile (disk : Disk) (path : Path) : Bool :=
  (disk.contents? path).isSome

def isDir (disk : Disk) (path : Path) : Bool :=
  (disk.locate path).toOption.any disk.isDirAt

/-- Whether anything is at the end of a path. -/
def isThere (disk : Disk) (path : Path) : Bool :=
  disk.isFile path || disk.isDir path

/-- The text of a file. -/
def read (disk : Disk) (path : Path) : Except Fault Text :=
  match disk.locate path with
  | .error obstacle => .error (obstacle.fault path)
  | .ok loc =>
    match disk.contentsAt? loc with
    | some (.text value) => .ok value
    | some (.bytes _) => .error (Obstacle.notText.fault path)
    | none =>
      .error ((if disk.isDirAt loc then Obstacle.isDirectory else .missing).fault path)

/-- Replaces the contents at a location, or adds them at the end. -/
def putFile (loc : Location) (contents : Contents) :
    List (Location × Contents) → List (Location × Contents)
  | [] => [(loc, contents)]
  | f :: fs => if f.1 == loc then (loc, contents) :: fs else f :: putFile loc contents fs

def putAt (disk : Disk) (loc : Location) (contents : Contents) : Disk :=
  { disk with files := putFile loc contents disk.files }

/-- Writes a file whose directory is there. -/
def put (disk : Disk) (path : Path) (contents : Contents) : Except Fault Disk :=
  match disk.locate path with
  | .error obstacle => .error (obstacle.fault path)
  | .ok loc =>
    if disk.isDirAt loc then .error (Obstacle.isDirectory.fault path)
    else .ok (disk.putAt loc contents)

/-- Adds a directory and all directories on the way to it. -/
def makeDirAt (disk : Disk) (loc : Location) : Disk :=
  let added := (List.range (loc.length + 1)).map loc.take
  { disk with dirs := disk.dirs ++ added.filter fun d => !d.isEmpty && !disk.dirs.contains d }

/-- The tree with nothing in it but its working directory. -/
def bare (home : Location) : Disk :=
  makeDirAt ⟨home, [], []⟩ home

/-- Takes a file or a whole directory away. -/
def removeAt (disk : Disk) (loc : Location) : Disk :=
  { disk with
    files := disk.files.filter fun f => !loc.isPrefixOf f.1
    dirs := disk.dirs.filter fun d => !loc.isPrefixOf d }

theorem find?_putFile (loc other : Location) (contents : Contents)
    (fs : List (Location × Contents)) :
    ((putFile loc contents fs).find? fun f => f.1 == other).map (·.2) =
      if loc = other then some contents else (fs.find? fun f => f.1 == other).map (·.2) := by
  induction fs with
  | nil => by_cases h : loc = other <;> simp [putFile, h]
  | cons f fs ih =>
    by_cases hf : f.1 = loc
    · by_cases h : loc = other <;> simp [putFile, h, hf]
    · by_cases h : loc = other
      · subst h
        simp [putFile, hf, ih]
      · by_cases hfo : f.1 = other
        · simp [putFile, hfo, h, Ne.symm h]
        · simp [putFile, hf, hfo, ih, h]

theorem contentsAt?_putAt (disk : Disk) (loc other : Location) (contents : Contents) :
    (disk.putAt loc contents).contentsAt? other =
      if loc = other then some contents else disk.contentsAt? other :=
  find?_putFile loc other contents disk.files

end Disk

end Codemod

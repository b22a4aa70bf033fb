import Codemod.Disk

/-!
# Codemod.Commit

Writes that belong together.

New files come first and replacements last, so a file is only replaced once everything that was
moved out of it is there. A new file never replaces anything.

* `commit` carries the writes out one by one; on failure it answers the disk as it then is.
* `checkTargets` asks beforehand whether some new file would replace something.
-/

namespace Codemod

structure PendingWrite where
  path : Path
  contents : Text
  /-- The file must not be there yet. -/
  createOnly : Bool
  deriving DecidableEq, Repr, Inhabited

namespace PendingWrite

def overwrite (path : Path) (contents : Text) : PendingWrite :=
  ⟨path, contents, false⟩

def create (path : Path) (contents : Text) : PendingWrite :=
  ⟨path, contents, true⟩

/-- Carries out one write. It happens as a whole or not at all. -/
def perform (owner : Path) (w : PendingWrite) (disk : Disk) : Except Fault Disk :=
  if w.createOnly && disk.isThere w.path then .error (.artifactExists owner w.path)
  else disk.put w.path (.text w.contents)

end PendingWrite

/-- The order in which writes are carried out. -/
def commitOrder (writes : List PendingWrite) : List PendingWrite :=
  writes.filter (·.createOnly) ++ writes.filter fun w => !w.createOnly

/-- Carries out writes in the given order until one fails. -/
def performAll (owner : Path) : List PendingWrite → Disk → Except Fault Unit × Disk
  | [], disk => (.ok (), disk)
  | w :: ws, disk =>
    match w.perform owner disk with
    | .ok disk => performAll owner ws disk
    | .error fault => (.error fault, disk)

/-- Carries out the writes that belong to one file. -/
def commit (owner : Path) (writes : List PendingWrite) (disk : Disk) : Except Fault Unit × Disk :=
  performAll owner (commitOrder writes) disk

/-- Fails if the place of a new file is taken. -/
def checkTargets (owner : Path) (writes : List PendingWrite) (disk : Disk) : Except Fault Unit :=
  match writes.find? fun w => w.createOnly && disk.isThere w.path with
  | some w => .error (.artifactExists owner w.path)
  | none => .ok ()

/-- Commits, or, in a dry run, only checks. -/
def settle (dryRun : Bool) (owner : Path) (writes : List PendingWrite) (disk : Disk) :
    Except Fault Unit × Disk :=
  if dryRun then (checkTargets owner writes disk, disk) else commit owner writes disk

end Codemod

import Codemod.Text.Edit
import Codemod.Script

/-!
# Codemod.Pass.Basic

A pass looks at one script and proposes a patch. It never touches the disk.
-/

namespace Codemod

/-- A new file to be put beside the one that is patched. -/
structure Artifact where
  path : Path
  contents : Text
  deriving DecidableEq, Repr, Inhabited

/-- What a pass proposes for one file. -/
structure Patch where
  edits : List Edit
  artifacts : List Artifact
  /-- Places that the pass saw and leaves to be dealt with by hand. -/
  notices : List String
  deriving DecidableEq, Repr, Inhabited

namespace Patch

def none : Patch :=
  ⟨[], [], []⟩

/-- Whether nothing is to be written. -/
def isEmpty (p : Patch) : Bool :=
  p.edits.isEmpty && p.artifacts.isEmpty

end Patch

/-- Which files a pass is run over. -/
inductive PassScope where
  /-- Every script under the source root. -/
  | sourceTree
  /-- The modules that the page list names, without the entry. -/
  | pages
  deriving DecidableEq, Repr, Inhabited

structure Pass where
  name : String
  scope : PassScope
  /-- Whether there is anything for the pass to do. -/
  applies : Script → Bool
  /-- The patch for a script, given the entry module of the project. -/
  patch : (entry : Path) → Script → Except Fault Patch

namespace Script

/-- The text of a script after a patch. -/
def patched (script : Script) (patch : Patch) : Text :=
  Edit.applyAll script.source patch.edits

end Script

end Codemod

import Codemod.Pass.Router
import Codemod.Pass.UiImports
import Codemod.Pass.PageConfig

/-!
# Codemod.Pass

The passes of a migration, in the order in which they run.
-/

namespace Codemod

namespace Pass

def standard : List Pass :=
  [routerPass, uiImportsPass, pageConfigPass]

def ofName? (name : String) : Option Pass :=
  standard.find? fun p => p.name == name

end Pass

end Codemod

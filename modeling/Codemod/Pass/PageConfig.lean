import Codemod.Module.Component
import Codemod.Module.ConfigObject
import Codemod.Pass.Basic

/-!
# Codemod.Pass.PageConfig

The configuration object of a page moves to a module of its own beside the page.

The object is a field of the class that the page exports by default, or is assigned to the exported
component. Where there are several, or where it is not clear what the page exports, the pass gives
up on the file.
-/

namespace Codemod

namespace Path

/-- Where the configuration of a module goes: `index.tsx` has it in `index.config.ts`. -/
def configModule (path : Path) : Path :=
  let ext := match path.extension? with
    | some "ts" | some "tsx" => "ts"
    | _ => "js"
  path.withFileName (path.stem?.getD "index" ++ ".config." ++ ext)

end Path

namespace PageConfig

/-- A configuration object and the span to delete when it moves. -/
structure Site where
  remove : Span
  object : ObjectLiteral

/-- The configuration objects that belong to a component. -/
def sites (program : Program) (c : Component) : List Site :=
  let fields := match c with
    | .ofClass shape => shape.configs.map fun (span, object) => ⟨span, object⟩
    | .ofFunction _ => []
  let assigned := match c.name? with
    | none => []
    | some name => program.assignedConfigs.filterMap fun (owner, span, object) =>
      if owner == name then some ⟨span, object⟩ else none
  fields ++ assigned

def applies (script : Script) : Bool :=
  Text.holds "config".toList script.source &&
    (script.program.declaredClasses.any (fun c => !c.configs.isEmpty) ||
      !script.program.assignedConfigs.isEmpty)

/-- Moves the object at a site out of a script. -/
def move (script : Script) (site : Site) : Patch :=
  { edits := [.remove (script.source.removalSpan site.remove)]
    artifacts := [⟨script.path.configModule, site.object.asModule script.source⟩]
    notices := [] }

def patch (entry : Path) (script : Script) : Except Fault Patch :=
  if script.path.same entry then .ok .none
  else match script.program.defaultExport with
    | .object _ | .missing =>
      .error (.ambiguousExport script.path
        "page config present but no default-exported component")
    | .unresolved reason => .error (.ambiguousExport script.path reason)
    | .component c =>
      match sites script.program c with
      | [] => .ok .none
      | [site] => .ok (move script site)
      | many => .error (.ambiguousExport script.path
          (toString many.length ++ " page configs attached to the default export"))

end PageConfig

def pageConfigPass : Pass where
  name := "page-config"
  scope := .pages
  applies := PageConfig.applies
  patch := PageConfig.patch

end Codemod

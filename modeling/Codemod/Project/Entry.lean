import Codemod.Commit
import Codemod.Dependency
import Codemod.Module.Import
import Codemod.Pass.PageConfig
import Codemod.Pass.Router

/-!
# Codemod.Project.Entry

The entry module of an app: its component, its configuration, and the writes that bring it up to
date.

* The configuration moves to a module of its own.
* `componentWillMount` becomes `onLaunch`, unless there is one.
* The launch parameters are read from the current instance.
* The call that renders the app becomes a default export, or goes where there is one.
* Imports of packages without a successor go.
-/

namespace Codemod

namespace Entry

/-- The name of the entry module without its extension. -/
def stem : String := "app"

/-- The class of the app: the default export, else the class that is rendered, else the only class
declared and not exported. -/
def class? (program : Program) : Option ClassShape :=
  match program.defaultExport with
  | .component (.ofClass c) => some c
  | _ =>
    match program.bootstrap?.bind fun (_, name) => program.component? name with
    | some (.ofClass c) => some c
    | _ =>
      match program.plainClasses with
      | [c] => some c
      | _ => none

/-- The configuration of the app and, where it can move, the span to delete. -/
structure Config where
  object : ObjectLiteral
  movable : Option Span

/-- The configuration that belongs to the class of the app. -/
def classConfig? (program : Program) (c : ClassShape) : Option Config :=
  match c.configs with
  | (span, object) :: _ => some ⟨object, some span⟩
  | [] => do
    let name ← c.name
    program.assignedConfigs.findSome? fun (owner, span, object) =>
      if owner == name then some ⟨object, some span⟩ else none

def config? (program : Program) : Option Config :=
  match program.defaultExport with
  | .object object => some ⟨object, none⟩
  | _ => (class? program).bind (classConfig? program)

/-- The pages of the app, as far as the entry module says. -/
def pages (program : Program) : List String :=
  ((config? program).map fun c => c.object.pages).getD []

/-- Collects the reads of `this.$router.params`. -/
def visitParams (_ : Unit) : Node → List Span × Option Unit
  | .member span object "params" =>
    if object.isThisMember "$router" then ([span], none) else ([], some ())
  | _ => ([], some ())

/-- The launch parameters, read from the current instance. -/
def paramEdits (script : Script) : List Edit :=
  let reads := script.program.gather visitParams ()
  if reads.isEmpty then []
  else
    (reads.map fun span =>
      Edit.replace span (instanceFactory.toList ++ "().router.params".toList)) ++
      (script.ensureImport? apiPackage instanceFactory).toList

/-- The renaming of the hook that runs on launch. -/
def hookEdits (script : Script) : List Edit :=
  match class? script.program with
  | none => []
  | some c =>
    match c.methodKey? "componentWillMount" with
    | none => []
    | some span => if c.has "onLaunch" then [] else [.replace span "onLaunch".toList]

/-- What becomes of the call that renders the app. -/
def bootstrapEdits (script : Script) : List Edit :=
  match script.program.bootstrap? with
  | none => []
  | some (span, name) =>
    match script.program.defaultExport with
    | .missing =>
      [.replace (script.source.statementSpan span)
        ("export default ".toList ++ name.toList ++ script.style.terminator)]
    | _ => [.remove (script.source.removalSpan span)]

/-- The removal of imports for side effects of packages without a successor. -/
def deadImportEdits (script : Script) : List Edit :=
  script.program.imports.filterMap fun decl =>
    if decl.specifiers.isNone && Dependency.isDeprecated decl.source then
      some (.remove (script.source.removalSpan decl.span))
    else none

/-- The configuration that moves out of the entry module, with the span to delete. -/
def moving? (program : Program) : Option (ObjectLiteral × Span) := do
  let config ← config? program
  return (config.object, ← config.movable)

def edits (script : Script) : List Edit :=
  ((moving? script.program).toList.map fun (_, span) =>
    Edit.remove (script.source.removalSpan span)) ++
    hookEdits script ++ paramEdits script ++ bootstrapEdits script ++ deadImportEdits script

/-- The writes that bring the entry module up to date. -/
def writes (script : Script) : List PendingWrite :=
  let artifacts := (moving? script.program).toList.map fun (object, _) =>
    PendingWrite.create script.path.configModule (object.asModule script.source)
  let es := edits script
  if es.isEmpty then artifacts
  else artifacts ++ [.overwrite script.path (Edit.applyAll script.source es)]

end Entry

end Codemod

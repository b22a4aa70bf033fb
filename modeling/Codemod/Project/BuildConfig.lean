import Codemod.Module.ConfigObject
import Codemod.Module.Style
import Codemod.Options

/-!
# Codemod.Project.BuildConfig

The build configuration: the first object literal that declares a string `sourceRoot`.

The migration makes sure that it names a framework and defines the constant of the options. Values
that are there already are never touched.
-/

namespace Codemod

namespace BuildConfig

/-- Where the build configuration may be, seen from the root of the project. -/
def candidates : List String :=
  ["config/index.js", "config/index.ts"]

/-- The source root that an object literal declares. -/
def sourceRoot? (object : ObjectLiteral) : Option String :=
  (object.get? "sourceRoot").bind Node.stringValue?

/-- The configuration object and its source root. -/
def find? (program : Program) : Option (ObjectLiteral × String) :=
  program.objects.findSome? fun object => (sourceRoot? object).map fun root => (object, root)

/-- The edits that bring the configuration object up to date. -/
def edits (source : Text) (style : Style) (options : Options) (config : ObjectLiteral) :
    List Edit :=
  let key := options.constant.key
  let constant := style.quoted key.toList ++ ": ".toList ++ options.constant.value.toList
  let constants := (config.get? "defineConstants").map Node.bare
  let inner := match constants.bind Node.object? with
    | some object => if object.has key then [] else [object.append source constant]
    | none => []
  let defined := if constants.isNone then
    ["defineConstants: \x7b ".toList ++ constant ++ " \x7d".toList] else []
  let framework := if config.has "framework" then [] else
    ["framework: ".toList ++ style.quoted options.framework.toList]
  inner ++ (defined ++ framework).map (config.append source)

end BuildConfig

end Codemod

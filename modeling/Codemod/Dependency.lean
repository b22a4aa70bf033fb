import Codemod.Json.Value
import Codemod.Version.Range

/-!
# Codemod.Dependency

The dependency plan: what to do about each package that the migration knows.

* `Dependency.registry` lists the known packages and the rule for each.
* `DependencyPlan.ofManifest` compares a manifest with it. The entries are in registry order: one
  for each known package that is declared, and one for each required package that is not.
-/

namespace Codemod

namespace Dependency

inductive Rule where
  /-- Required; added when it is not there. -/
  | install (target : String)
  /-- Kept, but not below the target. -/
  | upgrade (target : String)
  /-- Without a successor; removed. -/
  | uninstall
  deriving DecidableEq, Repr, Inhabited

/-- The version of the packages that an app is migrated to. -/
def successorVersion : String := "3.0.0"

/-- The least version of the base package. -/
def baseVersion : String := "16.10.0"

def registry : List (String × Rule) :=
  [("react", .install baseVersion),
   ("react-dom", .install baseVersion),
   ("@tarojs/react", .install successorVersion),
   ("@tarojs/runtime", .install successorVersion),
   ("babel-preset-taro", .install successorVersion),
   ("@tarojs/taro", .upgrade successorVersion),
   ("@tarojs/components", .upgrade successorVersion),
   ("@tarojs/cli", .upgrade successorVersion),
   ("@tarojs/router", .upgrade successorVersion),
   ("@tarojs/webpack-runner", .upgrade successorVersion),
   ("@tarojs/mini-runner", .upgrade successorVersion),
   ("@tarojs/plugin-sass", .upgrade successorVersion),
   ("@tarojs/plugin-less", .upgrade successorVersion),
   ("@tarojs/plugin-stylus", .upgrade successorVersion),
   ("@tarojs/plugin-terser", .upgrade successorVersion),
   ("@tarojs/plugin-uglify", .upgrade successorVersion),
   ("eslint-config-taro", .upgrade successorVersion),
   ("nervjs", .uninstall),
   ("nerv-devtools", .uninstall),
   ("@tarojs/async-await", .uninstall),
   ("@tarojs/redux", .uninstall),
   ("@tarojs/redux-h5", .uninstall),
   ("@tarojs/mobx", .uninstall),
   ("@tarojs/mobx-h5", .uninstall),
   ("@tarojs/mobx-common", .uninstall),
   ("@tarojs/taro-weapp", .uninstall),
   ("@tarojs/taro-alipay", .uninstall),
   ("@tarojs/taro-swan", .uninstall),
   ("@tarojs/taro-tt", .uninstall),
   ("@tarojs/taro-qq", .uninstall),
   ("@tarojs/taro-jd", .uninstall),
   ("@tarojs/taro-h5", .uninstall),
   ("@tarojs/taro-rn", .uninstall),
   ("@tarojs/taro-quickapp", .uninstall),
   ("babel-plugin-transform-jsx-stylesheet", .uninstall)]

/-- Whether a package has no successor. -/
def isDeprecated (name : String) : Bool :=
  registry.any fun (known, rule) => known == name && rule == .uninstall

inductive Action where
  | install
  | upgrade
  | uninstall
  | noOp
  deriving DecidableEq, Repr, Inhabited

namespace Action

def name : Action → String
  | install => "install"
  | upgrade => "upgrade"
  | uninstall => "uninstall"
  | noOp => "no-op"

end Action

structure Change where
  name : String
  currentRange : Option String
  action : Action
  targetVersion : Option String
  note : Option String
  deriving DecidableEq, Repr, Inhabited

/-- The requirement that a declared range amounts to. -/
def requirement? (range : String) : Option Requirement :=
  (Range.normalize? range.toList).bind Requirement.parse?

/-- What to do about a declared package that should not be below `target`. -/
def compare (name range target : String) : Change :=
  match requirement? range, Version.parse? target.toList with
  | some r, some minimum =>
    ⟨name, some range, if r.meets minimum then .noOp else .upgrade, some target, none⟩
  | _, _ =>
    ⟨name, some range, .noOp, some target, some ("unrecognised version range `" ++ range ++ "`")⟩

/-- What to do about one package, given the range it is declared with. -/
def change? (name : String) : Rule → Option String → Option Change
  | .install target, none => some ⟨name, none, .install, some target, none⟩
  | .install target, some range | .upgrade target, some range => some (compare name range target)
  | .uninstall, some range => some ⟨name, some range, .uninstall, none, none⟩
  | .upgrade _, none | .uninstall, none => none

/-- The range that a manifest declares for a package: the first string found in its tables. -/
def declared? (manifest : Json) (name : String) : Option String :=
  ["dependencies", "devDependencies"].findSome? fun table => do
    ((← manifest.field? table).field? name).bind Json.string?

end Dependency

structure DependencyPlan where
  changes : List Dependency.Change
  deriving DecidableEq, Repr, Inhabited

namespace DependencyPlan

def ofManifest (manifest : Json) : DependencyPlan :=
  ⟨Dependency.registry.filterMap fun (name, rule) =>
    Dependency.change? name rule (Dependency.declared? manifest name)⟩

def get? (plan : DependencyPlan) (name : String) : Option Dependency.Change :=
  plan.changes.find? fun c => c.name == name

/-- The names of the packages with an action. -/
def names (plan : DependencyPlan) (action : Dependency.Action) : List String :=
  (plan.changes.filter fun c => c.action == action).map (·.name)

end DependencyPlan

end Codemod

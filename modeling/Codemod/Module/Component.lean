import Codemod.Module.Shape

/-!
# Codemod.Module.Component

What a module's default export stands for.

A component is a class or a function. `Program.defaultExport` looks through names, parentheses and
higher-order calls such as `connect(state)(Page)`.
-/

namespace Codemod

inductive Component where
  | ofClass (shape : ClassShape)
  | ofFunction (name : Option String)
  deriving Inhabited

namespace Component

def name? : Component → Option String
  | ofClass shape => shape.name
  | ofFunction name => name

end Component

inductive DefaultExport where
  | component (c : Component)
  | object (o : ObjectLiteral)
  | missing
  | unresolved (reason : String)
  deriving Inhabited

namespace Node

/-- The component that a declaration introduces under `name`. -/
def declares? (name : String) : Node → Option Component
  | .classDef span own head body members =>
    if own == some name then (Node.classDef span own head body members).class?.map .ofClass
    else none
  | .function _ own _ => if own == some name then some (.ofFunction own) else none
  | .bindings _ declarators =>
    declarators.findSome? fun
      | .declarator _ own _ (init :: _) =>
        if own == some name then
          match init.bare with
          | .arrow .. | .function .. => some (.ofFunction own)
          | n => n.class?.map .ofClass
        else none
      | _ => none
  | _ => none

/-- The names among the arguments of a chain of calls, the outermost call first. -/
def wrappedNames : Node → List String
  | .call _ callee _ arguments =>
    (arguments.filterMap fun
      | .reference _ name => some name
      | _ => none) ++ wrappedNames callee
  | .wrapped _ inner _ => inner.wrappedNames
  | _ => []

end Node

namespace Program

/-- The class or function that is bound to `name` at the top of the module. -/
def component? (program : Program) (name : String) : Option Component :=
  program.body.findSome? fun
    | .exportNamed _ _ declaration _ => declaration.findSome? (Node.declares? name)
    | n => n.declares? name

/-- What the value of a default export stands for. -/
def resolve (program : Program) (value : Node) : DefaultExport :=
  match value.bare with
  | .object span properties => .object ⟨span, properties⟩
  | .classDef span name _ body members => .component (.ofClass ⟨span, name, body, members⟩)
  | .function _ name _ => .component (.ofFunction name)
  | .arrow .. => .component (.ofFunction none)
  | .reference _ name =>
    match program.component? name with
    | some c => .component c
    | none =>
      .unresolved ("default export `" ++ name ++ "` is not a component declared in this file")
  | .call span callee types arguments =>
    match (Node.call span callee types arguments).wrappedNames.filterMap program.component? with
    | [c] => .component c
    | [] => .unresolved "default export wraps no component declared in this file"
    | _ => .unresolved "default export wraps several components"
  | _ => .unresolved "unsupported default export shape"

def defaultExport (program : Program) : DefaultExport :=
  let values := program.body.filterMap fun
    | .exportDefault _ value => some value
    | _ => none
  match values with
  | [] => .missing
  | [value] => program.resolve value
  | _ => .unresolved "more than one default export"

/-- The statements `owner.config = { ... }` at the top of a module: the owner, the span of the
statement, and the object. -/
def assignedConfigs (program : Program) : List (String × Span × ObjectLiteral) :=
  program.body.filterMap fun
    | .statement span (.assign _ (.member _ (.reference _ owner) "config") value) =>
      value.bare.object?.map fun o => (owner, span, o)
    | _ => none

/-- The first statement `x.render(<Name ... />, ...)` at the top of a module, and the name. -/
def bootstrap? (program : Program) : Option (Span × String) :=
  program.body.findSome? fun
    | .statement span (.call _ (.member _ (.reference ..) "render") _
        (.element _ (some name) _ :: _)) => some (span, name)
    | _ => none

/-- The classes that are declared at the top and not exported. -/
def plainClasses (program : Program) : List ClassShape :=
  program.body.filterMap Node.class?

/-- The classes that are declared at the top, exported or not. -/
def declaredClasses (program : Program) : List ClassShape :=
  program.body.filterMap fun
    | .exportDefault _ value => value.class?
    | .exportNamed _ _ (d :: _) _ => d.class?
    | n => n.class?

end Program

end Codemod

import Codemod.Syntax.Node

/-!
# Codemod.Module.Shape

Object literals and classes, taken out of the tree.
-/

namespace Codemod

/-- An object literal. -/
structure ObjectLiteral where
  span : Span
  properties : List Node
  deriving Inhabited

/-- A class, declared or written as an expression. -/
structure ClassShape where
  span : Span
  name : Option String
  body : Span
  members : List Node
  deriving Inhabited

namespace Node

def object? : Node → Option ObjectLiteral
  | .object span properties => some ⟨span, properties⟩
  | _ => none

def class? : Node → Option ClassShape
  | .classDef span name _ body members => some ⟨span, name, body, members⟩
  | _ => none

/-- The meaning of a string, or of a template without substitutions. -/
def literalValue? : Node → Option String
  | .string _ value => some value
  | .template _ cooked [] => cooked
  | _ => none

/-- The string that an expression denotes as it stands. -/
def stringValue? (n : Node) : Option String :=
  n.bare.literalValue?

/-- Whether the node is `this.name`. -/
def isThisMember (name : String) : Node → Bool
  | .member _ (.this _) own => own == name
  | _ => false

end Node

namespace ObjectLiteral

/-- The value of the first property with this name. -/
def get? (object : ObjectLiteral) (name : String) : Option Node :=
  object.properties.findSome? fun
    | .property _ (some key) _ value => if key == name then some value else none
    | _ => none

def has (object : ObjectLiteral) (name : String) : Bool :=
  (object.get? name).isSome

end ObjectLiteral

namespace ClassShape

/-- Whether a field or method has this name. -/
def has (c : ClassShape) (name : String) : Bool :=
  c.members.any fun
    | .field _ key _ _ | .method _ key _ _ => key == some name
    | _ => false

/-- Where the key of the first method with this name stands. -/
def methodKey? (c : ClassShape) (name : String) : Option Span :=
  c.members.findSome? fun
    | .method _ key span _ => if key == some name then some span else none
    | _ => none

/-- The fields named `config` that hold an object literal: the span of the field and the
object. -/
def configs (c : ClassShape) : List (Span × ObjectLiteral) :=
  c.members.filterMap fun
    | .field span (some "config") _ (value :: _) => value.bare.object?.map fun o => (span, o)
    | _ => none

end ClassShape

namespace Program

/-- The object literals of a module in preorder. -/
def objects (program : Program) : List ObjectLiteral :=
  program.gather (fun _ n => (n.object?.toList, some ())) ()

end Program

end Codemod

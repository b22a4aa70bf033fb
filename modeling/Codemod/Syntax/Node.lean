import Codemod.Text.Position

/-!
# Codemod.Syntax.Node

Syntax trees of script modules.

A `Node` keeps apart the shapes that a migration looks at and gathers everything else in `other`
nodes, whose parts stand in source order. Parentheses are nodes of their own; directives and a
first `#!` line are no statements.

* `Node.children` lists the direct parts of a node in the order in which they are visited.
* `Node.gather` walks a tree in preorder, carrying a context downwards and stopping where the
  visitor says so. `gather_eq` is its equation in terms of `children`.
* `Node.postorder` lists a tree from its leaves up; `postorder_eq` says so.
* `Node.inductionOn` is induction over the parts of a node.
-/

namespace Codemod

/-- One binding of an import declaration. -/
inductive ImportSpecifier where
  /-- `name` in `import name from '...'`. -/
  | main (span : Span) (name : String)
  /-- `* as name`. -/
  | all (name : String)
  /-- `imported as name`, or `name` alone when both agree. -/
  | named (imported name : String) (typeOnly : Bool)
  deriving DecidableEq, Repr, Inhabited

/-- The parts of an import declaration that matter outside the parser. -/
structure ImportDeclaration where
  span : Span
  /-- Written `import type ...`. -/
  typeOnly : Bool
  /-- `none` for an import for side effects only. -/
  specifiers : Option (List ImportSpecifier)
  source : String
  sourceSpan : Span
  deriving DecidableEq, Repr, Inhabited

inductive Node where
  /-- A name that refers to a binding. -/
  | reference (span : Span) (name : String)
  | this (span : Span)
  | string (span : Span) (value : String)
  /-- A template literal, with the meaning of the text before its first substitution. -/
  | template (span : Span) (cooked : Option String) (substitutions : List Node)
  /-- `object.property` -/
  | member (span : Span) (object : Node) (property : String)
  /-- `object[key]`, or access to a private member. -/
  | index (span : Span) (object : Node) (key : List Node)
  /-- `left.right` where a type is named. -/
  | qualified (span : Span) (left : Node) (right : String)
  | array (span : Span) (elements : List Node)
  /-- A place in an array that is left empty. -/
  | hole (span : Span)
  /-- `...argument` in an array, an object or a call. -/
  | spread (span : Span) (argument : Node)
  | object (span : Span) (properties : List Node)
  /-- `key: value`; the name is known when the key is written as a name or a string. -/
  | property (span : Span) (name : Option String) (key : List Node) (value : Node)
  | call (span : Span) (callee : Node) (typeArguments arguments : List Node)
  | assign (span : Span) (target value : Node)
  /-- Parentheses, `as`, `satisfies` and `!` around an expression. -/
  | wrapped (span : Span) (inner : Node) (typeMark : List Node)
  | function (span : Span) (name : Option String) (parts : List Node)
  | arrow (span : Span) (parts : List Node)
  | classDef (span : Span) (name : Option String) (head : List Node) (body : Span)
      (members : List Node)
  | field (span : Span) (name : Option String) (head init : List Node)
  | method (span : Span) (name : Option String) (key : Span) (parts : List Node)
  /-- A markup element; the name is known when it is a single identifier. -/
  | element (span : Span) (name : Option String) (parts : List Node)
  | decorator (span : Span) (parts : List Node)
  | constEnum (span : Span) (parts : List Node)
  | importDecl (decl : ImportDeclaration) (parts : List Node)
  | exportDefault (span : Span) (value : Node)
  /-- `export` before a declaration, or with a list of names, those by which others know them. -/
  | exportNamed (span : Span) (names : List String) (declaration parts : List Node)
  | bindings (span : Span) (declarators : List Node)
  | declarator (span : Span) (name : Option String) (head init : List Node)
  /-- An expression used as a statement. -/
  | statement (span : Span) (expression : Node)
  | other (span : Span) (parts : List Node)
  deriving Repr, Inhabited

namespace Node

def span : Node → Span
  | reference s _ | this s | string s _ | template s _ _ | member s _ _ | index s _ _
  | qualified s _ _ | array s _ | hole s | spread s _ | object s _ | property s _ _ _
  | call s _ _ _ | assign s _ _ | wrapped s _ _
  | function s _ _ | arrow s _ | classDef s _ _ _ _ | field s _ _ _ | method s _ _ _
  | element s _ _ | decorator s _ | constEnum s _ | exportDefault s _ | exportNamed s _ _ _
  | bindings s _ | declarator s _ _ _ | statement s _ | other s _ => s
  | importDecl d _ => d.span

/-- The direct parts of a node, in the order in which they are visited. -/
def children : Node → List Node
  | reference _ _ | this _ | string _ _ | hole _ => []
  | template _ _ ps | array _ ps | object _ ps | function _ _ ps | arrow _ ps | method _ _ _ ps
  | element _ _ ps | decorator _ ps | constEnum _ ps | importDecl _ ps | bindings _ ps
  | other _ ps => ps
  | member _ n _ | qualified _ n _ | spread _ n | exportDefault _ n | statement _ n => [n]
  | property _ _ key value => key ++ [value]
  | call _ callee types arguments => callee :: (types ++ arguments)
  | assign _ target value => [target, value]
  | index _ inner parts | wrapped _ inner parts => inner :: parts
  | classDef _ _ head _ members => head ++ members
  | field _ _ head init | declarator _ _ head init => head ++ init
  | exportNamed _ _ declaration parts => declaration ++ parts

/-- The text a node was read from. -/
def text (n : Node) (source : Text) : Text :=
  n.span.text source

/-- Peels off parentheses and wrappers that only concern types. -/
def bare : Node → Node
  | wrapped _ inner _ => inner.bare
  | n => n

section Gather

variable {σ α : Type} (visit : σ → Node → List α × Option σ)

mutual

/-- What a visitor finds in a tree, in preorder. At each node the visitor gets the context from
above; it answers what it found and, unless the parts are to be left out, the context for them. -/
def gather (s : σ) : Node → List α
  | n@(reference ..) | n@(this ..) | n@(string ..) | n@(hole ..) => (visit s n).1
  | n@(template _ _ ps) | n@(array _ ps) | n@(object _ ps) | n@(function _ _ ps) | n@(arrow _ ps)
  | n@(method _ _ _ ps) | n@(element _ _ ps) | n@(decorator _ ps) | n@(constEnum _ ps)
  | n@(importDecl _ ps) | n@(bindings _ ps) | n@(other _ ps) =>
    match visit s n with
    | (found, none) => found
    | (found, some t) => found ++ gatherList t ps
  | n@(member _ m _) | n@(qualified _ m _) | n@(spread _ m) | n@(exportDefault _ m)
  | n@(statement _ m) =>
    match visit s n with
    | (found, none) => found
    | (found, some t) => found ++ gather t m
  | n@(property _ _ key value) =>
    match visit s n with
    | (found, none) => found
    | (found, some t) => found ++ (gatherList t key ++ gather t value)
  | n@(call _ callee types arguments) =>
    match visit s n with
    | (found, none) => found
    | (found, some t) =>
      found ++ (gather t callee ++ (gatherList t types ++ gatherList t arguments))
  | n@(assign _ target value) =>
    match visit s n with
    | (found, none) => found
    | (found, some t) => found ++ (gather t target ++ gather t value)
  | n@(index _ inner parts) | n@(wrapped _ inner parts) =>
    match visit s n with
    | (found, none) => found
    | (found, some t) => found ++ (gather t inner ++ gatherList t parts)
  | n@(classDef _ _ first _ second) | n@(field _ _ first second) | n@(declarator _ _ first second)
  | n@(exportNamed _ _ first second) =>
    match visit s n with
    | (found, none) => found
    | (found, some t) => found ++ (gatherList t first ++ gatherList t second)

def gatherList (s : σ) : List Node → List α
  | [] => []
  | n :: ns => gather s n ++ gatherList s ns

end

theorem gatherList_eq (s : σ) (ns : List Node) :
    gatherList visit s ns = ns.flatMap (gather visit s) := by
  induction ns with
  | nil => simp [gatherList]
  | cons n ns ih => simp [gatherList, ih]

theorem gather_eq (s : σ) (n : Node) :
    gather visit s n = match visit s n with
      | (found, none) => found
      | (found, some t) => found ++ n.children.flatMap (gather visit t) := by
  cases n <;> simp only [gather, children, gatherList_eq, List.flatMap_append, List.flatMap_cons,
    List.flatMap_nil, List.append_nil] <;> split <;> simp_all

end Gather

mutual

/-- A node and everything in it, parts before wholes. -/
def postorder : Node → List Node
  | n@(reference ..) | n@(this ..) | n@(string ..) | n@(hole ..) => [n]
  | n@(template _ _ ps) | n@(array _ ps) | n@(object _ ps) | n@(function _ _ ps) | n@(arrow _ ps)
  | n@(method _ _ _ ps) | n@(element _ _ ps) | n@(decorator _ ps) | n@(constEnum _ ps)
  | n@(importDecl _ ps) | n@(bindings _ ps) | n@(other _ ps) => postorderList ps ++ [n]
  | n@(member _ m _) | n@(qualified _ m _) | n@(spread _ m) | n@(exportDefault _ m)
  | n@(statement _ m) =>
    postorder m ++ [n]
  | n@(property _ _ key value) => postorderList key ++ postorder value ++ [n]
  | n@(call _ callee types arguments) =>
    postorder callee ++ postorderList types ++ postorderList arguments ++ [n]
  | n@(assign _ target value) => postorder target ++ postorder value ++ [n]
  | n@(index _ inner parts) | n@(wrapped _ inner parts) =>
    postorder inner ++ postorderList parts ++ [n]
  | n@(classDef _ _ first _ second) | n@(field _ _ first second) | n@(declarator _ _ first second)
  | n@(exportNamed _ _ first second) => postorderList first ++ postorderList second ++ [n]

def postorderList : List Node → List Node
  | [] => []
  | n :: ns => postorder n ++ postorderList ns

end

theorem postorderList_eq (ns : List Node) : postorderList ns = ns.flatMap postorder := by
  induction ns with
  | nil => simp [postorderList]
  | cons n ns ih => simp [postorderList, ih]

theorem postorder_eq (n : Node) : n.postorder = n.children.flatMap postorder ++ [n] := by
  cases n <;> simp [postorder, children, postorderList_eq]

theorem sizeOf_lt_of_mem_children {c n : Node} (h : c ∈ n.children) : sizeOf c < sizeOf n := by
  have inList : ∀ ps : List Node, c ∈ ps → sizeOf c < sizeOf ps :=
    fun _ hc => List.sizeOf_lt_of_mem hc
  cases n <;> simp [children] at h ⊢ <;> grind

/-- Induction over the parts of a node. -/
theorem inductionOn {P : Node → Prop} (step : ∀ n, (∀ c ∈ n.children, P c) → P n) (n : Node) : P n :=
  step n fun c _ => inductionOn step c
termination_by sizeOf n
decreasing_by exact sizeOf_lt_of_mem_children ‹_›

end Node

/-- A parsed module. -/
structure Program where
  /-- The strings of the directives at the top, which are no statements. -/
  directives : List Node
  body : List Node
  deriving Repr, Inhabited

namespace Program

/-- All nodes at the top, in the order in which they are visited. -/
def nodes (p : Program) : List Node :=
  p.directives ++ p.body

/-- What a visitor finds in the whole module, in preorder. -/
def gather {σ α : Type} (visit : σ → Node → List α × Option σ) (s : σ) (p : Program) : List α :=
  p.nodes.flatMap (Node.gather visit s)

/-- The import declarations, in file order. -/
def imports (p : Program) : List ImportDeclaration :=
  p.body.filterMap fun
    | .importDecl decl _ => some decl
    | _ => none

end Program

end Codemod

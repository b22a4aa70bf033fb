import Codemod.Module.Import
import Codemod.Module.Shape
import Codemod.Pass.Basic

/-!
# Codemod.Pass.Router

`this.$router` becomes `this.$instance.router`, and every class that reads it gets a field
`$instance = getCurrentInstance()`, unless it has a member of that name.

A read outside of any class has nothing to hang the field on, and `this.$scope` has no successor:
both are left as they are and noted.
-/

namespace Codemod

/-- The package that the API of an app comes from. -/
def apiPackage : String := "@tarojs/taro"

/-- The function that answers the current page or app. -/
def instanceFactory : String := "getCurrentInstance"

namespace Router

/-- The field that holds the current instance. -/
def instanceField : String := "$instance"

/-- A read of `this.$router` and the innermost class around it. -/
structure Read where
  span : Span
  host : Option ClassShape

/-- Collects reads; the context is the innermost class. -/
def visitReads (host : Option ClassShape) (n : Node) : List Read × Option (Option ClassShape) :=
  match n.class? with
  | some c => ([], some (some c))
  | none => if n.isThisMember "$router" then ([⟨n.span, host⟩], none) else ([], some host)

def reads (program : Program) : List Read :=
  program.gather visitReads none

/-- Collects reads and leaves out inner classes. -/
def visitOwn (_ : Unit) (n : Node) : List Span × Option Unit :=
  if n.class?.isSome then ([], none)
  else if n.isThisMember "$router" then ([n.span], none)
  else ([], some ())

/-- The classes that read the router themselves, inner classes first. -/
def readers (program : Program) : List ClassShape :=
  (program.nodes.flatMap Node.postorder).filterMap fun n => do
    let c ← n.class?
    guard !(n.children.flatMap (Node.gather visitOwn ())).isEmpty
    return c

/-- How often `this.$scope` is read. -/
def scopeReads (program : Program) : Nat :=
  (program.gather (fun _ n => (if n.isThisMember "$scope" then [()] else [], some ())) ()).length

/-- Where the field of a class goes: before its first member, or behind the opening brace. -/
def anchor (c : ClassShape) : Nat :=
  match c.members with
  | [] => c.body.start + 1
  | member :: _ => member.span.start

/-- The edit that adds the field. A `;` keeps the next member from being read as part of it. -/
def addField (source : Text) (style : Style) (c : ClassShape) : Edit :=
  let anchor := anchor c
  let following := (Text.trimStart (source.after anchor)).head?
  let continues := following.any fun d => d == '[' || d == '(' || d == '*' || d.toNat == 0x60
  let field := instanceField.toList ++ " = ".toList ++ instanceFactory.toList ++ "()".toList ++
    if continues then [';'] else style.terminator
  let indent := source.indentAt anchor
  .insert anchor <|
    if following.any fun d => d.toNat == 0x7D then
      '\n' :: (indent ++ "  ".toList ++ field ++ '\n' :: indent)
    else field ++ '\n' :: indent

def patch (script : Script) : Patch :=
  let all := reads script.program
  let hosted := all.filter fun r => r.host.isSome
  let orphans := (all.filter fun r => r.host.isNone).length
  let scopes := scopeReads script.program
  if hosted.isEmpty then .none
  else
    let fields := ((readers script.program).filter fun c => !c.has instanceField).map
      (addField script.source script.style)
    let replacements := hosted.map fun r => Edit.replace r.span "this.$instance.router".toList
    { edits := fields ++ replacements ++
        (script.ensureImport? apiPackage instanceFactory).toList
      artifacts := []
      notices :=
        (if 0 < orphans then
          [toString orphans ++ " `this.$router` use(s) outside a class component left unchanged"]
        else []) ++
        (if 0 < scopes then
          [toString scopes ++ " `this.$scope` use(s) need manual migration"] else []) }

end Router

def routerPass : Pass where
  name := "router"
  scope := .sourceTree
  applies script := Text.holds "$router".toList script.source &&
    (Router.reads script.program).any fun r => r.host.isSome
  patch _ script := .ok (Router.patch script)

end Codemod

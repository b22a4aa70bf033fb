import Codemod.Text.Edit
import Codemod.Module.Style

/-!
# Codemod.Module.Import

Imports as values: read from a declaration, changed, and written back as source text.

* `ImportClause.ofDeclaration?` reads a declaration; one with `* as name` has no clause.
* `ImportClause.render?` writes a clause in the style of a file.
* `Script.ensureImport?` plans the edit after which a name is bound from a package, if it is not
  bound already.
-/

namespace Codemod

/-- `imported as name` between the braces of an import. -/
structure NamedImport where
  imported : String
  name : String
  typeOnly : Bool
  deriving DecidableEq, Repr, Inhabited

namespace NamedImport

/-- A name that is imported under itself. -/
def plain (name : String) : NamedImport :=
  ⟨name, name, false⟩

def render (n : NamedImport) : Text :=
  let mark := if n.typeOnly then "type ".toList else []
  if n.imported = n.name then mark ++ n.imported.toList
  else mark ++ n.imported.toList ++ " as ".toList ++ n.name.toList

end NamedImport

/-- What one import declaration binds: a default and named exports of a package. -/
structure ImportClause where
  main : Option String
  named : List NamedImport
  source : String
  deriving DecidableEq, Repr, Inhabited

namespace ImportClause

/-- A clause that binds nothing. -/
def none (source : String) : ImportClause :=
  ⟨.none, [], source⟩

/-- Takes one more specifier into a clause. -/
def add? (clause : ImportClause) : ImportSpecifier → Option ImportClause
  | .main _ name => some { clause with main := some name }
  | .named imported name typeOnly =>
    some { clause with named := clause.named ++ [⟨imported, name, typeOnly⟩] }
  | .all _ => Option.none

def ofDeclaration? (decl : ImportDeclaration) : Option ImportClause := do
  (← decl.specifiers).foldlM add? (none decl.source)

/-- Whether the clause binds this name. -/
def binds (clause : ImportClause) (name : String) : Bool :=
  clause.main == some name || clause.named.any (·.name == name)

/-- Binds a name unless it is bound already. -/
def bind (clause : ImportClause) (n : NamedImport) : ImportClause :=
  if clause.binds n.name then clause else { clause with named := clause.named ++ [n] }

def bindAll (clause : ImportClause) (ns : List NamedImport) : ImportClause :=
  ns.foldl bind clause

/-- The import declaration as source text, or nothing when there is nothing to import. -/
def render? (clause : ImportClause) (style : Style) : Option Text :=
  let main := clause.main.toList.map String.toList
  let named :=
    if clause.named.isEmpty then []
    else ["\x7b ".toList ++ Text.join ", ".toList (clause.named.map NamedImport.render) ++
      " \x7d".toList]
  if (main ++ named).isEmpty then Option.none
  else some ("import ".toList ++ Text.join ", ".toList (main ++ named) ++ " from ".toList ++
    style.quoted clause.source.toList ++ style.terminator)

end ImportClause

namespace Program

/-- The imports of a package that bind values, in file order. -/
def importsFrom (program : Program) (source : String) : List ImportDeclaration :=
  program.imports.filter fun decl => decl.source == source && !decl.typeOnly

end Program

namespace Script

/-- Adds an import after the last one, or before the first statement. -/
def insertImport (script : Script) (text : Text) : Edit :=
  match script.program.imports.getLast? with
  | some decl => .insert (script.source.statementSpan decl.span).stop ('\n' :: text)
  | none =>
    let offset := (script.program.body.head?.map fun n => n.span.start).getD 0
    .insert offset (text ++ ['\n'])

/-- The edit after which `name` is bound from `source`: the first import of that package which
has a clause is extended, or a new import is added. Nothing when it is bound already. -/
def ensureImport? (script : Script) (source name : String) : Option Edit :=
  let clauses := (script.program.importsFrom source).filterMap fun decl =>
    (ImportClause.ofDeclaration? decl).map fun clause => (decl.span, clause)
  if clauses.any fun (_, clause) => clause.binds name then none
  else match clauses.head? with
    | some (span, clause) =>
      ((clause.bind (.plain name)).render? script.style).map
        (.replace (script.source.statementSpan span))
    | none =>
      (((ImportClause.none source).bind (.plain name)).render? script.style).map
        script.insertImport

end Script

end Codemod

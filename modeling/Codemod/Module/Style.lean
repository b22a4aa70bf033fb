import Codemod.Script

/-!
# Codemod.Module.Style

The punctuation habits of a file, read off its first import: whether statements end with `;`, and
which quotes strings have.
-/

namespace Codemod

structure Style where
  semicolons : Bool
  quote : Char
  deriving DecidableEq, Repr, Inhabited

namespace Style

/-- The style of a file without imports. -/
def standard : Style :=
  ⟨true, '\''⟩

def quoted (style : Style) (value : Text) : Text :=
  style.quote :: (value ++ [style.quote])

def terminator (style : Style) : Text :=
  if style.semicolons then [';'] else []

end Style

namespace Script

def style (script : Script) : Style :=
  match script.program.imports.head? with
  | none => .standard
  | some decl =>
    let statement := (script.source.statementSpan decl.span).text script.source
    let quote := match (decl.sourceSpan.text script.source).head? with
      | some '"' => '"'
      | _ => '\''
    ⟨statement.getLast? == some ';', quote⟩

end Script

end Codemod

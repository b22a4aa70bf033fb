import Codemod.Fault
import Codemod.Syntax.Parser

/-!
# Codemod.Script

A source file together with its syntax tree.

Which dialects a file may be written in goes by its extension. A plain script is also read with
types, for projects that let annotations slip into plain files; when that fails too, the fault of
the first reading is the one reported.
-/

namespace Codemod

structure Script where
  path : Path
  source : Text
  program : Program
  deriving Inhabited

namespace Dialect

/-- The dialects to try for a file, in order. -/
def forPath (path : Path) : List Dialect :=
  match path.extension? with
  | some "ts" | some "mts" | some "cts" => [⟨true, false⟩]
  | some "tsx" => [⟨true, true⟩]
  | _ => [⟨false, true⟩, ⟨true, true⟩]

end Dialect

namespace Script

/-- The program in the first of the dialects that fits, or the fault of the first one. -/
def firstParse (source : Text) : List Dialect → Except Nat Program
  | [] => .error 0
  | dialect :: dialects =>
    match Program.parseIn dialect source with
    | .ok program => .ok program
    | .error offset =>
      match firstParse source dialects with
      | .ok program => .ok program
      | .error _ => .error offset

def parse (path : Path) (source : Text) : Except ParseFault Script :=
  match firstParse source (Dialect.forPath path) with
  | .ok program => .ok ⟨path, source, program⟩
  | .error offset =>
    let (line, column) := source.location offset
    .error ⟨path, line, column, "unexpected token"⟩

end Script

end Codemod

import Codemod.Text.Edit
import Codemod.Module.Shape

/-!
# Codemod.Module.ConfigObject

What is done with configuration objects: adding a property, moving the object to a module of its
own, and reading the list of pages out of it.

* `ObjectLiteral.append` follows the layout of the object: one line or several, with or without a
  comma after the last property. `trailingComma?` finds that comma; commas in comments do not
  count.
* `ObjectLiteral.asModule` shifts the lines of the object to the left margin, except where a line
  begins inside a string or template.
* `ObjectLiteral.pages` lists the pages of an app.
-/

namespace Codemod

/-- What is being passed over in search of a comma. -/
inductive CommaSearch where
  | plain
  | lineComment
  | blockComment

/-- The offset of the first comma that is not in a comment. -/
def trailingCommaFrom (offset : Nat) : CommaSearch → Text → Option Nat
  | _, [] => none
  | .plain, '/' :: '/' :: cs => trailingCommaFrom (offset + 2) .lineComment cs
  | .plain, '/' :: '*' :: cs => trailingCommaFrom (offset + 2) .blockComment cs
  | .plain, c :: cs =>
    if c = ',' then some offset else trailingCommaFrom (offset + c.utf8Size) .plain cs
  | .lineComment, c :: cs =>
    trailingCommaFrom (offset + c.utf8Size) (if c = '\n' then .plain else .lineComment) cs
  | .blockComment, '*' :: '/' :: cs => trailingCommaFrom (offset + 2) .plain cs
  | .blockComment, c :: cs => trailingCommaFrom (offset + c.utf8Size) .blockComment cs

/-- The offset, in the gap before the closing brace, of the comma after the last property. -/
def trailingComma? (gap : Text) : Option Nat :=
  trailingCommaFrom 0 .plain gap

namespace ObjectLiteral

/-- Adds an entry, already written as `key: value`, after the last property. -/
def append (object : ObjectLiteral) (source entry : Text) : Edit :=
  let opening := object.span.start
  let closing := object.span.stop - 1
  match object.properties.getLast? with
  | none =>
    let indent := source.indentAt opening
    .replace object.span
      ("\x7b\n".toList ++ indent ++ "  ".toList ++ entry ++ ['\n'] ++ indent ++ "\x7d".toList)
  | some last =>
    let stop := last.span.stop
    let comma := trailingComma? (source.slice stop closing)
    if (source.slice opening closing).contains '\n' then
      let indent := source.indentAt last.span.start
      match comma with
      | some i => .insert (stop + i + 1) ('\n' :: (indent ++ entry ++ [',']))
      | none => .insert stop (",\n".toList ++ indent ++ entry)
    else
      match comma with
      | some i => .insert (stop + i + 1) (' ' :: (entry ++ [',']))
      | none => .insert stop (", ".toList ++ entry)

/-- The spans of strings and templates inside an object that go over several lines. -/
def longLiterals (object : ObjectLiteral) (source : Text) : List Span :=
  let visit (_ : Unit) : Node → List Span × Option Unit
    | .string span _ | .template span _ _ =>
      (if (span.text source).contains '\n' then [span] else [], some ())
    | _ => ([], some ())
  object.properties.flatMap (Node.gather visit ())

/-- Takes `indent` away from the beginning of a line that has it. -/
def unindent (indent line : Text) : Text :=
  if indent.isPrefixOf line then line.drop indent.length else line

/-- The lines after the first one, moved to the left unless they begin inside a literal.
`offset` is where the first of them begins. -/
def shiftLines (literals : List Span) (indent : Text) (offset : Nat) : List Text → Text
  | [] => []
  | line :: lines =>
    let inLiteral := literals.any fun span => span.start < offset && offset < span.stop
    '\n' :: ((if inLiteral then line else unindent indent line) ++
      shiftLines literals indent (offset + line.size + 1) lines)

/-- The object as the default export of a module. -/
def asModule (object : ObjectLiteral) (source : Text) : Text :=
  let indent := source.indentAt object.span.start
  let body := match Text.splitAt '\n' (object.span.text source) with
    | [] => []
    | first :: lines =>
      first ++ shiftLines (object.longLiterals source) indent
        (object.span.start + first.size + 1) lines
  "export default ".toList ++ body ++ ";\n".toList

/-- Adds values that are not in the list yet, each at its first occurrence. -/
def pushUnique (seen : List String) : List String → List String
  | [] => seen
  | x :: xs => pushUnique (if seen.contains x then seen else seen ++ [x]) xs

/-- The elements of an array that are written as strings. -/
def stringElements (value : Option Node) : List String :=
  match value.map Node.bare with
  | some (.array _ elements) => elements.filterMap Node.literalValue?
  | _ => []

/-- `root/page` for the pages of every package in a list of packages. -/
def packagePages (value : Option Node) : List String :=
  match value.map Node.bare with
  | some (.array _ elements) =>
    elements.flatMap fun element =>
      match element.object? with
      | none => []
      | some package =>
        match (package.get? "root").bind Node.stringValue? with
        | none => []
        | some root =>
          let base := String.ofList (root.toList.reverse.dropWhile (· == '/')).reverse
          (stringElements (package.get? "pages")).map fun page => base ++ "/" ++ page
  | _ => []

/-- The pages of an app in declared order, those of packages last, each once. -/
def pages (object : ObjectLiteral) : List String :=
  pushUnique [] (stringElements (object.get? "pages") ++
    packagePages (object.get? "subPackages") ++ packagePages (object.get? "subpackages"))

end ObjectLiteral

end Codemod

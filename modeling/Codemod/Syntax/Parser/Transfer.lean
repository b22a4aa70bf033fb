import Codemod.Syntax.Parser.Declaration

/-!
# Codemod.Syntax.Parser.Transfer

Import and export declarations.
-/

namespace Codemod

namespace Parser

variable (g : Grammar)

/-- A name on one side of an import or export specifier, which may be quoted. -/
structure TransferName where
  token : Token
  name : String
  quoted : Bool

/-- Whether a name for an import or export specifier is next. -/
def seesTransferName : Parser Bool := do
  match (← token).lexeme with
  | .word .. | .string _ => return true
  | _ => return false

def transferName : Parser TransferName := do
  let t ← token
  match t.lexeme with
  | .word name _ =>
    advance
    return ⟨t, name, false⟩
  | .string value =>
    advance
    return ⟨t, value, true⟩
  | _ => unexpected

/-- `outer as inner`, or one name for both. -/
structure TransferSpecifier where
  typeOnly : Bool
  first : TransferName
  second : Option TransferName

/-- One specifier between braces. `type` may be a name or mark the specifier. -/
def transferSpecifier : Parser TransferSpecifier := do
  let renamed (typeOnly : Bool) (first : TransferName) : Parser TransferSpecifier := do
    if ← eat "as" then return ⟨typeOnly, first, some (← transferName)⟩
    else return ⟨typeOnly, first, none⟩
  let name ← transferName
  if name.quoted || name.name != "type" then renamed false name
  else if ← sees "as" then
    let as₁ ← transferName
    if ← sees "as" then
      let as₂ ← transferName
      if ← seesTransferName then return ⟨true, as₁, some (← transferName)⟩
      else return ⟨false, name, some as₂⟩
    else if ← seesTransferName then return ⟨false, name, some (← transferName)⟩
    else return ⟨true, as₁, none⟩
  else if ← seesTransferName then
    if !(← dialect).types then note name.token.span.start
    renamed true (← transferName)
  else return ⟨false, name, none⟩

/-- The quoted name of a module. -/
def moduleSource : Parser (Span × String) := do
  let t ← token
  match t.lexeme with
  | .string value =>
    advance
    return (t.span, value)
  | _ => unexpected

/-- The strings of one attribute of an import, `key: 'value'`. -/
def importAttribute : Parser (List Node) := do
  let k ← transferName
  expect ":"
  let (span, value) ← moduleSource
  return (if k.quoted then [Node.string k.token.span k.name] else []) ++ [Node.string span value]

/-- `with { key: 'value' }` after the name of a module. -/
def importAttributes : Parser (List Node) := do
  let t ← token
  if t.is "with" || (t.is "assert" && !t.newline) then
    if !(← next (·.is lbrace)) then return []
    advance
    expect lbrace
    let parts ← separated rbrace importAttribute
    expect rbrace
    return parts.flatten
  else return []

/-- A binding of an import between braces. -/
def importSpecifier : Parser ImportSpecifier := do
  let s ← transferSpecifier
  let bound := s.second.getD s.first
  if bound.quoted || !bound.token.isName then stop bound.token.span.start
  return .named s.first.name bound.name s.typeOnly

/-- Whether `type` after `import` marks the whole declaration. -/
def seesTypeImport : Parser Bool := do
  if !(← sees "type") then return false
  ahead do
    advance
    if ← seesAny [lbrace, "*"] then return true
    if !(← token).isName then return false
    if !(← sees "from") then return true
    advance
    seesAny ["from", "="]

/-- Whether `defer` or `source` after `import` says when the module is to be evaluated. -/
def seesPhase : Parser Bool := do
  if ← sees "defer" then next (·.is "*")
  else if ← sees "source" then
    ahead do
      advance
      if !(← token).isName then return false
      if !(← sees "from") then return true
      advance
      sees "from"
  else return false

/-- `* as name` or specifiers between braces. -/
def importedNames : Parser (List ImportSpecifier) := do
  if ← eat "*" then
    expect "as"
    let (_, name) ← bindingName
    return [.all name]
  else
    expect lbrace
    let names ← separated rbrace importSpecifier
    expect rbrace
    return names

/-- A declaration after the word `import`. -/
def importRest (start : Nat) : Parser Node := do
  let finish (typeOnly : Bool) (specifiers : Option (List ImportSpecifier)) : Parser Node := do
    let (sourceSpan, source) ← moduleSource
    let attributes ← importAttributes
    terminator
    let span ← spanFrom start
    return .importDecl ⟨span, typeOnly, specifiers, source, sourceSpan⟩
      (.string sourceSpan source :: attributes)
  match (← token).lexeme with
  | .string _ => finish false none
  | _ =>
    let typeOnly ← seesTypeImport
    if typeOnly then
      if !(← dialect).types then note (← offset)
      advance
    else if ← seesPhase then advance
    if (← token).isName then
      if (← dialect).types && (← next (·.is "=")) then importEquals start
      else
        let (span, name) ← bindingName
        let more ← if ← eat "," then importedNames else pure []
        expect "from"
        finish typeOnly (some (.main span name :: more))
    else
      let names ← importedNames
      expect "from"
      finish typeOnly (some names)

/-- Words that cannot be the name of an exported binding. -/
def unexportable : List String :=
  reservedWords ++ ["await", "implements", "interface", "let", "package", "private", "protected",
    "public", "static", "yield"]

/-- `export { ... }` from its brace on. -/
def exportSpecifiers (start : Nat) : Parser Node := do
  expect lbrace
  let specifiers ← separated rbrace transferSpecifier
  expect rbrace
  let names := specifiers.map fun s => (s.second.getD s.first).name
  if ← eat "from" then
    let (span, source) ← moduleSource
    let attributes ← importAttributes
    terminator
    return .exportNamed (← spanFrom start) names [] (.string span source :: attributes)
  else
    for s in specifiers do
      if s.first.quoted || unexportable.contains s.first.name then note s.first.token.span.start
    terminator
    let references := specifiers.filterMap fun s =>
      if s.first.quoted then none else some (Node.reference s.first.token.span s.first.name)
    return .exportNamed (← spanFrom start) names [] references

/-- `export * ...` from its star on. -/
def exportAll (start : Nat) : Parser Node := do
  expect "*"
  let names ← if ← eat "as" then pure [(← transferName).name] else pure []
  expect "from"
  let (span, source) ← moduleSource
  let attributes ← importAttributes
  terminator
  return .exportNamed (← spanFrom start) names [] (.string span source :: attributes)

/-- `export default ...` from the word `default` on. -/
def exportDefault (start : Nat) (marks : List Node) : Parser Node := do
  expect "default"
  let first ← offset
  let types := (← dialect).types
  let more ← decorators g
  let marks := marks ++ more
  let value ←
    if ← sees "class" then classFrom g first marks
    else if types && (← sees "abstract") && (← next fun t => t.is "class" && !t.newline) then do
      advance
      classFrom g first marks
    else if ← sees "function" then functionFrom g first false false
    else if ← seesAsyncFunction then do
      advance
      functionFrom g first true false
    else if types && (← sees "interface") && (← next fun t => t.isName && !t.newline) then
      interface g first
    else do
      let e ← within (fun s => { s with inOperator := true }) (g (.assignment true))
      terminator
      pure e
  return .exportDefault (← spanFrom start) value

/-- An export declaration from the word `export` on. -/
def exportDeclaration (start : Nat) (marks : List Node) : Parser Node := do
  expect "export"
  let types := (← dialect).types
  let t ← token
  if t.is "default" then exportDefault g start marks
  else if t.is "*" then exportAll start
  else if t.is lbrace then exportSpecifiers start
  else if types && t.is "=" then
    advance
    let e ← g .expression
    terminator
    return .other (← spanFrom start) [e]
  else if types && t.is "as" && (← next (·.is "namespace")) then
    advance
    advance
    let _ ← bindingName
    terminator
    return .other (← spanFrom start) []
  else if types && t.is "type" && (← next fun u => u.isAny [lbrace, "*"]) then
    advance
    if ← sees lbrace then exportSpecifiers start else exportAll start
  else if types && t.is "import" then
    advance
    let first ← offset
    if (← sees "type") && (← next Token.isName) then advance
    let d ← importEquals first
    return .exportNamed (← spanFrom start) [] [d] []
  else
    let first ← offset
    let more ← decorators g
    let marks := marks ++ more
    let d ←
      if ← sees "class" then classFrom g first marks
      else if ← sees "function" then functionFrom g first false true
      else if ← seesAsyncFunction then do
        advance
        functionFrom g first true true
      else if types && (← seesDeclaration) then declaration g first marks
      else if ← seesAny ["var", "let", "const"] then bindings g first
      else unexpected
    return .exportNamed (← spanFrom start) [] [d] []

end Parser

end Codemod

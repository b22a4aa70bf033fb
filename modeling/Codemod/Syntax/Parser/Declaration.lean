import Codemod.Syntax.Parser.Expression

/-!
# Codemod.Syntax.Parser.Declaration

Declarations: variables, and what only exists where types are allowed (interfaces, type aliases,
enumerations, namespaces).
-/

namespace Codemod

namespace Parser

variable (g : Grammar)

/-- A constant and a pattern need a value, except where nothing is defined. -/
def checkInitialized (constant : Bool) : Node → Parser Unit
  | .declarator _ name (target :: _) [] => do
    if !(← scope).ambient then
      if name.isNone then note target.span.start
      else if constant then note target.span.stop
  | _ => return

/-- One declared variable. What needs a value is not looked at in the head of a loop. -/
def declarator (constant inHead : Bool) : Parser Node := do
  let t ← token
  let start := t.span.start
  let name := match t.lexeme with
    | .word name _ => some name
    | _ => none
  let target ← g .pattern
  if (← dialect).types && (← sees "!") && !(← token).newline then advance
  let type ← typeMark g
  let init ← if ← eat "=" then pure [← g (.assignment true)] else pure []
  let declared := Node.declarator (← spanFrom start) name (target :: type) init
  if !inHead then checkInitialized constant declared
  return declared

/-- The variables after `var`, `let` or `const`. -/
def declarators (constant inHead : Bool) : Parser (List Node) := do
  let first ← declarator g constant inHead
  let rest ← many (sees ",") do
    advance
    declarator g constant inHead
  return first :: rest

/-- A variable declaration from its keyword on. -/
def bindings (start : Nat) : Parser Node := do
  let constant ← sees "const"
  advance
  let vars ← declarators g constant false
  terminator
  return .bindings (← spanFrom start) vars

/-- An enumeration from the word `enum` on. -/
def enumeration (start : Nat) (constant : Bool) : Parser Node := do
  expect "enum"
  let _ ← bindingName
  expect lbrace
  let members ← separated rbrace do
    let from_ ← offset
    let k ← key g
    let init ← initializer g
    return Node.other (← spanFrom from_) (k.parts ++ init)
  expect rbrace
  let span ← spanFrom start
  return if constant then .constEnum span members else .other span members

/-- An interface from the word `interface` on. -/
def interface (start : Nat) : Parser Node := do
  expect "interface"
  let _ ← bindingName
  let generics ← typeParameters g
  let bases ← heritage g
  let members ← typeMembers g
  return .other (← spanFrom start) (generics ++ bases ++ members)

/-- A type alias from the word `type` on. -/
def typeAlias (start : Nat) : Parser Node := do
  expect "type"
  let _ ← bindingName
  let generics ← typeParameters g
  expect "="
  let type ← anyType g
  terminator
  return .other (← spanFrom start) (generics ++ [type])

/-- A namespace or module from its keyword on. -/
def moduleBlock (start : Nat) : Parser Node := do
  advance
  let t ← token
  match t.lexeme with
  | .string value =>
    advance
    if ← sees lbrace then
      let body ← block g
      return .other (← spanFrom start) (.string t.span value :: body)
    else
      terminator
      return .other (← spanFrom start) [.string t.span value]
  | _ =>
    let _ ← bindingName
    let _ ← many (sees ".") do
      advance
      if (← token).isWord then advance else unexpected
    let body ← block g
    return .other (← spanFrom start) body

/-- `name = require('...')` or `name = some.name` after `import`. -/
def importEquals (start : Nat) : Parser Node := do
  let _ ← bindingName
  expect "="
  let parts ←
    if (← sees "require") && (← next (·.is "(")) then do
      advance
      expect "("
      let t ← token
      match t.lexeme with
      | .string value =>
        advance
        expect ")"
        pure [Node.string t.span value]
      | _ => unexpected
    else do pure [← entityName]
  terminator
  return .other (← spanFrom start) parts

/-- Words that may stand before a declaration where types are allowed. -/
def declarationModifiers : List String :=
  ["declare", "abstract", "async", "private", "protected", "public", "readonly", "accessor"]

/-- Whether a declaration that needs types begins here. -/
def seesDeclaration : Parser Bool :=
  ahead <| repeatFrom () fun _ => do
    let t ← token
    if t.isAny ["var", "let", "const", "function", "class", "enum"] then return .inr true
    else if t.isAny ["interface", "type"] then
      advance
      let u ← token
      return .inr (u.isName && !u.newline)
    else if t.isAny ["module", "namespace"] then
      advance
      let u ← token
      let named := match u.lexeme with
        | .string _ => true
        | _ => u.isName
      return .inr (named && !u.newline)
    else if t.isAny declarationModifiers then
      advance
      if (← token).newline then return .inr false
      return .inl ()
    else if t.is "global" then
      advance
      return .inr (← sees lbrace)
    else if t.is "import" then
      advance
      return .inr (← token).isName
    else if t.is "static" then
      advance
      return .inl ()
    else return .inr false

/-- A declaration with the words before it. -/
def declaration (start : Nat) (marks : List Node) : Parser Node := do
  let words ← many (seesAny ("static" :: declarationModifiers)) do
    let t ← token
    advance
    return t
  let isAsync := words.any (·.is "async")
  let ambient := words.any (·.is "declare")
  within (fun s => { s with ambient := s.ambient || ambient }) do
    let t ← token
    if t.is "const" && (← next (·.is "enum")) then
      advance
      enumeration g start true
    else if t.isAny ["var", "let", "const"] then bindings g start
    else if t.is "function" then functionFrom g start isAsync true
    else if t.is "class" then classFrom g start marks
    else if t.is "enum" then enumeration g start false
    else if t.is "interface" then interface g start
    else if t.is "type" then typeAlias g start
    else if t.isAny ["module", "namespace"] then moduleBlock g start
    else if t.is "global" then
      advance
      let body ← block g
      return .other (← spanFrom start) body
    else if t.is "import" then
      advance
      importEquals start
    else unexpected

end Parser

end Codemod

import Codemod.Syntax.Parser.Binding

/-!
# Codemod.Syntax.Parser.Type

Types, type parameters and type arguments.

Of a type only the names it refers to, the literals and the expressions in it are of interest;
names of built-in types are no references.
-/

namespace Codemod

namespace Parser

variable (g : Grammar)

/-- Names of types that no declaration introduces. -/
def builtinTypes : List String :=
  ["any", "unknown", "never", "string", "number", "boolean", "bigint", "symbol", "object",
   "undefined", "null", "void", "true", "false"]

/-- A type in which `extends` may follow. -/
def anyType : Parser Node :=
  within (fun s => { s with noConditional := false }) (g .type)

def seesTypeArguments : Parser Bool :=
  seesAny ["<", "<<"]

/-- `<type, ...>` -/
def typeArguments : Parser (List Node) := do
  let start ← offset
  again Lexer.readOneAngle
  expect "<"
  let types ← separated ">" (anyType g)
  if types.isEmpty then note start
  expect ">"
  return types

/-- Type arguments, if they begin on the same line. -/
def typeArgumentsHere : Parser (List Node) := do
  if !(← token).newline && (← seesTypeArguments) then typeArguments g else return []

/-- `name.name. ...` where a type is named. -/
def entityName : Parser Node := do
  let start ← offset
  let first ← if ← sees "this" then do
      let t ← token
      advance
      pure (Node.this t.span)
    else referenceName
  repeatFrom first fun left => do
    if !(← sees ".") then return .inr left
    advance
    let t ← token
    match t.lexeme with
    | .word name _ =>
      advance
      return .inl (.qualified (← spanFrom start) left name)
    | .privateName _ =>
      advance
      return .inl (.other (← spanFrom start) [left])
    | _ => unexpected

/-- `<T extends type = type, ...>` -/
def typeParameters : Parser (List Node) := do
  if !(← dialect).types || !(← sees "<") then return []
  advance
  let ps ← separated ">" do
    let start ← offset
    let _ ← many
      (do
        if ← seesAny ["const", "in", "out"] then
          next fun t => t.isName || t.is "in"
        else return false)
      advance
    let _ ← bindingName
    let bound ← if ← eat "extends" then pure [← anyType g] else pure []
    let default ← if ← eat "=" then pure [← anyType g] else pure []
    return Node.other (← spanFrom start) (bound ++ default)
  expect ">"
  return ps

/-- A type, or a statement about a parameter such as `x is type`. -/
def resultType : Parser Node := do
  let start ← offset
  let t ← token
  if t.is "asserts" && (← next fun u => !u.newline && (u.isName || u.is "this")) then
    advance
    advance
    if (← sees "is") && !(← token).newline then
      advance
      let type ← anyType g
      return .other (← spanFrom start) [type]
    else return .other (← spanFrom start) []
  else if (t.isName || t.is "this") && (← next fun u => !u.newline && u.is "is") then
    advance
    advance
    let type ← anyType g
    return .other (← spanFrom start) [type]
  else anyType g

/-- `: result`, where types are allowed. -/
def typedResult : Parser (List Node) := do
  if (← dialect).types && (← sees ":") then
    advance
    return [← resultType g]
  else return []

/-- Whether `(` begins the parameters of a function type. -/
def seesFunctionParameters : Parser Bool :=
  ahead do
    advance
    if ← seesAny [")", "..."] then return true
    skipParameterModifiers
    let t ← token
    if t.isName || t.is "this" then advance
    else if t.isAny ["[", lbrace] then
      let _ ← g .pattern
    else return false
    if ← seesAny [":", ",", "?", "="] then return true
    if ← eat ")" then sees "=>" else return false

/-- Whether a function type or constructor type begins here. -/
def seesFunctionType : Parser Bool := do
  if ← seesAny ["<", "new"] then return true
  else if ← sees "(" then seesFunctionParameters g
  else if ← sees "abstract" then next (·.is "new")
  else return false

def functionType : Parser Node := do
  let start ← offset
  let _ ← eat "abstract"
  let _ ← eat "new"
  let generics ← typeParameters g
  let ps ← parameters g
  expect "=>"
  let result ← resultType g
  return .other (← spanFrom start) (generics ++ ps ++ [result])

/-- The end of a member of an object type. -/
def memberEnd : Parser Unit := do
  if ← eat "," then return
  terminator

/-- Whether `[name: type]` begins here. -/
def seesIndexSignature : Parser Bool :=
  ahead do
    if !(← eat "[") then return false
    if ← seesAny ["...", "]"] then return true
    let _ ← many
      (do
        if ← seesAny ["public", "private", "protected", "readonly", "static"] then
          next Token.isName
        else return false)
      advance
    if !(← token).isName then return false
    advance
    if ← seesAny [":", ","] then return true
    if !(← eat "?") then return false
    seesAny [":", ",", "]"]

/-- `[name: type]: type` up to its end. -/
def indexSignature : Parser (List Node) := do
  expect "["
  let ps ← separated "]" (parameter g)
  expect "]"
  let type ← typeMark g
  return ps ++ type

/-- Whether the token can begin the name of a member. -/
def startsKey (t : Token) : Bool :=
  match t.lexeme with
  | .word .. | .string _ | .number | .privateName _ => true
  | .symbol s => s == "["
  | _ => false

/-- One member of an object type. -/
def typeMember : Parser Node := do
  let start ← offset
  let signature : Parser (List Node) := do
    let generics ← typeParameters g
    let ps ← parameters g
    let result ← typedResult g
    return generics ++ ps ++ result
  let parts ←
    if ← seesAny ["(", "<"] then signature
    else if (← sees "new") && (← next fun t => t.isAny ["(", "<"]) then do
      advance
      signature
    else do
      let _ ← many
        (do
          if ← seesAny ["readonly", "public", "private", "protected", "static"] then
            next fun t => startsKey t && !t.newline
          else return false)
        advance
      if ← seesIndexSignature then indexSignature g
      else do
        if (← seesAny ["get", "set"]) && (← next startsKey) then advance
        let k ← key g
        let _ ← eat "?"
        if ← seesAny ["(", "<"] then
          let rest ← signature
          pure (k.parts ++ rest)
        else
          let type ← typeMark g
          pure (k.parts ++ type)
  memberEnd
  return .other (← spanFrom start) parts

/-- The members of an object type or interface, braces included. -/
def typeMembers : Parser (List Node) := do
  expect lbrace
  let members ← itemsUntil rbrace (typeMember g)
  expect rbrace
  return members

/-- Whether `{ [name in type] ... }` begins here. -/
def seesMappedType : Parser Bool :=
  ahead do
    advance
    if ← seesAny ["+", "-"] then
      advance
      sees "readonly"
    else
      let _ ← eat "readonly"
      if !(← eat "[") then return false
      if !(← token).isName then return false
      advance
      sees "in"

def mappedType : Parser Node := do
  let start ← offset
  expect lbrace
  if ← seesAny ["+", "-"] then advance
  let _ ← eat "readonly"
  expect "["
  let _ ← bindingName
  expect "in"
  let keys ← anyType g
  let renamed ← if ← eat "as" then pure [← anyType g] else pure []
  expect "]"
  if ← seesAny ["+", "-"] then advance
  let _ ← eat "?"
  let type ← if ← eat ":" then pure [← anyType g] else pure []
  if !(← sees rbrace) then terminator
  expect rbrace
  return .other (← spanFrom start) (keys :: (renamed ++ type))

/-- An element of a tuple type, perhaps named, optional or spread. -/
def tupleElement : Parser Node := do
  let start ← offset
  let _ ← eat "..."
  let named ←
    if (← token).isWord then
      ahead do
        advance
        if ← sees ":" then return true
        if !(← eat "?") then return false
        sees ":"
    else pure false
  if named then
    advance
    let _ ← eat "?"
    expect ":"
    let type ← anyType g
    return .other (← spanFrom start) [type]
  else
    let type ← anyType g
    let _ ← eat "?"
    return .other (← spanFrom start) [type]

/-- `import('...').name<type>` -/
def importType : Parser Node := do
  let start ← offset
  expect "import"
  expect "("
  let source ← g .type
  let options ← if (← eat ",") && !(← sees ")") then pure [← inner g] else pure []
  let _ ← eat ","
  expect ")"
  let _ ← many (sees ".") do
    advance
    if (← token).isWord then advance else unexpected
  let types ← typeArgumentsHere g
  return .other (← spanFrom start) (source :: (options ++ types))

/-- Template text with types in it. -/
def templateType : Parser Node := do
  let start ← offset
  match (← token).lexeme with
  | .template cooked true =>
    let span := (← token).span
    advance
    return .template span cooked []
  | _ =>
    let types ← repeatFrom [] fun types => do
      match (← token).lexeme with
      | .template _ true =>
        advance
        return .inr types.reverse
      | .template _ false =>
        advance
        let type ← anyType g
        if !(← sees rbrace) then unexpected
        again Lexer.readTemplateRest
        return .inl (type :: types)
      | _ => unexpected
    return .other (← spanFrom start) types

/-- A type without operators around it. -/
def simpleType : Parser Node := do
  let t ← token
  let start := t.span.start
  match t.lexeme with
  | .string value =>
    advance
    return .string t.span value
  | .number =>
    advance
    return .other t.span []
  | .template .. => templateType g
  | .symbol s =>
    if s == "-" then
      advance
      if (← token).lexeme != .number then unexpected
      advance
      return .other (← spanFrom start) []
    else if s == lbrace then
      if ← seesMappedType then mappedType g
      else
        let members ← typeMembers g
        return .other (← spanFrom start) members
    else if s == "[" then
      advance
      let elements ← separated "]" (tupleElement g)
      expect "]"
      return .other (← spanFrom start) elements
    else if s == "(" then
      advance
      let type ← anyType g
      expect ")"
      return .other (← spanFrom start) [type]
    else unexpected
  | .word .. =>
    if t.isAny builtinTypes && !(← next (·.is ".")) then
      advance
      return .other t.span []
    else if t.is "this" then
      if ← next fun u => !u.newline && u.is "is" then resultType g
      else
        advance
        return .other t.span []
    else if t.is "typeof" then
      advance
      if ← sees "import" then
        let type ← importType g
        return .other (← spanFrom start) [type]
      let name ← entityName
      let types ← typeArgumentsHere g
      return .other (← spanFrom start) (name :: types)
    else if t.is "import" then importType g
    else if t.is "asserts" && (← next fun u => !u.newline && (u.isName || u.is "this")) then
      resultType g
    else if t.isName then
      let name ← entityName
      let types ← typeArgumentsHere g
      return .other (← spanFrom start) (name :: types)
    else unexpected
  | _ => unexpected

/-- A simple type with `[]` and `[type]` after it. -/
def postfixType : Parser Node := do
  let start ← offset
  let first ← within (fun s => { s with noConditional := false }) (simpleType g)
  repeatFrom first fun type => do
    if (← sees "[") && !(← token).newline then
      advance
      if ← eat "]" then return .inl (.other (← spanFrom start) [type])
      let index ← anyType g
      expect "]"
      return .inl (.other (← spanFrom start) [type, index])
    else return .inr type

/-- `infer T`, perhaps with a bound that no `?` follows. -/
def inferType : Parser Node := do
  let start ← offset
  expect "infer"
  let _ ← bindingName
  let bound ←
    if ← sees "extends" then
      attempt do
        advance
        let type ← within (fun s => { s with noConditional := true }) (g .type)
        if !(← scope).noConditional && (← sees "?") then unexpected
        return type
    else pure none
  return .other (← spanFrom start) bound.toList

/-- A type with operators such as `keyof` before it. -/
def operatorType : Parser Node := do
  let start ← offset
  if ← sees "infer" then inferType g
  else
    let _ ← many (seesAny ["keyof", "unique", "readonly"]) advance
    if (← offset) == start then postfixType g
    else if ← sees "infer" then inferType g
    else
      let type ← postfixType g
      return .other (← spanFrom start) [type]

/-- Types joined by an operator, which may also stand before the first one. -/
def joinedTypes (operator : String) (item : Parser Node) : Parser Node := do
  let start ← offset
  let led ← eat operator
  let operand : Parser Node := do
    if ← seesFunctionType g then functionType g else item
  let first ← if led then operand else item
  if !(← sees operator) then return first
  let rest ← many (sees operator) do
    advance
    operand
  return .other (← spanFrom start) (first :: rest)

def type : Parser Node := do
  if ← seesFunctionType g then functionType g
  else
    let start ← offset
    let tested ← joinedTypes g "|" (joinedTypes g "&" (operatorType g))
    if (← scope).noConditional || (← token).newline || !(← sees "extends") then return tested
    advance
    let bound ← within (fun s => { s with noConditional := true }) (g .type)
    expect "?"
    let yes ← anyType g
    expect ":"
    let no ← anyType g
    return .other (← spanFrom start) [tested, bound, yes, no]

end Parser

end Codemod

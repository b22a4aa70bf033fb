import Codemod.Syntax.Parser.Type

/-!
# Codemod.Syntax.Parser.Function

Functions, methods, object literals and classes.
-/

namespace Codemod

namespace Parser

variable (g : Grammar)

/-- The scope of a function's parameters and body. -/
def functionScope (isAsync isGenerator : Bool) (s : Scope) : Scope :=
  { s with
    inOperator := true, awaits := isAsync, yields := isGenerator, returns := true,
    decorator := false }

/-- Statements between braces. -/
def block : Parser (List Node) := do
  expect lbrace
  let statements ← itemsUntil rbrace (g (.statement false))
  expect rbrace
  return statements

/-- Type parameters, parameters, result type and body. Where types are allowed a declaration
without a body is fine. `arity`, if given, is how many parameters there have to be; `this` does not
count as one. -/
def functionParts (isAsync isGenerator : Bool) (arity : Option Nat) : Parser (List Node) :=
  within (functionScope isAsync isGenerator) do
    let generics ← typeParameters g
    let opening ← offset
    let hasThis ← next (·.is "this")
    let ps ← parameters g
    let result ← typedResult g
    let body ←
      if ← sees lbrace then block g
      else if (← dialect).types then do
        terminator
        pure []
      else unexpected
    let count := if hasThis then ps.length - 1 else ps.length
    if arity.any (· != count) then note opening
    return generics ++ ps ++ result ++ body

/-- A function from the word `function` on; a declaration should have a name. -/
def functionFrom (start : Nat) (isAsync declared : Bool) : Parser Node := do
  expect "function"
  let isGenerator ← eat "*"
  let name ←
    if (← token).isName then
      let (_, name) ← bindingName
      pure (some name)
    else do
      if declared then note (← offset)
      pure none
  let parts ← functionParts g isAsync isGenerator none
  return .function (← spanFrom start) name parts

/-- Whether `async` here belongs to a function: `function` follows on the same line. -/
def seesAsyncFunction : Parser Bool := do
  if ← sees "async" then next fun t => t.is "function" && !t.newline else return false

/-- A function written as a method. -/
def methodFunction (isAsync isGenerator : Bool) (arity : Option Nat) : Parser Node := do
  let start ← offset
  let parts ← functionParts g isAsync isGenerator arity
  return .function (← spanFrom start) none parts

/-- How many parameters the accessor that begins with this token has. -/
def accessorArity (t : Token) : Option Nat :=
  if t.is "get" then some 0 else some 1

/-- One property of an object literal. -/
def objectProperty : Parser Node := do
  let start ← offset
  if ← eat "..." then
    let e ← inner g
    return .spread (← spanFrom start) e
  let isAsync ←
    if ← sees "async" then next fun t => !t.newline && (startsKey t || t.is "*") else pure false
  if isAsync then advance
  let isGenerator ← eat "*"
  let isAccessor ←
    if !isAsync && !isGenerator && (← seesAny ["get", "set"]) then next startsKey else pure false
  let first ← token
  let arity := if isAccessor then accessorArity first else none
  if isAccessor then advance
  let t ← token
  let k ← key g
  if isAsync || isGenerator || isAccessor || (← seesAny ["(", "<"]) then
    let f ← methodFunction g isAsync isGenerator arity
    return .property (← spanFrom start) k.name k.parts f
  else if ← eat ":" then
    let value ← inner g
    return .property (← spanFrom start) k.name k.parts value
  else if t.isName then
    let name := k.name.getD ""
    let reference := Node.reference k.span name
    if ← eat "=" then
      let value ← inner g
      let span ← spanFrom start
      modify fun s => { s with covered := start :: s.covered }
      return .property span k.name [] (.assign span reference value)
    else return .property k.span k.name [] reference
  else unexpected

def objectLiteral : Parser Node := do
  let start ← offset
  expect lbrace
  let properties ← separated rbrace (objectProperty g)
  expect rbrace
  return .object (← spanFrom start) properties

/-- Words before a class member that every dialect knows. -/
def commonModifiers : List String :=
  ["static", "async", "accessor"]

/-- Words before a class member that need types. -/
def typeModifiers : List String :=
  ["public", "private", "protected", "readonly", "abstract", "override", "declare"]

/-- Whether the current word stands before a class member rather than being its name. -/
def seesModifier : Parser Bool := do
  let follows (t : Token) : Bool := startsKey t || t.is "*"
  if ← sees "static" then next follows
  else if ← seesAny (commonModifiers ++ typeModifiers) then
    next fun t => follows t && !t.newline
  else return false

/-- Words that say who may see a member. -/
def accessWords : List String :=
  ["public", "private", "protected"]

/-- The words that must not stand before a given one, which may come only once itself. -/
def tooLateAfter (word : String) : List String :=
  word :: (if accessWords.contains word then
      accessWords ++ ["override", "static", "accessor", "readonly", "async"]
    else if word == "static" then ["readonly", "async", "accessor", "override"]
    else if word == "override" then ["readonly", "accessor", "async"]
    else if word == "abstract" then ["override"]
    else [])

/-- The words before a class member. -/
def modifiers : Parser (List String) :=
  repeatFrom [] fun words => do
    if !(← seesModifier) then return .inr words.reverse
    let t ← token
    if t.isAny typeModifiers && !(← dialect).types then note t.span.start
    advance
    match t.lexeme with
    | .word name _ =>
      if (tooLateAfter name).any words.contains then note t.span.start
      return .inl (name :: words)
    | _ => return .inr words.reverse

/-- The end of a field: `;`, or nothing where a statement could end. -/
def fieldEnd : Parser Unit := do
  if ← eat ";" then return
  if ← mayEnd then return
  unexpected

/-- Notes a name that a member cannot have. Only a plain method makes a constructor. -/
def checkMemberName (words : List String) (t : Token) (k : Key) (isField isPlain : Bool) :
    Parser Unit := do
  let isStatic := words.contains "static"
  let isConstructor := k.name == some "constructor"
  if t.lexeme == .privateName "constructor" || isConstructor && isField ||
      isConstructor && !isStatic && !isPlain || k.name == some "prototype" && isStatic then
    note t.span.start

/-- One member of a class. -/
def classMember : Parser Node := do
  let start ← offset
  let marks ← decorators g
  if (← sees "static") && (← next (·.is lbrace)) then
    advance
    let body ← within (fun s => { s with awaits := false, yields := false, returns := false })
      (block g)
    return .other (← spanFrom start) (marks ++ body)
  let words ← modifiers
  let late ← decorators g
  let marks := marks ++ late
  let isAsync := words.contains "async"
  if (← dialect).types && (← seesIndexSignature) then
    let parts ← indexSignature g
    fieldEnd
    return .other (← spanFrom start) (marks ++ parts)
  let isAccessor ← if ← seesAny ["get", "set"] then next startsKey else pure false
  let first ← token
  let arity := if isAccessor then accessorArity first else none
  if isAccessor then advance
  let isGenerator ← eat "*"
  let t ← token
  if !startsKey t then unexpected
  let k ← key g
  if (← dialect).types && (← seesAny ["?", "!"]) then advance
  if isAccessor || isGenerator || isAsync || (← seesAny ["(", "<"]) then
    checkMemberName words t k false (!isAccessor && !isGenerator && !isAsync)
    let parts ← methodFunction g isAsync isGenerator arity
    return .method (← spanFrom start) k.name k.span (marks ++ k.parts ++ [parts])
  else
    checkMemberName words t k true false
    let type ← typeMark g
    let init ←
      if ← eat "=" then
        let e ← within
          (fun s => { s with inOperator := true, awaits := false, yields := false })
          (g (.assignment true))
        pure [e]
      else pure []
    fieldEnd
    let span ← spanFrom start
    if words.contains "accessor" then
      return .other span (marks ++ k.parts ++ type ++ init)
    else return .field span k.name (marks ++ k.parts ++ type) init

/-- What a class extends and implements. -/
def heritage : Parser (List Node) := do
  let clauses ← many (do
      if ← sees "extends" then return true
      else if (← dialect).types then sees "implements"
      else return false) do
    if ← eat "extends" then
      let base : Parser (List Node) := do
        let name ← g .operand
        let types ← if (← dialect).types && (← seesTypeArguments) then typeArguments g else pure []
        return name :: types
      let first ← base
      let more ← many (sees ",") do
        advance
        base
      return first ++ more.flatten
    else
      advance
      let clause : Parser Node := do
        let start ← offset
        let name ← entityName
        let types ← typeArgumentsHere g
        return .other (← spanFrom start) (name :: types)
      let first ← clause
      let more ← many (sees ",") do
        advance
        clause
      return first :: more
  return clauses.flatten

/-- A class from the word `class` on. -/
def classFrom (start : Nat) (marks : List Node) : Parser Node := do
  expect "class"
  let name ←
    if (← token).isName && !((← sees "implements") && (← next Token.isWord)) then
      let (_, name) ← bindingName
      pure (some name)
    else pure none
  let generics ← typeParameters g
  let bases ← heritage g
  let open_ ← offset
  expect lbrace
  let _ ← many (sees ";") advance
  let members ← itemsUntil rbrace do
    let member ← classMember g
    let _ ← many (sees ";") advance
    return member
  expect rbrace
  let body ← spanFrom open_
  return .classDef (← spanFrom start) name (marks ++ generics ++ bases) body members

end Parser

end Codemod

import Codemod.Syntax.Parser.Transfer

/-!
# Codemod.Syntax.Parser.Statement

Statements.
-/

namespace Codemod

namespace Parser

variable (g : Grammar)

/-- An expression in parentheses, as in the head of a statement. -/
def parenthesized : Parser Node := do
  expect "("
  let e ← innerExpression g
  expect ")"
  return e

/-- An expression used as a statement, or a statement with a label. -/
def expressionStatement : Parser Node := do
  let start ← offset
  let e ← g .expression
  match e with
  | .reference .. =>
    if ← eat ":" then
      let body ← g (.statement true)
      return .other (← spanFrom start) [body]
    terminator
    return .statement (← spanFrom start) e
  | _ =>
    terminator
    return .statement (← spanFrom start) e

/-- Whether `let` declares bindings here, rather than being a name. -/
def seesLet (single : Bool) : Parser Bool :=
  next fun t =>
    let isOperator := (level? t).isSome || t.isAny assignmentOperators
    !isOperator && !t.isAny [".", "(", ";"] && (!single || t.is "[")

/-- What the head of a loop goes on with after its first part `init`, which begins with `first`. -/
def loopRest (start : Nat) (awaits declares constant asyncOf : Bool) (first : Token)
    (init : List Node) : Parser (List Node) := do
  let targets : Parser (List Node) :=
    if declares then pure init else init.mapM fun e => target e false
  if ← eat "of" then
    if asyncOf && !awaits then note first.span.start
    let left ← targets
    let right ← inner g
    return left ++ [right]
  else if ← eat "in" then
    if awaits then note start
    let left ← targets
    let right ← innerExpression g
    return left ++ [right]
  else
    if awaits then note start
    expect ";"
    init.forM (checkInitialized constant)
    let test ← if ← sees ";" then pure [] else pure [← innerExpression g]
    expect ";"
    let step ← if ← sees ")" then pure [] else pure [← innerExpression g]
    return init ++ test ++ step

/-- The head of a loop that begins at `start`, up to its closing parenthesis. -/
def loopHead (start : Nat) : Parser (List Node) := do
  let awaits ← sees "await"
  if awaits then
    if !(← scope).awaits then note (← offset)
    advance
  expect "("
  let first ← token
  let asyncOf ← if first.is "async" then next (·.is "of") else pure false
  let declares ←
    if ← seesAny ["var", "const"] then pure true
    else if ← sees "let" then next fun t => t.isName || t.isAny ["[", lbrace]
    else if ← sees "using" then next fun t => t.isName && !t.is "of" && !t.newline
    else pure false
  let constant ← sees "const"
  let init : List Node ←
    if ← sees ";" then pure []
    else within (fun s => { s with inOperator := false }) do
      if declares then
        advance
        declarators g constant true
      else return [← g .expression]
  loopRest g start awaits declares constant asyncOf first init

/-- `case` or `default` with its statements. -/
def switchCase : Parser (List Node) := do
  let test ← if ← eat "default" then pure [] else do
    expect "case"
    pure [← innerExpression g]
  expect ":"
  let body ← many
    (do return !(← seesAny ["case", "default", rbrace]) && !(← seesEnd))
    (g (.statement false))
  return test ++ body

def tryStatement : Parser (List Node) := do
  advance
  let tried ← block g
  let blockEnd := (← get).lastStop
  let caught ←
    if ← eat "catch" then
      let parameter ←
        if ← eat "(" then
          let p ← g .pattern
          let type ← typeMark g
          expect ")"
          pure (p :: type)
        else pure []
      let body ← block g
      pure (some (parameter ++ body))
    else pure none
  let final ← if ← eat "finally" then pure (some (← block g)) else pure none
  if caught.isNone && final.isNone then note blockEnd
  return tried ++ caught.getD [] ++ final.getD []

/-- A statement that begins with a keyword of its own, given the parts after that keyword. -/
def control (t : Token) : Option (Parser (List Node)) :=
  let body := g (.statement true)
  if t.is "if" then some do
    advance
    let test ← parenthesized g
    let yes ← body
    if ← eat "else" then return [test, yes, ← body] else return [test, yes]
  else if t.is "for" then some do
    advance
    let head ← loopHead g t.span.start
    expect ")"
    return head ++ [← body]
  else if t.is "while" || t.is "with" then some do
    advance
    let test ← parenthesized g
    return [test, ← body]
  else if t.is "do" then some do
    advance
    let e ← body
    expect "while"
    let test ← parenthesized g
    let _ ← eat ";"
    return [e, test]
  else if t.isAny ["break", "continue"] then some do
    advance
    if !(← mayEnd) then
      let _ ← bindingName
    terminator
    return []
  else if t.is "return" then some do
    if !(← scope).returns then note t.span.start
    advance
    let e ← if ← mayEnd then pure [] else pure [← innerExpression g]
    terminator
    return e
  else if t.is "throw" then some do
    advance
    if (← token).newline then note t.span.start
    let e ← innerExpression g
    terminator
    return [e]
  else if t.is "debugger" then some do
    advance
    terminator
    return []
  else if t.is "switch" then some do
    advance
    let e ← parenthesized g
    expect lbrace
    let cases ← itemsUntil rbrace (switchCase g)
    expect rbrace
    return e :: cases.flatten
  else if t.is "try" then some (tryStatement g)
  else none

/-- A class or an export that decorators stand before. -/
def decorated : Parser Node := do
  let start ← offset
  let marks ← Parser.decorators g
  if ← sees "export" then exportDeclaration g (← offset) marks
  else if ← sees "class" then classFrom g start marks
  else if (← dialect).types && (← seesDeclaration) then declaration g start marks
  else unexpected

/-- Whether `using`, perhaps with `await` before it, declares bindings here. -/
def seesUsing : Parser Bool :=
  ahead do
    let _ ← eat "await"
    if !(← eat "using") then return false
    let t ← token
    return t.isName && !t.newline && !t.isAny ["of", "in"]

def statement (single : Bool) : Parser Node := do
  let t ← token
  let start := t.span.start
  match control g t with
  | some rest =>
    let parts ← rest
    return .other (← spanFrom start) parts
  | none =>
    if t.is lbrace then
      let body ← block g
      return .other (← spanFrom start) body
    else if t.is ";" then
      advance
      return .other t.span []
    else if t.is "@" then decorated g
    else if t.is "class" then
      if single then note start
      classFrom g start []
    else if t.is "export" then exportDeclaration g start []
    else if t.is "var" then bindings g start
    else if t.is "const" then
      if (← dialect).types && (← next (·.is "enum")) then
        advance
        enumeration g start true
      else
        if single then note start
        bindings g start
    else if t.is "let" then
      if ← seesLet single then bindings g start else expressionStatement g
    else if t.is "function" then
      if single && (← next (·.is "*")) then note start
      functionFrom g start false true
    else if ← seesAsyncFunction then
      if single then note start
      advance
      functionFrom g start true true
    else if t.is "import" && !(← next fun u => u.isAny ["(", "."]) then
      advance
      importRest start
    else if ← seesUsing then
      let _ ← eat "await"
      bindings g start
    else if (← dialect).types &&
        t.isAny (["interface", "type", "module", "namespace", "enum", "static", "global"] ++
          declarationModifiers) then
      if ← seesDeclaration then declaration g start [] else expressionStatement g
    else expressionStatement g

end Parser

end Codemod

import Codemod.Syntax.Parser.Basic

/-!
# Codemod.Syntax.Parser.Binding

Names that introduce bindings: property keys, destructuring patterns, parameters, and the
decorators and type annotations that go with them.

An introduced name is no reference, so a plain binding leaves an empty node in the tree.
-/

namespace Codemod

namespace Parser

/-- A property key: where it is, its name unless it is computed, and the nodes inside it. -/
structure Key where
  span : Span
  name : Option String
  parts : List Node

variable (g : Grammar)

/-- An expression without commas in which `in` is an operator. -/
def inner : Parser Node :=
  within (fun s => { s with inOperator := true, decorator := false }) (g (.assignment true))

/-- An expression, commas included, in which `in` is an operator. -/
def innerExpression : Parser Node :=
  within (fun s => { s with inOperator := true, decorator := false }) (g .expression)

/-- The key of a property, a class member or a member of a type. -/
def key : Parser Key := do
  let t ← token
  match t.lexeme with
  | .string value =>
    advance
    return ⟨t.span, some value, [.string t.span value]⟩
  | .word name _ =>
    advance
    return ⟨t.span, some name, []⟩
  | .number | .privateName _ =>
    advance
    return ⟨t.span, none, []⟩
  | .symbol "[" =>
    advance
    let e ← inner g
    expect "]"
    return ⟨e.span, none, [e]⟩
  | _ => unexpected

/-- A name that introduces a binding. -/
def bindingName : Parser (Span × String) := do
  let t ← token
  match t.lexeme with
  | .word name _ =>
    if !t.isName then unexpected
    else
      let s ← scope
      if name == "await" && s.awaits || name == "yield" && s.yields then note t.span.start
      advance
      return (t.span, name)
  | _ => unexpected

/-- A name that refers to a binding. -/
def referenceName : Parser Node := do
  let (span, name) ← bindingName
  return .reference span name

/-- `: type`, where types are allowed. -/
def typeMark : Parser (List Node) := do
  if (← dialect).types && (← sees ":") then
    advance
    return [← g .type]
  else return []

/-- `= value` -/
def initializer : Parser (List Node) := do
  if ← eat "=" then return [← inner g] else return []

/-- One element of a destructuring pattern, with its default. -/
def patternElement : Parser Node := do
  let start ← offset
  let target ← g .pattern
  let init ← initializer g
  return .other (← spanFrom start) (target :: init)

/-- `...rest`, which has to come last, without a comma after it, and has no default. -/
def restElement (close : String) : Parser Node := do
  let start ← offset
  expect "..."
  let argument ← offset
  let target ← g .pattern
  let type ← typeMark g
  let init ← initializer g
  if !init.isEmpty then note argument
  let span ← spanFrom start
  if ← sees "," then
    if ← next (·.is close) then note (← offset) else note start
  return .other span (target :: (type ++ init))

def objectPattern : Parser Node := do
  let start ← offset
  expect lbrace
  let properties ← separated rbrace do
    if ← sees "..." then restElement g rbrace
    else
      let t ← token
      let from_ ← offset
      let k ← key g
      if ← eat ":" then
        let target ← patternElement g
        return .other (← spanFrom from_) (k.parts ++ [target])
      else if t.isName then
        let init ← initializer g
        return .other (← spanFrom from_) init
      else unexpected
  expect rbrace
  return .other (← spanFrom start) properties

def arrayPattern : Parser Node := do
  let start ← offset
  expect "["
  let elements ← separated "]" do
    if ← sees "," then return .other (← token).span []
    else if ← sees "..." then restElement g "]"
    else patternElement g
  expect "]"
  return .other (← spanFrom start) elements

/-- A binding: a name or a destructuring pattern. -/
def pattern : Parser Node := do
  if ← sees "[" then arrayPattern g
  else if ← sees lbrace then objectPattern g
  else
    let (span, _) ← bindingName
    return .other span []

/-- `@expression` -/
def decorator : Parser Node := do
  let start ← offset
  expect "@"
  let e ← within (fun s => { s with decorator := true }) (g .operand)
  return .decorator (← spanFrom start) [e]

def decorators : Parser (List Node) :=
  many (sees "@") (decorator g)

/-- Words that may stand before a parameter that is also a member. -/
def parameterModifiers : List String :=
  ["public", "private", "protected", "readonly", "override"]

/-- Skips the words before a parameter that make it a member. -/
def skipParameterModifiers : Parser Unit := do
  let _ ← many
    (do
      if (← dialect).types && (← seesAny parameterModifiers) then
        next fun t => t.isName || t.isAny [lbrace, "[", "this"]
      else return false)
    advance

/-- One parameter of a function. -/
def parameter : Parser Node := do
  let start ← offset
  let marks ← decorators g
  skipParameterModifiers
  if ← sees "..." then
    let rest ← restElement g ")"
    return .other (← spanFrom start) (marks ++ [rest])
  else if (← dialect).types && (← sees "this") then
    advance
    let type ← typeMark g
    return .other (← spanFrom start) type
  else
    let target ← g .pattern
    if (← dialect).types then
      let _ ← eat "?"
    let type ← typeMark g
    let init ← initializer g
    return .other (← spanFrom start) (marks ++ target :: (type ++ init))

/-- The parameters of a function, parentheses included. -/
def parameters : Parser (List Node) := do
  expect "("
  let ps ← separated ")" (parameter g)
  expect ")"
  return ps

end Parser

end Codemod

import Codemod.Syntax.Parser.Type

/-!
# Codemod.Syntax.Parser.Markup

Elements and fragments written between angle brackets.
-/

namespace Codemod

namespace Parser

variable (g : Grammar)

/-- Goes past a symbol after which more markup content follows, or after which the markup ends. -/
def leave (symbol : String) (inside : Bool) : Parser Unit := do
  if ← sees symbol then advanceWith (if inside then Lexer.readMarkupChild else Lexer.read)
  else unexpected

/-- A name in markup, hyphens included. It has no escape sequences in it. -/
def markupWord : Parser (Span × String) := do
  if !(← token).isWord then unexpected
  again Lexer.readMarkupName
  let t ← token
  match t.lexeme with
  | .word name _ =>
    if name.isEmpty then unexpected
    advance
    return (t.span, name)
  | _ => unexpected

/-- The name of an element: its spelling, the name if it is a single identifier, and the
references in it. -/
structure TagName where
  spelling : Text
  name : Option String
  parts : List Node

/-- Whether a name in markup stands for a binding and not for a built-in element. -/
def isComponentName (name : String) : Bool :=
  match name.toList with
  | c :: cs => !('a' ≤ c && c ≤ 'z') && !(c :: cs).contains '-'
  | [] => false

def tagName : Parser TagName := do
  let (span, name) ← markupWord
  if ← eat ":" then
    let (_, local_) ← markupWord
    return ⟨name.toList ++ ':' :: local_.toList, none, []⟩
  let head : Node := if name == "this" then .this span else .reference span name
  if ← sees "." then
    let spelling ← repeatFrom name.toList fun spelling => do
      if ← eat "." then
        let (_, part) ← markupWord
        return .inl (spelling ++ '.' :: part.toList)
      else return .inr spelling
    return ⟨spelling, none, [head]⟩
  if name == "this" then return ⟨name.toList, none, [head]⟩
  return ⟨name.toList, some name, if isComponentName name then [head] else []⟩

/-- An expression between braces, which may not be a list with commas. -/
def markupExpression : Parser Node := do
  let e ← inner g
  if ← sees "," then stop e.span.start
  return e

/-- The value of an attribute after `=`. -/
def attributeValue : Parser Node := do
  let t ← token
  match t.lexeme with
  | .string value =>
    advance
    return .string t.span value
  | _ =>
    if t.is lbrace then
      advance
      if ← sees rbrace then stop t.span.start
      let e ← markupExpression g
      expect rbrace
      return .other (← spanFrom t.span.start) [e]
    else if t.is "<" then
      advance
      g (.markup t.span.start false)
    else unexpected

def tagAttribute : Parser Node := do
  let start ← offset
  if ← eat lbrace then
    expect "..."
    let e ← markupExpression g
    expect rbrace
    return .other (← spanFrom start) [e]
  let _ ← markupWord
  if ← eat ":" then
    let _ ← markupWord
  if ← sees "=" then
    advanceWith Lexer.readMarkupString
    let value ← attributeValue g
    return .other (← spanFrom start) [value]
  else return .other (← spanFrom start) []

/-- The content of an element and its closing tag, whose name is answered too. -/
def content (inside : Bool) : Parser (List Node × Option TagName × Nat) :=
  repeatFrom [] fun parts => do
    let t ← token
    match t.lexeme with
    | .markupText =>
      advanceWith Lexer.readMarkupChild
      return .inl parts
    | _ =>
      if t.is "<" then
        advance
        if ← eat "/" then
          let start ← offset
          if ← sees ">" then
            leave ">" inside
            return .inr (parts.reverse, none, t.span.start)
          else
            let name ← tagName
            leave ">" inside
            return .inr (parts.reverse, some name, start)
        else
          let child ← g (.markup t.span.start true)
          return .inl (child :: parts)
      else if t.is lbrace then
        advance
        if ← sees rbrace then
          leave rbrace true
          return .inl parts
        else
          let _ ← eat "..."
          let e ← markupExpression g
          leave rbrace true
          return .inl (.other ⟨t.span.start, e.span.stop⟩ [e] :: parts)
      else unexpected

/-- An element or fragment after its `<`; `inside` where it is part of another one. -/
def markup (start : Nat) (inside : Bool) : Parser Node := do
  if ← sees ">" then
    leave ">" true
    let (parts, closing, closingStart) ← content g inside
    if closing.isSome then stop closingStart
    return .other (← spanFrom start) parts
  else
    let name ← tagName
    let types ← if (← dialect).types && (← seesTypeArguments) then typeArguments g else pure []
    let attributes ←
      many (do return !(← seesAny [">", "/", "<"]) && !(← seesEnd)) (tagAttribute g)
    if ← eat "/" then
      leave ">" inside
      return .element (← spanFrom start) name.name (name.parts ++ types ++ attributes)
    else
      leave ">" true
      let (parts, closing, closingStart) ← content g inside
      match closing with
      | none => stop closingStart
      | some closing =>
        if closing.spelling != name.spelling then note closingStart
        return .element (← spanFrom start) name.name
          (name.parts ++ types ++ attributes ++ parts ++ closing.parts)

end Parser

end Codemod

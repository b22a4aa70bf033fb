import Codemod.Syntax.Parser.Function
import Codemod.Syntax.Parser.Markup
import Codemod.Syntax.Parser.Target

/-!
# Codemod.Syntax.Parser.Expression

Expressions, from literals up to assignments and arrow functions.

Whether parentheses hold an expression or the parameters of an arrow function is decided by a look
at the first few tokens where that is enough, and else by trying.
-/

namespace Codemod

namespace Parser

variable (g : Grammar)

/-- A template literal. Its meaning is that of the text before the first substitution. All its text
must have a meaning, unless a function that it is passed to may look at the text itself. -/
def template (tagged : Bool) : Parser Node := do
  let start ← offset
  match (← token).lexeme with
  | .template cooked _ =>
    let parts ← repeatFrom [] fun parts => do
      let t ← token
      match t.lexeme with
      | .template text true =>
        if text.isNone && !tagged then note t.span.start
        advance
        return .inr parts.reverse
      | .template text false =>
        if text.isNone && !tagged then note t.span.start
        advance
        let e ← innerExpression g
        if !(← sees rbrace) then unexpected
        again Lexer.readTemplateRest
        return .inl (e :: parts)
      | _ => unexpected
    return .template (← spanFrom start) cooked parts
  | _ => unexpected

/-- An argument of a call or an element of an array. -/
def spreadOrInner : Parser Node := do
  let start ← offset
  if ← eat "..." then
    let e ← inner g
    return .spread (← spanFrom start) e
  else inner g

def arguments : Parser (List Node) := do
  expect "("
  let args ← separated ")" (spreadOrInner g)
  expect ")"
  return args

def arrayLiteral : Parser Node := do
  let start ← offset
  expect "["
  let elements ← separated "]" do
    if ← sees "," then return .hole (← token).span else spreadOrInner g
  expect "]"
  return .array (← spanFrom start) elements

/-- An operand with what has been attached to it so far. -/
structure Operand where
  node : Node
  /-- Some part of it is only taken where there is a value. -/
  optional : Bool
  /-- Type arguments that no call has used up yet, and what they belong to. -/
  instanceOf : Option (Node × List Node)

/-- Whether what follows `f<T>` allows reading it as `f` with type arguments. -/
def mayFollowTypeArguments : Parser Bool := do
  let t ← token
  match t.lexeme with
  | .template .. => return true
  | _ =>
    if t.is "(" then return true
    if t.isAny ["<", ">", "+", "-"] then return false
    let operators := ["*", "/", "%", "**", "&", "|", "^", "&&", "||", "??", "==", "!=", "===",
      "!==", "<=", "<<", "in", "instanceof", "as", "satisfies"]
    if t.newline || t.isAny operators then return true
    match t.lexeme with
    | .symbol s =>
      return !(["[", "!", "~", "++", "--", "@", "...", lbrace].contains s)
    | .word .. => return false
    | .finish => return true
    | _ => return false

/-- Type arguments in an expression, or nothing when `<` is an operator. -/
def expressionTypeArguments : Parser (Option (List Node)) :=
  attempt do
    let types ← typeArguments g
    if !(← mayFollowTypeArguments) then unexpected
    return types

/-- Attaches member accesses, type arguments, templates and, if `calls` allows them, calls. -/
def attach (calls : Bool) (start : Nat) (first : Node) : Parser Operand :=
  repeatFrom ⟨first, false, none⟩ fun x => do
    let t ← token
    let call (optional : Bool) (types : List Node) : Parser (Operand ⊕ Operand) := do
      let (callee, known) := x.instanceOf.getD (x.node, [])
      let args ← arguments g
      return .inl
        ⟨.call (← spanFrom start) callee (known ++ types) args, x.optional || optional, none⟩
    let access (optional : Bool) : Parser (Operand ⊕ Operand) := do
      let u ← token
      match u.lexeme with
      | .word name _ =>
        advance
        return .inl ⟨.member (← spanFrom start) x.node name, x.optional || optional, none⟩
      | .privateName _ =>
        advance
        return .inl ⟨.index (← spanFrom start) x.node [], x.optional || optional, none⟩
      | _ => unexpected
    let element (optional : Bool) : Parser (Operand ⊕ Operand) := do
      expect "["
      let e ← innerExpression g
      expect "]"
      return .inl ⟨.index (← spanFrom start) x.node [e], x.optional || optional, none⟩
    match t.lexeme with
    | .template .. =>
      if x.optional then note t.span.start
      let quasi ← template g true
      return .inl ⟨.other (← spanFrom start) (x.node :: [quasi]), x.optional, none⟩
    | _ =>
      if t.is "." then
        advance
        access false
      else if t.is "[" && !(← scope).decorator then element false
      else if t.is "(" && calls then call false []
      else if t.is "!" && (← dialect).types && !t.newline then
        advance
        return .inl ⟨.wrapped (← spanFrom start) x.node [], x.optional, none⟩
      else if t.is "?." then
        let direct ← next fun u =>
          match u.lexeme with
          | .word .. | .privateName _ => true
          | .symbol s => s == "["
          | _ => false
        if direct then
          advance
          if ← sees "[" then element true else access true
        else if calls then
          advance
          let types ← if (← dialect).types && (← seesTypeArguments) then
            expressionTypeArguments g else pure none
          call true (types.getD [])
        else return .inr x
      else if t.isAny ["<", "<<"] && (← dialect).types then
        match ← expressionTypeArguments g with
        | some types =>
          return .inl
            ⟨.other (← spanFrom start) (x.node :: types), x.optional, some (x.node, types)⟩
        | none => return .inr x
      else return .inr x

/-- `new callee(...)` or `new.target` -/
def newExpression : Parser Node := do
  let start ← offset
  expect "new"
  if ← eat "." then
    if !(← sees "target") then stop start
    advance
    return .other (← spanFrom start) []
  let callee ← g .callee
  let args ← if ← sees "(" then arguments g else pure []
  return .other (← spanFrom start) (callee :: args)

/-- The name of a module and perhaps options, in the parentheses of an `import` at `start`. -/
def importArguments (start : Nat) : Parser (List Node) := do
  expect "("
  if ← sees ")" then stop start
  let source ← inner g
  let options ← if (← eat ",") && !(← sees ")") then pure [← inner g] else pure []
  let _ ← eat ","
  if !(← sees ")") then stop start
  advance
  return source :: options

/-- `import(...)` or `import.meta` -/
def importExpression : Parser Node := do
  let start ← offset
  expect "import"
  if ← eat "." then
    if ← eat "meta" then return .other (← spanFrom start) []
    if !(← seesAny ["source", "defer"]) then stop start
    advance
  let args ← importArguments g start
  return .other (← spanFrom start) args

/-- Expressions in parentheses with commas between them. -/
def parenthesizedList : Parser Node := do
  let start ← offset
  let first ← g (.assignment true)
  if !(← sees ",") then return first
  let rest ← many (sees ",") do
    let comma ← offset
    advance
    if ← sees ")" then stop comma
    g (.assignment true)
  return .other (← spanFrom start) (first :: rest)

/-- Expressions without operators, member accesses and calls. -/
def primary : Parser Node := do
  let t ← token
  let start := t.span.start
  match t.lexeme with
  | .string value =>
    advance
    return .string t.span value
  | .number =>
    advance
    return .other t.span []
  | .template .. => template g false
  | .symbol s =>
    if s == "(" then
      advance
      if ← sees ")" then stop start
      let e ← within (fun s => { s with inOperator := true, decorator := false })
        (parenthesizedList g)
      expect ")"
      return .wrapped (← spanFrom start) e []
    else if s == "[" then arrayLiteral g
    else if s == lbrace then objectLiteral g
    else if s == "/" || s == "/=" then
      again Lexer.readRegex
      let u ← token
      if u.lexeme != .regex then unexpected
      let flags := ((← get).here.slice 0 u.span.length).reverse.takeWhile (· != '/')
      if flags.contains 'u' && flags.contains 'v' then note start
      advance
      return .other (← spanFrom start) []
    else if s == "@" then
      let marks ← decorators g
      classFrom g start marks
    else unexpected
  | .word .. =>
    if t.is "this" then
      advance
      return .this t.span
    else if t.isAny ["null", "true", "false"] then
      advance
      return .other t.span []
    else if t.is "super" then
      advance
      if !(← seesAny [".", "[", "("]) then note start
      return .other t.span []
    else if t.is "function" then functionFrom g start false false
    else if t.is "class" then classFrom g start []
    else if t.is "new" then newExpression g
    else if t.is "import" then importExpression g
    else if ← seesAsyncFunction then
      advance
      functionFrom g start true false
    else referenceName
  | _ => unexpected

/-- What `new` applies to: an operand whose calls are left to `new`. -/
def callee : Parser Node := do
  let start ← offset
  let first ← primary g
  let x ← attach g false start first
  if x.optional then stop start
  return x.node

/-- An operand with everything attached to it. -/
def operand : Parser Node := do
  let start ← offset
  let first ← primary g
  let x ← attach g true start first
  if x.optional then return .other (← spanFrom start) [x.node] else return x.node

/-- An operand with `++` or `--` before or after it. -/
def update : Parser Node := do
  let start ← offset
  if ← seesAny ["++", "--"] then
    advance
    let e ← g .unary
    if let some fault := e.simpleFault? then stop fault
    return .other (← spanFrom start) [e.asTarget]
  else
    let e ← g .operand
    if (← seesAny ["++", "--"]) && !(← token).newline then
      if let some fault := e.simpleFault? then stop fault
      advance
      return .other (← spanFrom start) [e.asTarget]
    else return e

/-- Whether `await` is an operator here. -/
def seesAwait : Parser Bool := do
  if !(← sees "await") then return false
  if (← scope).awaits then return true
  next fun t => !t.newline &&
    match t.lexeme with
    | .word .. | .number | .string _ | .template .. => !t.isAny ["in", "of", "instanceof"]
    | _ => false

def unaryOperators : List String :=
  ["delete", "void", "typeof", "+", "-", "~", "!"]

def unary : Parser Node := do
  let start ← offset
  if ← seesAny unaryOperators then
    advance
    let e ← g .unary
    return .other (← spanFrom start) [e]
  else if ← seesAwait then
    if !(← scope).awaits then note start
    advance
    let e ← g .unary
    return .other (← spanFrom start) [e]
  else if (← sees "<") && (← dialect).markup then
    advance
    g (.markup start false)
  else if (← seesAny ["<", "<<"]) && (← dialect).types then
    again Lexer.readOneAngle
    expect "<"
    let type ← anyType g
    expect ">"
    let e ← g .unary
    return .other (← spanFrom start) [type, e]
  else update g

/-- How tightly a binary operator binds. -/
def level? (t : Token) : Option Nat :=
  if t.is "??" then some 3
  else if t.is "||" then some 4
  else if t.is "&&" then some 5
  else if t.is "|" then some 6
  else if t.is "^" then some 7
  else if t.is "&" then some 8
  else if t.isAny ["==", "!=", "===", "!=="] then some 9
  else if t.isAny ["<", ">", "<=", ">=", "in", "instanceof", "as", "satisfies"] then some 10
  else if t.isAny ["<<", ">>", ">>>"] then some 11
  else if t.isAny ["+", "-"] then some 12
  else if t.isAny ["*", "/", "%"] then some 13
  else if t.is "**" then some 14
  else none

/-- Operands joined by operators that bind tighter than `low`. -/
def binary (low : Nat) : Parser Node := do
  let start ← offset
  let prefixed ← if ← seesAny unaryOperators then pure true else seesAwait
  let first ← match (← token).lexeme with
    | .privateName _ => do
      let t ← token
      advance
      if !(← sees "in") then unexpected
      pure (Node.other t.span [])
    | _ => g .unary
  repeatFrom first fun left => do
    if ← sees ">" then again Lexer.readAngles
    let t ← token
    match level? t with
    | none => return .inr left
    | some level =>
      let tighter := if t.is "**" then low ≤ level else low < level
      if !tighter then return .inr left
      if t.is "in" && !(← scope).inOperator then return .inr left
      if t.isAny ["as", "satisfies"] then
        if t.newline then return .inr left
        advance
        let type ← if ← sees "const" then do
            let u ← token
            advance
            pure (Node.other u.span [])
          else g .type
        let span ← spanFrom start
        if !(← dialect).types then note start
        return .inl (.wrapped span left [type])
      if t.is "**" && prefixed && left.span == first.span then note start
      advance
      let right ← g (.binary level)
      let span ← spanFrom start
      if t.isAny ["&&", "||"] then modify fun s => { s with logical := some span }
      if t.is "??" then
        let mixed := (← get).logical
        if mixed == some left.span || mixed == some right.span then note start
      return .inl (.other span [left, right])

/-- How sure it is that an arrow function begins. -/
inductive Likelihood where
  | certain
  | possible
  | impossible
  deriving DecidableEq

/-- Looks at the first tokens of what may be an arrow function with its parameters in
parentheses. -/
def arrowLikelihood : Parser Likelihood := fun s =>
  let look : Parser Likelihood := do
    if ← eat "async" then
      let t ← token
      if t.newline || !t.isAny ["(", "<"] then return .impossible
    let first ← token
    advance
    let second ← token
    if first.is "(" then
      if second.is ")" then
        advance
        if ← seesAny ["=>", ":", lbrace] then return .certain else return .impossible
      else if second.isAny ["[", lbrace] then return .possible
      else if second.is "..." then
        advance
        if (← token).isName then return .certain else return .possible
      else
        advance
        let third ← token
        if second.isAny (parameterModifiers ++ ["static", "abstract", "declare", "accessor"]) &&
            third.isName then
          return if third.is "as" then .impossible else .certain
        if !second.isName && !second.is "this" then return .impossible
        if third.is ":" then return .certain
        if third.is "?" then
          advance
          if ← seesAny [":", ",", "=", ")"] then return .certain else return .impossible
        if third.isAny [",", "=", ")"] then return .possible
        return .impossible
    else if !(← dialect).types then return .impossible
    else
      if !second.isName && !second.is "const" then return .impossible
      if !(← dialect).markup then return .possible
      advance
      if second.is "const" then advance
      if ← eat "extends" then
        if ← seesAny ["=", ">", "/"] then return .impossible else return .certain
      if ← seesAny [",", "="] then return .certain else return .impossible
  match look s with
  | .ok (answer, _) => .ok (answer, s)
  | .error _ => .ok (.impossible, s)

/-- The part of an arrow function up to `=>`, and whether it names a result type. -/
def arrowHead (isAsync : Bool) : Parser (List Node × Bool) := do
  let generics ← typeParameters g
  let ps ← within
    (fun s => { s with awaits := s.awaits || isAsync, inOperator := true, decorator := false })
    (parameters g)
  let result ← typedResult g
  if (← token).newline then unexpected
  expect "=>"
  return (generics ++ ps ++ result, !result.isEmpty)

/-- The part of an arrow function after `=>`. -/
def arrowBody (isAsync arrowType : Bool) : Parser (List Node) :=
  within (fun s => { s with awaits := s.awaits || isAsync, yields := false }) do
    if ← sees lbrace then
      within (fun s => { s with returns := true, inOperator := true, decorator := false }) (block g)
    else return [← g (.assignment arrowType)]

/-- An arrow function with its parameters in parentheses, if one begins here. -/
def arrowInParentheses (arrowType : Bool) : Parser (Option Node) := do
  if !(← seesAny ["(", "<", "async"]) then return none
  let start ← offset
  let whole (body : Bool) : Parser (List Node × Bool) := do
    let isAsync ← eat "async"
    let (head, typed) ← arrowHead g isAsync
    if body then
      let rest ← arrowBody g isAsync arrowType
      return (head ++ rest, typed)
    else return (head, typed)
  match ← arrowLikelihood with
  | .impossible => return none
  | .certain =>
    let (parts, _) ← whole true
    return some (.arrow (← spanFrom start) parts)
  | .possible =>
    let before ← get
    match ← attempt (whole false) with
    | none => return none
    | some _ =>
      set before
      let (parts, typed) ← whole true
      if !arrowType && typed && !(← sees ":") then
        set before
        return none
      return some (.arrow (← spanFrom start) parts)

/-- Whether `async name =>` begins here. -/
def seesAsyncArrow : Parser Bool :=
  ahead do
    if !(← eat "async") then return false
    let t ← token
    if !t.isName || t.newline then return false
    advance
    return (← sees "=>") && !(← token).newline

def assignmentOperators : List String :=
  ["=", "+=", "-=", "*=", "/=", "%=", "**=", "<<=", ">>=", ">>>=", "&=", "|=", "^=", "&&=", "||=",
   "??="]

/-- Takes what was read for the target of an assignment. -/
def target (e : Node) (simple : Bool) : Parser Node := do
  if let some fault := if simple then e.simpleFault? else e.targetFault? then stop fault
  let span := e.span
  modify fun s =>
    { s with covered := s.covered.filter fun n => !(span.start ≤ n && n < span.stop) }
  return e.asTarget

/-- `test ? yes : no` after the test. -/
def conditional (start : Nat) (test : Node) (arrowType : Bool) : Parser Node := do
  if ← eat "?" then
    let yes ← within (fun s => { s with inOperator := true, decorator := false })
      (g (.assignment false))
    expect ":"
    let no ← g (.assignment arrowType)
    return .other (← spanFrom start) [test, yes, no]
  else return test

/-- `yield`, with what it yields. -/
def yieldExpression : Parser Node := do
  let start ← offset
  expect "yield"
  let t ← token
  if t.newline then return .other (← spanFrom start) []
  if ← eat "*" then
    let e ← g (.assignment true)
    return .other (← spanFrom start) [e]
  if t.isAny [")", "]", rbrace, ",", ";", ":", "in"] || t.lexeme == .finish then
    return .other (← spanFrom start) []
  let e ← g (.assignment true)
  return .other (← spanFrom start) [e]

def assignment (arrowType : Bool) : Parser Node := do
  let start ← offset
  if (← sees "yield") && (← scope).yields then yieldExpression g
  else
    match ← arrowInParentheses g arrowType with
    | some arrow => return arrow
    | none =>
      if ← seesAsyncArrow then
        advance
        let _ ← bindingName
        expect "=>"
        let parts ← arrowBody g true arrowType
        return .arrow (← spanFrom start) parts
      let left ← g (.binary 0)
      let t ← token
      let isName := match left with
        | .reference .. => true
        | _ => false
      if isName && t.is "=>" then
        if t.newline then unexpected
        advance
        let parts ← arrowBody g false arrowType
        return .arrow (← spanFrom start) parts
      if t.isAny assignmentOperators then
        let left ← target left (!t.is "=")
        advance
        let right ← g (.assignment arrowType)
        return .assign (← spanFrom start) left right
      conditional g start left arrowType

def expression : Parser Node := do
  let start ← offset
  let first ← g (.assignment true)
  if !(← sees ",") then return first
  let rest ← many (sees ",") do
    advance
    g (.assignment true)
  return .other (← spanFrom start) (first :: rest)

end Parser

end Codemod

import Codemod.Syntax.Lexer
import Codemod.Syntax.Node

/-!
# Codemod.Syntax.Parser.Basic

The parser's state and its elementary steps.

A parser looks at one token at a time. It either succeeds, perhaps having noted a fault and gone
on, or stops with the offset that is to be reported: a fault in a token comes before every fault
in the grammar, and of each kind the first one noted counts.

* `attempt` tries a parser and goes back to where it began when that stops.
* `ahead` looks at what follows without moving.
* `repeatFrom` is the only loop. Its bound, `State.budget`, exceeds the number of tokens.
-/

namespace Codemod

/-- What the grammar allows at a place. -/
structure Scope where
  /-- `in` is an operator. -/
  inOperator : Bool
  /-- `yield` is an operator. -/
  yields : Bool
  /-- `await` is an operator. -/
  awaits : Bool
  /-- `return` may stand here. -/
  returns : Bool
  /-- The expression of a decorator ends before `[`. -/
  decorator : Bool
  /-- Declarations need no values. -/
  ambient : Bool
  /-- A type ends before `extends`. -/
  noConditional : Bool
  deriving Inhabited

namespace Parser

structure State where
  dialect : Dialect
  /-- Bounds every loop. -/
  budget : Nat
  scope : Scope
  token : Token
  /-- The text from the current token on. -/
  here : Text
  /-- The text after the current token. -/
  rest : Text
  /-- Where the token before the current one ends. -/
  lastStop : Nat
  tokenFault : Option Nat
  grammarFault : Option Nat
  /-- Places where `name = value` stands in an object that is no pattern so far. -/
  covered : List Nat
  /-- Where the last expression joined by `&&` or `||` is. -/
  logical : Option Span
  /-- The first comment of the text, and where it begins. -/
  comment : Option (Nat × Text)
  deriving Inhabited

end Parser

abbrev Parser := StateT Parser.State (Except Nat)

namespace Parser

/-- `{` -/
def lbrace : String := "\x7b"

/-- `}` -/
def rbrace : String := "\x7d"

/-- Where a text begins whose first comment says that it is written for another type checker,
in a language that is no dialect of ours. -/
def foreignMark (s : State) : Option Nat :=
  match s.comment with
  | some (offset, text) =>
    if !s.dialect.types && Text.holds "@flow".toList text then some offset else none
  | none => none

/-- Stops. An earlier fault is reported rather than this one, and a text in a foreign language is
reported as that. -/
def stop {α : Type} (offset : Nat) : Parser α := fun s =>
  .error (((foreignMark s <|> s.tokenFault) <|> s.grammarFault).getD offset)

/-- Notes a fault and goes on. -/
def note (offset : Nat) : Parser Unit :=
  modify fun s => { s with grammarFault := s.grammarFault <|> some offset }

def token : Parser Token := do
  return (← get).token

def dialect : Parser Dialect := do
  return (← get).dialect

def scope : Parser Scope := do
  return (← get).scope

def sees (s : String) : Parser Bool := do
  return (← token).is s

def seesAny (ss : List String) : Parser Bool := do
  return (← token).isAny ss

/-- Whether the text has ended. -/
def seesEnd : Parser Bool := do
  return (← token).lexeme == .finish

/-- Where the current token begins. -/
def offset : Parser Nat := do
  return (← token).span.start

/-- From `start` to the end of the token before the current one. -/
def spanFrom (start : Nat) : Parser Span := do
  return ⟨start, (← get).lastStop⟩

/-- Makes a reading the current token. -/
def take (r : Reading) : Parser Unit :=
  modify fun s =>
    { s with
      token := r.token
      here := r.here
      rest := r.rest
      tokenFault := s.tokenFault <|> r.fault
      comment := s.comment <|> r.comment }

/-- Goes on to the next token, read in the given way. -/
def advanceWith (reader : Nat → Text → Reading) : Parser Unit := do
  let s ← get
  set { s with lastStop := s.token.span.stop }
  take (reader s.token.span.stop s.rest)

def advance : Parser Unit :=
  advanceWith Lexer.read

/-- Reads the current token again, in another way. -/
def again (reader : Token → Text → Reading) : Parser Unit := do
  let s ← get
  take (reader s.token s.here)

def unexpected {α : Type} : Parser α := do
  stop (← offset)

def eat (s : String) : Parser Bool := do
  if ← sees s then
    advance
    return true
  else return false

def expect (s : String) : Parser Unit := do
  if ← sees s then advance else unexpected

/-- Whether a statement may end here without `;`. -/
def mayEnd : Parser Bool := do
  let t ← token
  return t.isAny [";", rbrace] || t.lexeme == .finish || t.newline

/-- The end of a statement: `;`, or nothing where that is allowed. -/
def terminator : Parser Unit := do
  if ← eat ";" then return
  if ← mayEnd then return
  stop (← get).lastStop

/-- Runs a parser; where it stops, goes back to the beginning. -/
def attempt {α : Type} (p : Parser α) : Parser (Option α) := fun s =>
  match p s with
  | .ok (a, t) => .ok (some a, t)
  | .error _ => .ok (none, s)

/-- Answers a question about what follows, without moving. -/
def ahead (p : Parser Bool) : Parser Bool := fun s =>
  match p s with
  | .ok (a, _) => .ok (a, s)
  | .error _ => .ok (false, s)

/-- Whether the token after the current one is such. -/
def next (p : Token → Bool) : Parser Bool :=
  ahead do
    advance
    return p (← token)

/-- Runs a parser in a changed scope. -/
def within {α : Type} (change : Scope → Scope) (p : Parser α) : Parser α := do
  let old ← scope
  modify fun s => { s with scope := change s.scope }
  let a ← p
  modify fun s => { s with scope := old }
  return a

def loop {σ α : Type} (step : σ → Parser (σ ⊕ α)) : Nat → σ → Parser α
  | 0, _ => unexpected
  | n + 1, x => do
    match ← step x with
    | .inl y => loop step n y
    | .inr a => return a

/-- Repeats a step from a first value until it answers a result. -/
def repeatFrom {σ α : Type} (x : σ) (step : σ → Parser (σ ⊕ α)) : Parser α := do
  loop step (← get).budget x

/-- Items one after another for as long as `more` holds. -/
def many {α : Type} (more : Parser Bool) (item : Parser α) : Parser (List α) :=
  repeatFrom [] fun items => do
    if ← more then return .inl ((← item) :: items) else return .inr items.reverse

/-- Items until a closing symbol, which is left in place. -/
def itemsUntil {α : Type} (close : String) (item : Parser α) : Parser (List α) :=
  many (do return !(← sees close) && !(← seesEnd)) item

/-- Items with commas between them, up to a closing symbol that is left in place. A comma may
follow the last item. -/
def separated {α : Type} (close : String) (item : Parser α) : Parser (List α) :=
  repeatFrom [] fun items => do
    if ← sees close then return .inr items.reverse
    let a ← item
    if !(← sees close) then expect ","
    return .inl (a :: items)

end Parser

/-- The parts of the grammar that occur inside each other. -/
inductive Nonterminal where
  /-- An expression, commas included. -/
  | expression
  /-- An expression without commas. Where `arrowType` is false, an arrow function with a result
  type has to be followed by `:`. -/
  | assignment (arrowType : Bool)
  /-- Operands joined by operators that bind tighter than `level`. -/
  | binary (level : Nat)
  | unary
  /-- An operand with member accesses and calls. -/
  | operand
  /-- What `new` applies to. -/
  | callee
  /-- A statement; `single` where a block would be needed to hold a declaration. -/
  | statement (single : Bool)
  | type
  /-- The pattern of a binding. -/
  | pattern
  /-- A markup element or fragment after its `<`. -/
  | markup (start : Nat) (inside : Bool)

/-- The grammar, as far as it is unfolded. -/
abbrev Grammar := Nonterminal → Parser Node

end Codemod

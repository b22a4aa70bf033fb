import Codemod.Syntax.Parser.Statement

/-!
# Codemod.Syntax.Parser

Parsing a whole module.

The grammar is unfolded to a depth that exceeds every nesting its text can have: each unfolding
either reads a token or leads to a nonterminal further down in a fixed, short order.

* `Program.parse` reads a module in one dialect; on failure it answers the offset to report.
* `Dialect.forPath` lists the dialects to try for a file.
-/

namespace Codemod

namespace Parser

/-- One unfolding of the grammar. -/
def unfold (g : Grammar) : Nonterminal → Parser Node
  | .expression => expression g
  | .assignment arrowType => assignment g arrowType
  | .binary low => binary g low
  | .unary => unary g
  | .operand => operand g
  | .callee => callee g
  | .statement single => statement g single
  | .type => type g
  | .pattern => pattern g
  | .markup start inside => markup g start inside

/-- The grammar, unfolded `depth` times. -/
def grammar : (depth : Nat) → Nonterminal → State → Except Nat (Node × State)
  | 0, _, s => unexpected s
  | depth + 1, n, s => unfold (grammar depth) n s

/-- The statements of a module up to the end of the text. -/
def statements (g : Grammar) : Parser (List Node) :=
  many (do return !(← seesEnd)) (g (.statement false))

/-- Whether a statement is nothing but a string, written without parentheses. -/
def isDirective : Node → Bool
  | .statement span (.string s _) => span.start == s.start
  | _ => false

/-- The scope at the top of a module. -/
def topScope : Scope :=
  { inOperator := true, yields := false, awaits := true, returns := false, decorator := false,
    ambient := false, noConditional := false }

/-- What is left after a first line that names an interpreter. -/
def skipInterpreter (source : Text) : Nat × Text :=
  match source with
  | '#' :: '!' :: cs =>
    let line : Text := cs.takeWhile fun c => !Lexer.isBreak c
    (line.size + 2, cs.dropWhile fun c => !Lexer.isBreak c)
  | _ => (0, source)

/-- The state before the first token is read. -/
def start (dialect : Dialect) (source : Text) : State :=
  let (offset, text) := skipInterpreter source
  { dialect
    budget := source.length + 2
    scope := topScope
    token := ⟨.finish, ⟨offset, offset⟩, false⟩
    here := text
    rest := text
    lastStop := offset
    tokenFault := none
    grammarFault := none
    covered := []
    logical := none
    comment := none }

/-- Reads a module and answers its statements, or stops where the first fault is. -/
def module (depth : Nat) : Parser (List Node) := do
  advance
  let body ← statements (grammar depth)
  let s ← get
  match (s.tokenFault <|> s.grammarFault) <|> s.covered.getLast? with
  | some fault => stop fault
  | none => return body

end Parser

namespace Program

/-- Parses a module in one dialect; on failure answers the offset to report. -/
def parseIn (dialect : Dialect) (source : Text) : Except Nat Program :=
  match Parser.module (16 * (source.length + 4)) (Parser.start dialect source) with
  | .ok (body, _) =>
    .ok ⟨body.takeWhile Parser.isDirective, body.dropWhile Parser.isDirective⟩
  | .error offset => .error offset

end Program

end Codemod

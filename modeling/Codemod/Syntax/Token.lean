import Codemod.Text.Position

/-!
# Codemod.Syntax.Token

The lexical elements of a script, with the place where each was read.

Keywords are words: whether `async` or `type` is a keyword depends on where it stands, so that is
for the grammar to say.
-/

namespace Codemod

/-- What the language of a module allows beyond plain scripts. -/
structure Dialect where
  types : Bool
  markup : Bool
  deriving DecidableEq, Repr, Inhabited

inductive Lexeme where
  /-- Punctuation and operators. -/
  | symbol (text : String)
  /-- A name or keyword; `escaped` when it was written with escape sequences. -/
  | word (name : String) (escaped : Bool)
  /-- `#name` -/
  | privateName (name : String)
  | number
  | string (value : String)
  /-- A stretch of template text: its meaning, and whether the template ends with it. -/
  | template (cooked : Option String) (closed : Bool)
  | regex
  | markupText
  /-- Text that is no lexical element. -/
  | broken
  /-- The end of the text. -/
  | finish
  deriving DecidableEq, Repr, Inhabited

structure Token where
  lexeme : Lexeme
  span : Span
  /-- Whether a line break stands between the token before and this one. -/
  newline : Bool
  deriving DecidableEq, Repr, Inhabited

namespace Token

/-- Whether the token is this punctuation or this word, spelled without escapes. -/
def is (t : Token) (s : String) : Bool :=
  match t.lexeme with
  | .symbol x => x == s
  | .word x escaped => x == s && !escaped
  | _ => false

def isAny (t : Token) (ss : List String) : Bool :=
  ss.any t.is

/-- Whether the token is any name, keywords included. -/
def isWord (t : Token) : Bool :=
  match t.lexeme with
  | .word .. => true
  | _ => false

end Token

/-- Words that can never name a binding. -/
def reservedWords : List String :=
  ["break", "case", "catch", "class", "const", "continue", "debugger", "default", "delete", "do",
   "else", "enum", "export", "extends", "false", "finally", "for", "function", "if", "import",
   "in", "instanceof", "new", "null", "return", "super", "switch", "this", "throw", "true", "try",
   "typeof", "var", "void", "while", "with"]

namespace Token

/-- Whether the token can name a binding. -/
def isName (t : Token) : Bool :=
  match t.lexeme with
  | .word name _ => !reservedWords.contains name
  | _ => false

end Token

end Codemod

import Codemod.Text.Ranges
import Codemod.Syntax.Token
import Codemod.Syntax.Escape

/-!
# Codemod.Syntax.Lexer

Reading one token at a time.

Which token stands at a place depends on the grammar around it (a `/` divides or begins a regular
expression), so there is one reader for the ordinary case and one for each place where the grammar
asks for another reading. Each answers a `Reading`: the token, the text from it on, the text after
it, and what went wrong on the way.

* `read` skips blanks and comments and reads an ordinary token; `>` is always read alone.
* `readRegex`, `readTemplateRest`, `readAngles` read again at a token that begins otherwise.
* `readMarkupChild`, `readMarkupName`, `readMarkupString` read inside markup.
-/

namespace Codemod

/-- A token as it was read at some place of a text. -/
structure Reading where
  token : Token
  /-- The text from the token on. -/
  here : Text
  /-- The text after the token. -/
  rest : Text
  /-- Where the text breaks the rules for tokens. -/
  fault : Option Nat := none
  /-- The first comment that was skipped, and where it begins. -/
  comment : Option (Nat × Text) := none
  deriving Inhabited

namespace Lexer

/-- Blanks between tokens that do not end a line. -/
def isGap (c : Char) : Bool :=
  let n := c.toNat
  n == 0x20 || n == 0x9 || n == 0xB || n == 0xC || n == 0xA0 || n == 0xFEFF || n == 0x85 ||
    n == 0x1680 || n == 0x180E || (0x2000 ≤ n && n ≤ 0x200B) || n == 0x202F || n == 0x205F ||
    n == 0x3000

def isBreak (c : Char) : Bool :=
  let n := c.toNat
  n == 0xA || n == 0xD || n == 0x2028 || n == 0x2029

def isNameStart (c : Char) : Bool :=
  c.isAlpha || c == '$' || c == '_' || (0x80 ≤ c.toNat && inRanges c.toNat letterRanges)

def isNamePart (c : Char) : Bool :=
  c.isAlphanum || c == '$' || c == '_' ||
    (0x80 ≤ c.toNat && (inRanges c.toNat letterRanges || inRanges c.toNat markRanges))

/-- What is being skipped between two tokens. -/
inductive Gap where
  | blank
  | line
  | block

structure Skipped where
  rest : Text
  offset : Nat
  newline : Bool
  comment : Option Span
  fault : Option Nat

/-- Skips blanks and comments. `began` is where the comment being skipped began. -/
def skip (newline : Bool) (comment : Option Span) :
    Gap → (began offset : Nat) → Text → Skipped
  | .blank, _, offset, '/' :: '/' :: cs => skip newline comment .line offset (offset + 2) cs
  | .blank, _, offset, '/' :: '*' :: cs => skip newline comment .block offset (offset + 2) cs
  | .blank, began, offset, c :: cs =>
    if isBreak c then skip true comment .blank began (offset + c.utf8Size) cs
    else if isGap c then skip newline comment .blank began (offset + c.utf8Size) cs
    else ⟨c :: cs, offset, newline, comment, none⟩
  | .blank, _, offset, [] => ⟨[], offset, newline, comment, none⟩
  | .line, began, offset, c :: cs =>
    if isBreak c then
      skip true (comment <|> some ⟨began, offset⟩) .blank 0 (offset + c.utf8Size) cs
    else skip newline comment .line began (offset + c.utf8Size) cs
  | .line, began, offset, [] => ⟨[], offset, newline, comment <|> some ⟨began, offset⟩, none⟩
  | .block, began, offset, '*' :: '/' :: cs =>
    skip newline (comment <|> some ⟨began, offset + 2⟩) .blank 0 (offset + 2) cs
  | .block, began, offset, c :: cs =>
    skip (newline || isBreak c) comment .block began (offset + c.utf8Size) cs
  | .block, began, offset, [] => ⟨[], offset, newline, comment, some began⟩

/-- Reads on in a name that has escape sequences in it. -/
def escapedName : Nat → Text → Text × Text
  | fuel + 1, '\\' :: 'u' :: cs =>
    match unicodeEscape? cs with
    | some (n, rest) =>
      let (name, rest) := escapedName fuel rest
      (charOf n :: name, rest)
    | none => ([], '\\' :: 'u' :: cs)
  | fuel + 1, c :: cs =>
    if isNamePart c then
      let (name, rest) := escapedName fuel cs
      (c :: name, rest)
    else ([], c :: cs)
  | _, cs => ([], cs)

/-- A name at the beginning of the text. -/
structure NameReading where
  name : String
  escaped : Bool
  size : Nat
  rest : Text

def readName (text : Text) : NameReading :=
  let plain : Text := text.takeWhile isNamePart
  match text.dropWhile isNamePart with
  | '\\' :: cs =>
    let (more, rest) := escapedName (cs.length + 1) ('\\' :: cs)
    ⟨String.ofList (plain ++ more), true, text.size - rest.size, rest⟩
  | rest => ⟨String.ofList plain, false, plain.size, rest⟩

/-- The text up to an unescaped closing quote on the same line, and the text after the quote. -/
def stringBody (quote : Char) : Text → Option (Text × Text)
  | [] => none
  | '\\' :: '\r' :: '\n' :: cs =>
    (stringBody quote cs).map fun (raw, rest) => ('\\' :: '\r' :: '\n' :: raw, rest)
  | '\\' :: c :: cs => (stringBody quote cs).map fun (raw, rest) => ('\\' :: c :: raw, rest)
  | c :: cs =>
    if c == quote then some ([], cs)
    else if c == '\n' || c == '\r' then none
    else (stringBody quote cs).map fun (raw, rest) => (c :: raw, rest)

/-- Template text up to a substitution or the closing quote, and which of the two it is. -/
def templateBody : Text → Option (Text × Bool × Text)
  | [] => none
  | '\\' :: c :: cs => (templateBody cs).map fun (raw, closed, rest) => ('\\' :: c :: raw, closed, rest)
  | '$' :: '{' :: cs => some ([], false, cs)
  | c :: cs =>
    if c.toNat == 0x60 then some ([], true, cs)
    else (templateBody cs).map fun (raw, closed, rest) => (c :: raw, closed, rest)

/-- The body of a regular expression up to its closing slash. -/
def regexBody (inClass : Bool) : Text → Option (Text × Text)
  | [] => none
  | '\\' :: c :: cs =>
    if isBreak c then none
    else (regexBody inClass cs).map fun (raw, rest) => ('\\' :: c :: raw, rest)
  | c :: cs =>
    if isBreak c then none
    else if c == '/' && !inClass then some ([], cs)
    else
      let inside := if c == '[' then true else if c == ']' then false else inClass
      (regexBody inside cs).map fun (raw, rest) => (c :: raw, rest)

/-- A number, or a part of one: how many characters it has, the text after it, and the place of the
first fault in it, counted from its beginning. -/
structure NumberReading where
  size : Nat
  rest : Text
  fault : Option Nat

namespace NumberReading

/-- Goes on with one more character. -/
def skip (r : NumberReading) : NumberReading :=
  { r with size := r.size + 1, rest := r.rest.drop 1 }

/-- Notes a fault at the present place. -/
def blame (r : NumberReading) : NumberReading :=
  { r with fault := r.fault <|> some r.size }

/-- The digits after a first one. A `_` has to stand between two digits. -/
def digits (isDigit : Char → Bool) (size : Nat) : Text → NumberReading
  | [] => ⟨size, [], none⟩
  | '_' :: d :: cs =>
    if isDigit d then digits isDigit (size + 2) cs else ⟨size + 1, d :: cs, some (size + 1)⟩
  | '_' :: [] => ⟨size + 1, [], some (size + 1)⟩
  | c :: cs => if isDigit c then digits isDigit (size + 1) cs else ⟨size, c :: cs, none⟩

/-- Goes on with digits after a first one. -/
def more (isDigit : Char → Bool) (r : NumberReading) : NumberReading :=
  let next := digits isDigit r.size r.rest
  { next with fault := r.fault <|> next.fault }

/-- Goes on with at least one digit. -/
def oneOrMore (isDigit : Char → Bool) (r : NumberReading) : NumberReading :=
  if r.rest.head?.any isDigit then r.skip.more isDigit else r.blame

/-- Goes on with an exponent, if there is one. -/
def exponent (r : NumberReading) : NumberReading :=
  if r.rest.head?.any fun c => c == 'e' || c == 'E' then
    let r := r.skip
    (if r.rest.head?.any fun c => c == '+' || c == '-' then r.skip else r).oneOrMore Char.isDigit
  else r

/-- Goes on with a fraction after its point, and an exponent. -/
def fraction (r : NumberReading) : NumberReading :=
  (if r.rest.head?.any Char.isDigit then r.skip.more Char.isDigit else r).exponent

/-- No name and no digit may follow a number directly. -/
def close (r : NumberReading) : NumberReading :=
  if r.rest.head?.any fun c => c.isDigit || isNameStart c then r.blame else r

/-- Goes on after `0x`, `0o` or `0b`. -/
def based (isDigit : Char → Bool) (r : NumberReading) : NumberReading :=
  let r := r.oneOrMore isDigit
  (if r.rest.head? == some 'n' then r.skip else r).close

/-- Goes on after `0` with digits that make the number octal, unless one of them is too large. -/
def leadingZero (r : NumberReading) : NumberReading :=
  let octal := (r.rest.takeWhile Char.isDigit).all fun c => (octalDigit? c).isSome
  let r : NumberReading :=
    ⟨r.size + (r.rest.takeWhile Char.isDigit).length, r.rest.dropWhile Char.isDigit, r.fault⟩
  match r.rest with
  | '.' :: _ => if octal then r.close else r.skip.fraction.close
  | 'e' :: _ => if octal then r.close else r.exponent.close
  | _ => r.close

/-- A number that begins with the first character of the text. -/
def read (text : Text) : NumberReading :=
  let r := skip ⟨0, text, none⟩
  match text with
  | '.' :: _ => (r.oneOrMore Char.isDigit).exponent.close
  | '0' :: x :: _ =>
    if x == 'x' || x == 'X' then r.skip.based fun c => (hexDigit? c).isSome
    else if x == 'o' || x == 'O' then r.skip.based fun c => (octalDigit? c).isSome
    else if x == 'b' || x == 'B' then r.skip.based fun c => c == '0' || c == '1'
    else if x.isDigit then r.leadingZero
    else if x == '.' then r.skip.fraction.close
    else if x == 'n' then r.skip.close
    else r.exponent.close
  | _ =>
    let r := r.more Char.isDigit
    match r.rest with
    | '.' :: _ => r.skip.fraction.close
    | 'n' :: _ => r.skip.close
    | _ => r.exponent.close

end NumberReading

/-- Punctuation, longer symbols before their own beginnings. -/
def symbols : List (List Char × String) :=
  ["...", "===", "!==", "**=", "<<=", "&&=", "||=", "??=", "=>", "==", "!=", "<=", "++", "--",
   "<<", "&&", "||", "??", "?.", "+=", "-=", "*=", "/=", "%=", "&=", "|=", "^=", "**", "\x7b",
   "\x7d", "(", ")", "[", "]", ";", ",", "<", ">", "+", "-", "*", "/", "%", "&", "|", "^", "!",
   "~", "?", ":", "=", ".", "@"].map fun s => (s.toList, s)

/-- The longest symbol at the beginning of the text. `a?.5:b` has no `?.` in it. -/
def symbol? (text : Text) : Option String :=
  match text with
  | '?' :: '.' :: c :: _ => if c.isDigit then some "?" else longest
  | _ => longest
where
  longest : Option String := (symbols.find? fun (s, _) => s.isPrefixOf text).map (·.2)

/-- Reads the token that begins with the first character of a nonempty text. -/
def tokenAt (newline : Bool) (offset : Nat) (text : Text) : Reading :=
  let make (lexeme : Lexeme) (rest : Text) (size : Nat) (fault : Option Nat) : Reading :=
    { token := ⟨lexeme, ⟨offset, offset + size⟩, newline⟩, here := text, rest, fault }
  match text with
  | [] => make .finish [] 0 none
  | c :: cs =>
    if isNameStart c || c == '\\' then
      let r := readName text
      if r.name.isEmpty then make .broken cs c.utf8Size (some (offset + 1))
      else make (.word r.name r.escaped) r.rest r.size none
    else if c.isDigit || (c == '.' && cs.head?.any Char.isDigit) then
      let r := NumberReading.read text
      make .number r.rest r.size (r.fault.map (offset + ·))
    else if c == '"' || c == '\'' then
      match stringBody c cs with
      | none => make .broken [] text.size (some offset)
      | some (raw, rest) =>
        let value := (decodeEscapes true raw).getD raw
        let fault := (badEscape? raw).map (offset + 1 + ·)
        make (.string (String.ofList value)) rest (raw.size + 2) fault
    else if c.toNat == 0x60 then
      match templateBody cs with
      | none => make .broken [] text.size (some offset)
      | some (raw, closed, rest) =>
        let cooked := (decodeEscapes false (unifyBreaks raw)).map String.ofList
        make (.template cooked closed) rest (raw.size + if closed then 2 else 3) none
    else if c == '#' then
      if cs.head?.any (fun d => isNameStart d || d == '\\') then
        let r := readName cs
        make (.privateName r.name) r.rest (r.size + 1) none
      else make .broken cs 1 (some (offset + 1))
    else match symbol? text with
      | some s => make (.symbol s) (text.drop s.length) s.length none
      | none => make .broken cs c.utf8Size (some offset)

/-- The first comment of a gap that was skipped from `offset` on. -/
def firstComment (offset : Nat) (text : Text) (gap : Skipped) : Option (Nat × Text) :=
  gap.comment.map fun span =>
    (span.start, text.slice (span.start - offset) (span.stop - offset))

/-- Skips blanks and comments and reads an ordinary token. -/
def read (offset : Nat) (text : Text) : Reading :=
  let gap := skip false none .blank 0 offset text
  let reading := tokenAt gap.newline gap.offset gap.rest
  { reading with fault := gap.fault <|> reading.fault, comment := firstComment offset text gap }

/-- Flags of a regular expression: each known one at most once. Answers the place after a bad one. -/
def badFlag? (offset : Nat) : (seen : List Char) → Text → Option Nat
  | _, [] => none
  | seen, c :: cs =>
    if ['d', 'g', 'i', 'm', 's', 'u', 'v', 'y'].contains c && !seen.contains c then
      badFlag? (offset + c.utf8Size) (c :: seen) cs
    else some (offset + c.utf8Size)

/-- Reads a regular expression at a token that begins with a slash. -/
def readRegex (token : Token) (here : Text) : Reading :=
  let offset := token.span.start
  match regexBody false (here.drop 1) with
  | none =>
    { token := ⟨.broken, ⟨offset, offset + here.size⟩, token.newline⟩, here, rest := [],
      fault := some offset }
  | some (raw, rest) =>
    let flags : Text := rest.takeWhile isNamePart
    let size := raw.size + 2
    { token := ⟨.regex, ⟨offset, offset + size + flags.size⟩, token.newline⟩, here,
      rest := rest.dropWhile isNamePart, fault := badFlag? (offset + size) [] flags }

/-- Reads on in a template at the `}` that ends a substitution. -/
def readTemplateRest (token : Token) (here : Text) : Reading :=
  let offset := token.span.start
  match templateBody (here.drop 1) with
  | none =>
    { token := ⟨.broken, ⟨offset, offset + here.size⟩, token.newline⟩, here, rest := [],
      fault := some offset }
  | some (raw, closed, rest) =>
    let cooked := (decodeEscapes false (unifyBreaks raw)).map String.ofList
    let size := raw.size + if closed then 2 else 3
    { token := ⟨.template cooked closed, ⟨offset, offset + size⟩, token.newline⟩, here, rest }

/-- Reads the longest operator at a token that begins with `>`. -/
def readAngles (token : Token) (here : Text) : Reading :=
  let s := ([">>>=", ">>>", ">>=", ">>", ">="].find? fun s => s.toList.isPrefixOf here).getD ">"
  let start := token.span.start
  { token := ⟨.symbol s, ⟨start, start + s.length⟩, token.newline⟩, here,
    rest := here.drop s.length }

/-- Reads a single `<` at a token that begins with it. -/
def readOneAngle (token : Token) (here : Text) : Reading :=
  let start := token.span.start
  { token := ⟨.symbol "<", ⟨start, start + 1⟩, token.newline⟩, here, rest := here.drop 1 }

/-- Reads what may stand between markup tags: text, `<` or `{`. Text must not hold `>` or `}`,
and has to be followed by one of the other two. -/
def readMarkupChild (offset : Nat) (text : Text) : Reading :=
  match text with
  | [] => { token := ⟨.finish, ⟨offset, offset⟩, false⟩, here := [], rest := [] }
  | c :: cs =>
    if c == '<' then
      { token := ⟨.symbol "<", ⟨offset, offset + 1⟩, false⟩, here := text, rest := cs }
    else if c.toNat == 0x7B then
      { token := ⟨.symbol "\x7b", ⟨offset, offset + 1⟩, false⟩, here := text, rest := cs }
    else
      let plain (d : Char) : Bool := d != '<' && d != '>' && d.toNat != 0x7B && d.toNat != 0x7D
      let body : Text := text.takeWhile plain
      let rest := text.dropWhile plain
      let stop := offset + body.size
      match rest with
      | [] => { token := ⟨.broken, ⟨offset, stop⟩, false⟩, here := text, rest }
      | d :: _ =>
        if d == '<' || d.toNat == 0x7B then
          { token := ⟨.markupText, ⟨offset, stop⟩, false⟩, here := text, rest }
        else
          { token := ⟨.broken, ⟨offset, stop⟩, false⟩, here := text, rest, fault := some stop }

/-- Reads a name in markup, which may have hyphens in it, at a token that is a word. -/
def readMarkupName (token : Token) (here : Text) : Reading :=
  let part (c : Char) : Bool := isNamePart c || c == '-'
  let body : Text := here.takeWhile part
  let start := token.span.start
  { token := ⟨.word (String.ofList body) false, ⟨start, start + body.size⟩, token.newline⟩, here,
    rest := here.dropWhile part }

/-- Reads the value of a markup attribute: a string without escapes that may hold line breaks, or
else an ordinary token. -/
def readMarkupString (offset : Nat) (text : Text) : Reading :=
  let gap := skip false none .blank 0 offset text
  match gap.rest with
  | c :: cs =>
    if c == '"' || c == '\'' then
      let body : Text := cs.takeWhile (· != c)
      let start := gap.offset
      match cs.dropWhile (· != c) with
      | [] =>
        { token := ⟨.broken, ⟨start, start + gap.rest.size⟩, gap.newline⟩, here := gap.rest,
          rest := [], fault := some start, comment := firstComment offset text gap }
      | _ :: rest =>
        { token := ⟨.string (String.ofList body), ⟨start, start + body.size + 2⟩, gap.newline⟩,
          here := gap.rest, rest, fault := gap.fault, comment := firstComment offset text gap }
    else read offset text
  | [] => read offset text

end Lexer

end Codemod

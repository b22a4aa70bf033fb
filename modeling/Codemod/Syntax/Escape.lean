import Codemod.Text.Basic

/-!
# Codemod.Syntax.Escape

The meaning of escape sequences in string and template literals.

`decodeEscapes` reads the text between the quotes. Strings allow octal escapes and templates do
not; a sequence that means nothing makes the whole text meaningless.
-/

namespace Codemod

/-- The value of a hexadecimal digit. -/
def hexDigit? (c : Char) : Option Nat :=
  let n := c.toNat
  if 0x30 ≤ n && n ≤ 0x39 then some (n - 0x30)
  else if 0x41 ≤ n && n ≤ 0x46 then some (n - 0x41 + 10)
  else if 0x61 ≤ n && n ≤ 0x66 then some (n - 0x61 + 10)
  else none

/-- The number that a run of hexadecimal digits denotes. -/
def hexValue? (digits : Text) : Option Nat :=
  if digits.isEmpty then none
  else digits.foldl (fun acc c => do return (← acc) * 16 + (← hexDigit? c)) (some 0)

/-- The code point of `\u` escape text that follows the `u`, and what stands after it. -/
def unicodeEscape? : Text → Option (Nat × Text)
  | '{' :: cs => do
    let digits := cs.takeWhile (· != '}')
    let value ← hexValue? digits
    guard (value ≤ 0x10FFFF)
    match cs.dropWhile (· != '}') with
    | '}' :: rest => some (value, rest)
    | _ => none
  | a :: b :: c :: d :: rest => do return (← hexValue? [a, b, c, d], rest)
  | _ => none

/-- The character with this code; half of a surrogate pair alone has none and is marked. -/
def charOf (n : Nat) : Char :=
  if n.isValidChar then Char.ofNat n else Char.ofNat 0xFFFD

/-- Two halves of a surrogate pair written as two escapes are one character. -/
def pairedEscape? (high : Nat) : Text → Option (Nat × Text)
  | '\\' :: 'u' :: cs => do
    guard (0xD800 ≤ high && high < 0xDC00)
    let (low, rest) ← unicodeEscape? cs
    guard (0xDC00 ≤ low && low < 0xE000)
    some (0x10000 + (high - 0xD800) * 0x400 + (low - 0xDC00), rest)
  | _ => none

def octalDigit? (c : Char) : Option Nat :=
  if '0' ≤ c && c ≤ '7' then some (c.toNat - 0x30) else none

/-- One octal escape: up to three digits, at most 255. -/
def octalEscape? : Text → Option (Nat × Text)
  | [] => none
  | a :: cs => do
    let x ← octalDigit? a
    match cs with
    | b :: ds =>
      match octalDigit? b with
      | none => some (x, cs)
      | some y =>
        match ds with
        | c :: es =>
          match octalDigit? c with
          | some z => if x ≤ 3 then some (x * 64 + y * 8 + z, es) else some (x * 8 + y, ds)
          | none => some (x * 8 + y, ds)
        | [] => some (x * 8 + y, ds)
    | [] => some (x, cs)

/-- What a backslash and the text after it stand for, and the text after the sequence. -/
def escape? (octal : Bool) : Text → Option (Text × Text)
  | [] => none
  | 'n' :: cs => some (['\n'], cs)
  | 't' :: cs => some (['\t'], cs)
  | 'r' :: cs => some (['\r'], cs)
  | 'b' :: cs => some ([Char.ofNat 8], cs)
  | 'f' :: cs => some ([Char.ofNat 12], cs)
  | 'v' :: cs => some ([Char.ofNat 11], cs)
  | '\r' :: '\n' :: cs => some ([], cs)
  | 'x' :: a :: b :: cs => do return ([Char.ofNat (← hexValue? [a, b])], cs)
  | 'x' :: _ => none
  | 'u' :: cs => do
    let (n, rest) ← unicodeEscape? cs
    match pairedEscape? n rest with
    | some (m, rest) => some ([charOf m], rest)
    | none => some ([charOf n], rest)
  | c :: cs =>
    if c == '\n' || c == '\r' || c.toNat == 0x2028 || c.toNat == 0x2029 then some ([], cs)
    else if c.isDigit then
      match c == '0', cs.head?.any Char.isDigit with
      | true, false => some ([Char.ofNat 0], cs)
      | _, _ =>
        if !octal then none
        else match octalEscape? (c :: cs) with
          | some (n, rest) => some ([Char.ofNat n], rest)
          | none => some ([c], cs)
    else some ([c], cs)

/-- Reads escape sequences for at most `fuel` steps. -/
def decodeWithin (octal : Bool) : Nat → Text → Option Text
  | _, [] => some []
  | 0, _ => none
  | fuel + 1, '\\' :: cs => do
    let (meaning, rest) ← escape? octal cs
    return meaning ++ (← decodeWithin octal fuel rest)
  | fuel + 1, c :: cs => do return c :: (← decodeWithin octal fuel cs)

/-- The meaning of the text between two quotes. -/
def decodeEscapes (octal : Bool) (raw : Text) : Option Text :=
  decodeWithin octal raw.length raw

def badEscapeWithin (raw : Text) : Nat → Text → Option Nat
  | fuel + 1, '\\' :: cs =>
    match escape? true cs with
    | some (_, rest) => badEscapeWithin raw fuel rest
    | none => some (raw.size - Text.size cs - 1)
  | fuel + 1, _ :: cs => badEscapeWithin raw fuel cs
  | _, _ => none

/-- Where the first escape sequence of a string's text begins that means nothing. -/
def badEscape? (raw : Text) : Option Nat :=
  badEscapeWithin raw raw.length raw

/-- In template text every line break counts as a line feed. -/
def unifyBreaks : Text → Text
  | '\r' :: '\n' :: cs => '\n' :: unifyBreaks cs
  | '\r' :: cs => '\n' :: unifyBreaks cs
  | c :: cs => c :: unifyBreaks cs
  | [] => []

end Codemod

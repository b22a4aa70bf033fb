import Codemod.Json.Value
import Codemod.Syntax.Escape

/-!
# Codemod.Json.Parser

Reading JSON text.

* `Json.parse?` reads one value and nothing after it.
* `Json.read?` also asks that the value be sound: at most 127 arrays and objects inside each
  other, numbers within the range of floats, and no broken surrogate pairs.
-/

namespace Codemod

namespace Json

def skipBlanks (text : Text) : Text :=
  text.dropWhile fun c => c == ' ' || c == '\t' || c == '\n' || c == '\r'

/-- The text between quotes up to the closing one, escapes still in it. -/
def stringBody : Text → Option (Text × Text)
  | [] => none
  | '"' :: cs => some ([], cs)
  | '\\' :: c :: cs => (stringBody cs).map fun (raw, rest) => ('\\' :: c :: raw, rest)
  | c :: cs =>
    if c.toNat < 0x20 then none else (stringBody cs).map fun (raw, rest) => (c :: raw, rest)

/-- Whether every backslash begins a known escape sequence. -/
def escapesKnown : Text → Bool
  | [] => true
  | '\\' :: 'u' :: a :: b :: c :: d :: cs =>
    (hexValue? [a, b, c, d]).isSome && escapesKnown cs
  | '\\' :: c :: cs =>
    ['"', '\\', '/', 'b', 'f', 'n', 'r', 't'].contains c && escapesKnown cs
  | '\\' :: [] => false
  | _ :: cs => escapesKnown cs

/-- The meaning of a string's text, unless it has half a surrogate pair in it. -/
def stringValue : Nat → Text → Option Text
  | _, [] => some []
  | 0, _ => none
  | fuel + 1, '\\' :: 'u' :: a :: b :: c :: d :: cs => do
    let n ← hexValue? [a, b, c, d]
    if n.isValidChar then return Char.ofNat n :: (← stringValue fuel cs)
    else
      let (m, rest) ← pairedEscape? n cs
      return charOf m :: (← stringValue fuel rest)
  | fuel + 1, '\\' :: c :: cs => do
    let d := if c == 'b' then Char.ofNat 8 else if c == 'f' then Char.ofNat 12
      else if c == 'n' then '\n' else if c == 'r' then '\r' else if c == 't' then '\t' else c
    return d :: (← stringValue fuel cs)
  | fuel + 1, c :: cs => do return c :: (← stringValue fuel cs)

/-- A string after its opening quote. -/
def stringRest (text : Text) : Option (Option String × Text) := do
  let (raw, rest) ← stringBody text
  guard (escapesKnown raw)
  return ((stringValue raw.length raw).map String.ofList, rest)

/-- The number that a run of decimal digits denotes. -/
def digitsValue (digits : Text) : Nat :=
  digits.foldl (fun n c => n * 10 + (c.toNat - 0x30)) 0

/-- The least number that is rounded beyond the largest float. -/
def floatLimit : Nat :=
  Nat.pow 2 1024 - Nat.pow 2 970

/-- Whether `digits · 10 ^ exponent` is beyond the largest float. -/
def exceedsFloat (digits : Text) (exponent : Int) : Bool :=
  let n := digitsValue digits
  let magnitude : Int := (Nat.toDigits 10 n).length + exponent
  if n == 0 || magnitude < 300 then false
  else if 400 < magnitude then true
  else if 0 ≤ exponent then decide (floatLimit ≤ n * Nat.pow 10 exponent.toNat)
  else decide (floatLimit * Nat.pow 10 (-exponent).toNat ≤ n)

/-- The digits of a fraction after its point, if there is one. -/
def fraction? : Text → Option (Text × Text)
  | '.' :: cs =>
    let digits := cs.takeWhile Char.isDigit
    if digits.isEmpty then none else some (digits, cs.dropWhile Char.isDigit)
  | cs => some ([], cs)

/-- An exponent, if there is one. -/
def exponent? : Text → Option (Option Int × Text)
  | [] => some (none, [])
  | c :: cs =>
    if c == 'e' || c == 'E' then
      let (minus, cs) := match cs with
        | '-' :: ds => (true, ds)
        | '+' :: ds => (false, ds)
        | ds => (false, ds)
      let digits := cs.takeWhile Char.isDigit
      if digits.isEmpty then none
      else
        let n : Int := digitsValue digits
        some (some (if minus then -n else n), cs.dropWhile Char.isDigit)
    else some (none, c :: cs)

/-- A number after its sign. -/
def numberRest (minus : Bool) (text : Text) : Option (Number × Text) := do
  let whole := text.takeWhile Char.isDigit
  guard (!whole.isEmpty && (whole.length == 1 || whole.head? != some '0'))
  let (fraction, rest) ← fraction? (text.dropWhile Char.isDigit)
  let (exponent, rest) ← exponent? rest
  let value := digitsValue whole
  if fraction.isEmpty && exponent.isNone && !minus && value < wordLimit then
    return (.whole value, rest)
  else if fraction.isEmpty && exponent.isNone && minus && 0 < value && 2 * value ≤ wordLimit then
    return (.negative value, rest)
  else if exceedsFloat (whole ++ fraction) (exponent.getD 0 - fraction.length) then
    return (.tooLarge, rest)
  else return (.real, rest)

mutual

/-- One value at the beginning of the text. The fuel bounds the steps taken. -/
def value? : Nat → Text → Option (Json × Text)
  | 0, _ => none
  | fuel + 1, text =>
    match skipBlanks text with
    | 'n' :: 'u' :: 'l' :: 'l' :: cs => some (.null, cs)
    | 't' :: 'r' :: 'u' :: 'e' :: cs => some (.bool true, cs)
    | 'f' :: 'a' :: 'l' :: 's' :: 'e' :: cs => some (.bool false, cs)
    | '"' :: cs => (stringRest cs).map fun (s, rest) => (.string s, rest)
    | '-' :: cs => (numberRest true cs).map fun (n, rest) => (.number n, rest)
    | '[' :: cs =>
      match skipBlanks cs with
      | ']' :: rest => some (.array [], rest)
      | cs => (elements? fuel cs).map fun (vs, rest) => (.array vs, rest)
    | '{' :: cs =>
      match skipBlanks cs with
      | '}' :: rest => some (.object [], rest)
      | cs => (fields? fuel cs).map fun (fs, rest) => (.object fs, rest)
    | cs => (numberRest false cs).map fun (n, rest) => (.number n, rest)

/-- The elements of an array up to its closing bracket; there is at least one. -/
def elements? : Nat → Text → Option (List Json × Text)
  | 0, _ => none
  | fuel + 1, text => do
    let (v, rest) ← value? fuel text
    match skipBlanks rest with
    | ',' :: rest =>
      let (vs, rest) ← elements? fuel rest
      return (v :: vs, rest)
    | ']' :: rest => return ([v], rest)
    | _ => none

/-- The fields of an object up to its closing brace; there is at least one. -/
def fields? : Nat → Text → Option (List (Option String × Json) × Text)
  | 0, _ => none
  | fuel + 1, text => do
    match skipBlanks text with
    | '"' :: cs =>
      let (k, rest) ← stringRest cs
      match skipBlanks rest with
      | ':' :: rest =>
        let (v, rest) ← value? fuel rest
        match skipBlanks rest with
        | ',' :: rest =>
          let (fs, rest) ← fields? fuel rest
          return ((k, v) :: fs, rest)
        | '}' :: rest => return ([(k, v)], rest)
        | _ => none
      | _ => none
    | _ => none

end

/-- Reads a text that holds one value. -/
def parse? (text : Text) : Option Json := do
  let (v, rest) ← value? (text.length + 1) text
  guard (skipBlanks rest).isEmpty
  return v

/-- Reads a text that holds one sound value. -/
def read? (text : Text) : Option Json := do
  let v ← parse? text
  guard (v.isSound 127)
  return v

end Json

end Codemod

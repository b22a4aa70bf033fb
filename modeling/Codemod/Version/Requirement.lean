import Codemod.Version.Basic

/-!
# Codemod.Version.Requirement

Requirements on versions: comparators with commas between them, such as `>=1.2, <3`.

* `Requirement.parse?` reads one. A lone `*` asks for nothing. Numbers have no leading zeros and
  fit 64 bits; at most 32 comparators are allowed.
* `Comparator.lowerBound?` is the version that a comparator names as its lower bound.
-/

namespace Codemod

inductive Operator where
  | exact
  | greater
  | greaterEq
  | less
  | lessEq
  | tilde
  | caret
  | wildcard
  deriving DecidableEq, Repr, Inhabited

structure Comparator where
  op : Operator
  major : Nat
  minor : Option Nat
  patch : Option Nat
  pre : List PrePart
  deriving DecidableEq, Repr, Inhabited

/-- All comparators have to hold; without any, every version will do. -/
structure Requirement where
  comparators : List Comparator
  deriving DecidableEq, Repr, Inhabited

namespace Comparator

/-- The version that the comparator names, unless it bounds versions from above only. -/
def lowerBound? (c : Comparator) : Option Version :=
  match c.op with
  | .less | .lessEq => none
  | _ => some ⟨c.major, c.minor.getD 0, c.patch.getD 0, c.pre⟩

end Comparator

namespace Requirement

def skipSpaces (text : Text) : Text :=
  text.dropWhile (· == ' ')

/-- The text after a wildcard sign. -/
def wildcard? : Text → Option Text
  | '*' :: cs | 'x' :: cs | 'X' :: cs => some cs
  | _ => none

/-- A number without leading zeros that fits 64 bits. -/
def number? (text : Text) : Option (Nat × Text) := do
  let digits := text.takeWhile Char.isDigit
  guard (!digits.isEmpty && (digits.length == 1 || digits.head? != some '0'))
  let n : Nat := digits.foldl (fun n c => n * 10 + (c.toNat - 0x30)) 0
  guard (n < wordLimit)
  return (n, text.dropWhile Char.isDigit)

/-- An operator, if one is written. -/
def operator : Text → Option Operator × Text
  | '>' :: '=' :: cs => (some .greaterEq, cs)
  | '<' :: '=' :: cs => (some .lessEq, cs)
  | '>' :: cs => (some .greater, cs)
  | '<' :: cs => (some .less, cs)
  | '=' :: cs => (some .exact, cs)
  | '~' :: cs => (some .tilde, cs)
  | '^' :: cs => (some .caret, cs)
  | cs => (none, cs)

/-- Characters of tags. -/
def isTagChar (c : Char) : Bool :=
  c.isAlphanum || c == '-'

/-- The parts of a tag, with dots between them. -/
def tag (text : Text) : List Text × Text :=
  let body := text.takeWhile fun c => isTagChar c || c == '.'
  (Text.splitAt '.' body, text.dropWhile fun c => isTagChar c || c == '.')

/-- One part of a pre-release tag: not empty, and a number has no leading zeros. -/
def prePart? (part : Text) : Option PrePart := do
  guard (!part.isEmpty)
  if part.all Char.isDigit then
    guard (part.length == 1 || part.head? != some '0')
    return .number (part.foldl (fun n c => n * 10 + (c.toNat - 0x30)) 0)
  else return .word (String.ofList part)

/-- A pre-release tag after a full version. -/
def pre? : Text → Option (List PrePart × Text)
  | '-' :: cs => do
    let (parts, rest) := tag cs
    return (← parts.mapM prePart?, rest)
  | cs => some ([], cs)

/-- The text after build metadata, which has no meaning here. -/
def skipBuild? : Text → Option Text
  | '+' :: cs => do
    let (parts, rest) := tag cs
    guard (parts.all fun part => !part.isEmpty)
    return rest
  | cs => some cs

/-- A part of a version that may be missing or a wildcard. -/
inductive Part where
  | missing
  | wildcard
  | number (n : Nat)
  deriving DecidableEq

namespace Part

def value? : Part → Option Nat
  | number n => some n
  | _ => none

end Part

/-- A part of a version after its point, if there is one. -/
def part? : Text → Option (Part × Text)
  | '.' :: cs =>
    match wildcard? cs with
    | some rest => some (.wildcard, rest)
    | none => (number? cs).map fun (n, rest) => (.number n, rest)
  | cs => some (.missing, cs)

def comparator? (text : Text) : Option (Comparator × Text) := do
  let (written, text) := operator text
  let (major, text) ← number? (skipSpaces text)
  let (minor, text) ← part? text
  let (patch, text) ← part? text
  let patchValue := patch.value?
  guard !(minor == .wildcard && patchValue.isSome)
  let (pre, text) ← if patchValue.isSome then pre? text else some ([], text)
  let text ← if patchValue.isSome then skipBuild? text else some text
  let op := match written with
    | some op => op
    | none => if minor == .wildcard || patch == .wildcard then .wildcard else .caret
  return (⟨op, major, minor.value?, patchValue, pre⟩, skipSpaces text)

/-- Comparators with commas between them, at most `limit` of them. -/
def comparators? : (limit : Nat) → Text → Option (List Comparator)
  | 0, _ => none
  | limit + 1, text => do
    let (c, rest) ← comparator? text
    match rest with
    | [] => return [c]
    | ',' :: cs => return c :: (← comparators? limit (skipSpaces cs))
    | _ => none

def parse? (text : Text) : Option Requirement :=
  let text := skipSpaces text
  match wildcard? text with
  | some rest => if (skipSpaces rest).isEmpty then some ⟨[]⟩ else none
  | none => (comparators? 32 text).map fun cs => ⟨cs⟩

/-- The largest of some versions. -/
def largest? : List Version → Option Version
  | [] => none
  | v :: vs =>
    match largest? vs with
    | none => some v
    | some w => some (if w.lt v then v else w)

/-- Whether the lower bounds leave only versions that are at least `minimum`. -/
def meets (r : Requirement) (minimum : Version) : Bool :=
  r.comparators.isEmpty ||
    (largest? (r.comparators.filterMap Comparator.lowerBound?)).any fun v => v.atLeast minimum

end Requirement

namespace Version

/-- Reads a full version without build metadata. -/
def parse? (text : Text) : Option Version := do
  let (major, text) ← Requirement.number? text
  let (minor, text) ← Requirement.part? text
  let (patch, text) ← Requirement.part? text
  let (pre, text) ← Requirement.pre? text
  guard text.isEmpty
  return ⟨major, ← minor.value?, ← patch.value?, pre⟩

end Version

end Codemod

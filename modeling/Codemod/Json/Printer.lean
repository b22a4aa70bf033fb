import Codemod.Json.Value

/-!
# Codemod.Json.Printer

Writing JSON text over several lines, two blanks for each level.

Only what the notation forbids inside quotes is escaped, so text in any script stays legible.
-/

namespace Codemod

namespace Json

def ofString (s : String) : Json :=
  .string (some s)

def ofNat (n : Nat) : Json :=
  .number (.whole n)

def ofOption {α : Type} (f : α → Json) : Option α → Json
  | none => .null
  | some a => f a

def ofList {α : Type} (f : α → Json) (xs : List α) : Json :=
  .array (xs.map f)

/-- An object with the given fields in this order. -/
def record (fields : List (String × Json)) : Json :=
  .object (fields.map fun (k, v) => (some k, v))

/-- A digit of a `\u` escape. -/
def hexDigit (n : Nat) : Char :=
  Char.ofNat (if n < 10 then 0x30 + n else 0x61 + (n - 10))

/-- A character as it stands between quotes. -/
def escape (c : Char) : Text :=
  if c == '"' then ['\\', '"']
  else if c == '\\' then ['\\', '\\']
  else if c == '\n' then ['\\', 'n']
  else if c == '\r' then ['\\', 'r']
  else if c == '\t' then ['\\', 't']
  else if c.toNat == 8 then ['\\', 'b']
  else if c.toNat == 12 then ['\\', 'f']
  else if c.toNat < 0x20 then
    ['\\', 'u', '0', '0', hexDigit (c.toNat / 16), hexDigit (c.toNat % 16)]
  else [c]

def quote (text : Text) : Text :=
  '"' :: text.flatMap escape ++ ['"']

/-- A string; one that names no characters is written as none. -/
def renderString : Option String → Text
  | some s => quote s.toList
  | none => quote []

/-- An integer in decimal. Other numbers are not kept and have no text of their own. -/
def Number.render : Number → Text
  | .whole n => (toString n).toList
  | .negative n => '-' :: (toString n).toList
  | .real | .tooLarge => "null".toList

/-- A new line at a level. -/
def newLine (level : Nat) : Text :=
  '\n' :: List.replicate (2 * level) ' '

mutual

/-- A value whose first line stands at a level. -/
def render (level : Nat) : Json → Text
  | null => "null".toList
  | bool b => (if b then "true" else "false").toList
  | number n => n.render
  | string s => renderString s
  | array [] => ['[', ']']
  | array (v :: vs) =>
    '[' :: newLine (level + 1) ++ v.render (level + 1) ++ renderElements (level + 1) vs ++
      newLine level ++ [']']
  | object [] => ['{', '}']
  | object ((k, v) :: fs) =>
    '{' :: newLine (level + 1) ++ renderString k ++ [':', ' '] ++ v.render (level + 1) ++
      renderFields (level + 1) fs ++ newLine level ++ ['}']

/-- The elements after the first one. -/
def renderElements (level : Nat) : List Json → Text
  | [] => []
  | v :: vs => ',' :: newLine level ++ v.render level ++ renderElements level vs

/-- The fields after the first one. -/
def renderFields (level : Nat) : List (Option String × Json) → Text
  | [] => []
  | (k, v) :: fs =>
    ',' :: newLine level ++ renderString k ++ [':', ' '] ++ v.render level ++
      renderFields level fs

end

end Json

end Codemod

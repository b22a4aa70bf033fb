import Codemod.Text.Basic

/-!
# Codemod.Json.Value

Values of the JSON data format, as a reader finds them.

A text can be well formed and still hold values that nothing can be made of: a number beyond all
bounds, or a string with half a surrogate pair. Such values are kept as they are, since a reader
that skips them has no quarrel with them. `Json.isSound` says that a value has none of them and is
not nested too deeply.
-/

namespace Codemod

namespace Json

inductive Number where
  /-- An integer from 0 up to 64 bits. -/
  | whole (n : Nat)
  /-- The integer `-n`, `n` being positive. -/
  | negative (n : Nat)
  /-- A number with a fraction, an exponent, or more than 64 bits. -/
  | real
  /-- A number too large for a float. -/
  | tooLarge
  deriving DecidableEq, Repr, Inhabited

end Json

inductive Json where
  | null
  | bool (value : Bool)
  | number (value : Json.Number)
  /-- `none` when escape sequences in the string name no character. -/
  | string (value : Option String)
  | array (elements : List Json)
  | object (fields : List (Option String × Json))
  deriving Repr, Inhabited

namespace Json

mutual

/-- Whether every number and string has a value and at most `depth` arrays and objects are nested. -/
def isSound (depth : Nat) : Json → Bool
  | null | bool _ => true
  | number n => n != .tooLarge
  | string s => s.isSome
  | array elements => decide (0 < depth) && allSound (depth - 1) elements
  | object fields => decide (0 < depth) && fieldsSound (depth - 1) fields

def allSound (depth : Nat) : List Json → Bool
  | [] => true
  | v :: vs => v.isSound depth && allSound depth vs

def fieldsSound (depth : Nat) : List (Option String × Json) → Bool
  | [] => true
  | (k, v) :: fields => k.isSome && v.isSound depth && fieldsSound depth fields

end

/-- The value of a field; of a repeated field the last one counts. -/
def field? (value : Json) (name : String) : Option Json :=
  match value with
  | object fields => (fields.reverse.find? fun (k, _) => k == some name).map (·.2)
  | _ => none

def string? : Json → Option String
  | string s => s
  | _ => none

end Json

end Codemod

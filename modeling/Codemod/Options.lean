import Codemod.Fault
import Codemod.Json.Parser

/-!
# Codemod.Options

The options of a migration and how they are read from JSON.

An object gives options by name: unknown names are passed over, a known name must not come twice,
and what is missing has its default. An array gives them in declared order. The constant has no
defaults of its own: both its parts must be there.
-/

namespace Codemod

/-- A constant that the build configuration must define. -/
structure Constant where
  key : String
  /-- The value as an expression in source text. -/
  value : String
  deriving DecidableEq, Repr, Inhabited

namespace Constant

def standard : Constant :=
  ⟨"process.env.TARO_ENV", "JSON.stringify(process.env.TARO_ENV)"⟩

end Constant

structure Options where
  rootDir : Path
  /-- How many workers share the files of a pass; none or zero leaves that open. -/
  workers : Option Nat
  /-- Work everything out and write nothing. -/
  dryRun : Bool
  constant : Constant
  /-- The framework that the build configuration must name. -/
  framework : String
  deriving DecidableEq, Repr, Inhabited

namespace Options

def standard : Options :=
  ⟨⟨"."⟩, none, false, .standard, "react"⟩

/-- The number of workers, `available` being used where the options leave it open. -/
def workerCount (o : Options) (available : Nat) : Nat :=
  match o.workers with
  | some (n + 1) => n + 1
  | _ => max available 1

def bool? : Json → Option Bool
  | .bool b => some b
  | _ => none

def workers? : Json → Option (Option Nat)
  | .null => some none
  | .number (.whole n) => some (some n)
  | _ => none

/-- The value of a field that must not come twice: nothing when it is not there. -/
def unique? (fields : List (Option String × Json)) (name : String) : Option (Option Json) :=
  match fields.filter fun (k, _) => k == some name with
  | [] => some none
  | [(_, v)] => some (some v)
  | _ => none

/-- The value of a field, or its default. -/
def fieldOr {α : Type} (fields : List (Option String × Json)) (name : String) (default : α)
    (decode : Json → Option α) : Option α := do
  match ← unique? fields name with
  | none => return default
  | some v => decode v

def constant? : Json → Option Constant
  | .object fields => do
    guard (fields.all fun (k, _) => k.isSome)
    let key ← (← unique? fields "key").bind Json.string?
    let value ← (← unique? fields "value").bind Json.string?
    return ⟨key, value⟩
  | .array [key, value] => do return ⟨← key.string?, ← value.string?⟩
  | _ => none

/-- The value at a place of an array, or its default. -/
def elementOr {α : Type} (elements : List Json) (i : Nat) (default : α)
    (decode : Json → Option α) : Option α :=
  match elements[i]? with
  | none => some default
  | some v => decode v

def ofJson? : Json → Option Options
  | .object fields => do
    guard (fields.all fun (k, _) => k.isSome)
    let rootDir ← fieldOr fields "rootDir" standard.rootDir.text Json.string?
    let workers ← fieldOr fields "workers" standard.workers workers?
    let dryRun ← fieldOr fields "dryRun" standard.dryRun bool?
    let constant ← fieldOr fields "defineConstant" standard.constant constant?
    let framework ← fieldOr fields "framework" standard.framework Json.string?
    return ⟨⟨rootDir⟩, workers, dryRun, constant, framework⟩
  | .array elements => do
    guard (elements.length ≤ 5)
    let rootDir ← elementOr elements 0 standard.rootDir.text Json.string?
    let workers ← elementOr elements 1 standard.workers workers?
    let dryRun ← elementOr elements 2 standard.dryRun bool?
    let constant ← elementOr elements 3 standard.constant constant?
    let framework ← elementOr elements 4 standard.framework Json.string?
    return ⟨⟨rootDir⟩, workers, dryRun, constant, framework⟩
  | _ => none

def parse (text : Text) : Except Fault Options :=
  match (Json.parse? text).bind ofJson? with
  | some options => .ok options
  | none => .error (.options "not a set of options")

end Options

end Codemod

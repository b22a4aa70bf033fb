import Codemod.Syntax.Node

/-!
# Codemod.Feature

Language features that a build has to be set up for, and in how many files they were seen.

* `Program.features` lists the features of one module, each at most once.
* `Tally` counts files by feature; `Tally.merge` adds two counts.
-/

namespace Codemod

inductive Feature where
  | legacyDecorators
  | constEnum
  deriving DecidableEq, Repr, Inhabited

namespace Feature

/-- All features, in the order in which they are reported. -/
def all : List Feature :=
  [legacyDecorators, constEnum]

def name : Feature → String
  | legacyDecorators => "legacy-decorators"
  | constEnum => "const-enum"

def ofName? (name : String) : Option Feature :=
  all.find? fun f => f.name == name

/-- Whether a node is a use of the feature. -/
def shownBy (f : Feature) : Node → Bool
  | .decorator .. => f == legacyDecorators
  | .constEnum .. => f == constEnum
  | _ => false

end Feature

namespace Program

/-- Whether a module uses a feature anywhere. -/
def exhibits (program : Program) (f : Feature) : Bool :=
  !(program.gather (fun _ n => (if f.shownBy n then [()] else [], some ())) ()).isEmpty

def features (program : Program) : List Feature :=
  Feature.all.filter program.exhibits

end Program

/-- A number of files for each feature that has an entry. An entry may be zero. -/
structure Tally where
  decorators : Option Nat
  constEnums : Option Nat
  deriving DecidableEq, Repr, Inhabited

namespace Tally

def empty : Tally :=
  ⟨none, none⟩

/-- The entry of a feature. -/
def entry? (t : Tally) : Feature → Option Nat
  | .legacyDecorators => t.decorators
  | .constEnum => t.constEnums

def setEntry (t : Tally) (n : Nat) : Feature → Tally
  | .legacyDecorators => { t with decorators := some n }
  | .constEnum => { t with constEnums := some n }

def count (t : Tally) (f : Feature) : Nat :=
  (t.entry? f).getD 0

/-- Counts one more file. -/
def record (t : Tally) (f : Feature) : Tally :=
  t.setEntry (t.count f + 1) f

/-- The sum of two entries; there is one when either side has one. -/
def addEntries : Option Nat → Option Nat → Option Nat
  | some m, some n => some (m + n)
  | some m, none => some m
  | none, n => n

/-- The sum of two tallies. -/
def merge (t u : Tally) : Tally :=
  ⟨addEntries t.decorators u.decorators, addEntries t.constEnums u.constEnums⟩

/-- Whether no file was counted. -/
def isEmpty (t : Tally) : Bool :=
  Feature.all.all fun f => t.count f == 0

/-- The entries in the order of features. -/
def entries (t : Tally) : List (Feature × Nat) :=
  Feature.all.filterMap fun f => (t.entry? f).map fun n => (f, n)

/-- Whether the build needs legacy decorators. -/
def needsDecorators (t : Tally) : Bool :=
  decide (0 < t.count .legacyDecorators)

/-- The tally of one module. -/
def ofProgram (program : Program) : Tally :=
  program.features.foldl record empty

@[simp] theorem count_empty (f : Feature) : empty.count f = 0 := by
  cases f <;> rfl

@[simp] theorem count_merge (t u : Tally) (f : Feature) :
    (t.merge u).count f = t.count f + u.count f := by
  cases f <;> simp only [count, entry?, merge]
  · cases t.decorators <;> cases u.decorators <;> simp [addEntries]
  · cases t.constEnums <;> cases u.constEnums <;> simp [addEntries]

theorem count_record (t : Tally) (f f' : Feature) :
    (t.record f).count f' = t.count f' + if f = f' then 1 else 0 := by
  cases f <;> cases f' <;> simp [record, count, entry?, setEntry]

end Tally

end Codemod

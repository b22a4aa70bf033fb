import Codemod.Text.Ranges
import Codemod.Version.Requirement

/-!
# Codemod.Version.Range

Ranges as package manifests write them, brought into the form of requirements.

Of several alternatives the first one counts. `A - B` has both ends in it, blanks after an operator
and a `v` before a number are dropped, and comparators get commas between them. A tag, an address
or a path is no range.
-/

namespace Codemod

namespace Range

/-- The text before the first `||`. -/
def firstAlternative : Text → Text
  | [] => []
  | '|' :: '|' :: _ => []
  | c :: cs => c :: firstAlternative cs

/-- Characters of comparison operators. -/
def isOperatorChar (c : Char) : Bool :=
  c == '>' || c == '<' || c == '=' || c == '~' || c == '^'

/-- Drops blanks that follow an operator. -/
def closeOperators (afterOperator : Bool) : Text → Text
  | [] => []
  | c :: cs =>
    if afterOperator && isWhite c then closeOperators true cs
    else c :: closeOperators (isOperatorChar c) cs

def isDecimalDigit (c : Char) : Bool :=
  c.isDigit || (0x80 ≤ c.toNat && inRanges c.toNat digitRanges)

/-- Drops a `v` between the beginning of a version and its first digit. -/
def dropMarks (atStart : Bool) : Text → Text
  | [] => []
  | 'v' :: d :: cs =>
    if atStart && isDecimalDigit d then d :: dropMarks false cs
    else 'v' :: dropMarks false (d :: cs)
  | c :: cs => c :: dropMarks (isWhite c || isOperatorChar c) cs

/-- The range as the text of a requirement, or nothing when it is no range. -/
def normalize? (raw : Text) : Option Text :=
  let first := Text.trim (firstAlternative raw)
  if first.isEmpty || [['*'], ['x'], ['X'], "latest".toList].contains first then some ['*']
  else if first.contains ':' || first.contains '/' then none
  else match Text.words first with
    | [low, ['-'], high] => some (">=".toList ++ low ++ ", <=".toList ++ high)
    | _ =>
      some (Text.join ", ".toList (Text.words (dropMarks true (closeOperators false first))))

end Range

end Codemod

/-!
# Codemod.Text.White

Which characters are blank.

* `isWhite`: the Unicode `White_Space` property, used when text is trimmed or split into words.
* `isIndent`: a space or a tab, the characters that indent a line of source code.
-/

namespace Codemod

/-- The Unicode property `White_Space`. -/
def isWhite (c : Char) : Bool :=
  let n := c.toNat
  (0x9 ≤ n && n ≤ 0xD) || n == 0x20 || n == 0x85 || n == 0xA0 || n == 0x1680 ||
    (0x2000 ≤ n && n ≤ 0x200A) || n == 0x2028 || n == 0x2029 || n == 0x202F ||
    n == 0x205F || n == 0x3000

/-- Indentation is made of spaces and tabs. -/
def isIndent (c : Char) : Bool :=
  c == ' ' || c == '\t'

theorem isWhite_of_isIndent {c : Char} (h : isIndent c = true) : isWhite c = true := by
  simp only [isIndent, Bool.or_eq_true, beq_iff_eq] at h
  rcases h with rfl | rfl <;> decide

end Codemod

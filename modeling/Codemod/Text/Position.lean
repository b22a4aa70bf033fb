import Codemod.Text.Basic

/-!
# Codemod.Text.Position

Lines, columns and spans of a source text.

* `location` turns a byte offset into a line and a column, both counted from 1; the column
  counts characters.
* `lineStart` and `indentAt` describe the line that holds an offset.
* `statementSpan` takes a `;` along that follows a node, and `removalSpan` says what to delete
  so that no empty line is left where the node stood alone.
-/

namespace Codemod

/-- A half-open range of byte offsets. -/
structure Span where
  start : Nat
  stop : Nat
  deriving DecidableEq, Repr, Inhabited

namespace Span

def length (span : Span) : Nat :=
  span.stop - span.start

/-- The text that the span covers. -/
def text (span : Span) (source : Text) : Text :=
  source.slice span.start span.stop

end Span

namespace Text

/-- The last line of a text: what follows its last line feed. -/
def lastLine (s : Text) : Text :=
  (s.reverse.takeWhile (· != '\n')).reverse

/-- Line and column of a byte offset; every offset past the end counts as the end. They are counted
without bound; `location32_toNat` says for which texts numbers of 32 bits come to the same. -/
def location (source : Text) (offset : Nat) : Nat × Nat :=
  let head := source.before offset
  (head.count '\n' + 1, head.lastLine.length + 1)

/-- Where the line that holds `offset` begins. -/
def lineStart (source : Text) (offset : Nat) : Nat :=
  let head := source.before offset
  head.size - head.lastLine.size

/-- The spaces and tabs at the beginning of the line that holds `offset`. -/
def indentAt (source : Text) (offset : Nat) : Text :=
  (source.after (source.lineStart offset)).takeWhile isIndent

/-- The span, widened over a `;` that follows it after spaces and tabs only. -/
def statementSpan (source : Text) (span : Span) : Span :=
  let rest := source.after span.stop
  let gap : Text := rest.takeWhile isIndent
  match rest.dropWhile isIndent with
  | ';' :: _ => ⟨span.start, span.stop + gap.size + 1⟩
  | _ => span

/-- What to delete so that the node at `span` is gone: a `;` after it goes along, and where
nothing else is on its lines the whole lines go. -/
def removalSpan (source : Text) (span : Span) : Span :=
  let stop := (source.statementSpan span).stop
  let first := source.lineStart span.start
  let tail := source.after stop
  let rest : Text := tail.takeWhile (· != '\n')
  if (source.slice first span.start).isBlank && rest.isBlank then
    match tail.dropWhile (· != '\n') with
    | [] => ⟨first, stop + rest.size⟩
    | _ :: _ => ⟨first, stop + rest.size + 1⟩
  else ⟨span.start, stop⟩

end Text

end Codemod

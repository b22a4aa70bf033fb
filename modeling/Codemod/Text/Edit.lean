import Codemod.Text.Position

/-!
# Codemod.Text.Edit

Edits against a source text, and the text that a list of edits gives.

An edit names a span of the source as it was before any edit. `Edit.applyAll` works from the
back of the text to its front, so the spans of the edits that are still to come stay valid:

* `Edit.schedule` puts the edits in that order: larger start first, then the longer span, then
  the one recorded later. Insertions at one offset thereby come out in recorded order, before a
  replacement that starts there.
* `Edit.splice` drops an edit whose span runs past the place where the last edit began.
-/

namespace Codemod

/-- Puts `text` in the place of `span`; an empty span is an insertion. -/
structure Edit where
  span : Span
  text : Text
  deriving DecidableEq, Repr, Inhabited

namespace Edit

def replace (span : Span) (text : Text) : Edit :=
  ⟨span, text⟩

def insert (offset : Nat) (text : Text) : Edit :=
  ⟨⟨offset, offset⟩, text⟩

def remove (span : Span) : Edit :=
  ⟨span, []⟩

/-- Whether `a` is applied before an edit `b` that was recorded earlier. -/
def leads (a b : Edit) : Bool :=
  decide (b.span.start < a.span.start) ||
    (a.span.start == b.span.start && decide (b.span.length ≤ a.span.length))

/-- Puts an edit into the order of edits that were all recorded after it. -/
def place (e : Edit) : List Edit → List Edit
  | [] => [e]
  | x :: xs => if x.leads e then x :: place e xs else e :: x :: xs

/-- The order in which edits are applied. -/
def schedule (edits : List Edit) : List Edit :=
  edits.foldr place []

/-- The source with one edit carried out. -/
def apply (e : Edit) (source : Text) : Text :=
  source.before e.span.start ++ e.text ++ source.after e.span.stop

/-- Carries out edits in the given order. `floor` is where the last edit began: a nonempty span
that reaches beyond it is dropped. -/
def splice (floor : Nat) (source : Text) : List Edit → Text
  | [] => source
  | e :: es =>
    if floor < e.span.stop && e.span.start != e.span.stop then splice floor source es
    else splice e.span.start (e.apply source) es

/-- The source after all edits. -/
def applyAll (source : Text) (edits : List Edit) : Text :=
  splice source.size source (schedule edits)

end Edit

end Codemod

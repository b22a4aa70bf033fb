import Codemod.Proofs.Syntax.Layout
import Codemod.Proofs.Text.Apart

/-!
# Codemod.Proofs.Text.Cut

What a removal takes out of a text.

* `Text.Cut`: a text in three pieces, of which the middle one is cut out.
* `cut_removalSpan`: the span of a removal cuts out the node, blanks and one `;`.
* `text_closing`: whatever is apart from a cut keeps its text. `Span.closing` is where it comes to
  stand.
-/

namespace Codemod

/-- Where a span comes to stand once a part of the text is cut out. -/
def Span.closing (span cut : Span) : Span :=
  if span.stop ≤ cut.start then span else ⟨span.start - cut.length, span.stop - cut.length⟩

namespace Text

/-- A text falls into what stays in front, what is cut out and what stays behind. Cut out are the
text at the span, a `;` that follows it on its line and blanks, and blanks in front of it only if
whole lines go. -/
def Cut (s : Text) (span : Span) (front back : Text) : Prop :=
  ∃ line mark rest,
    s = front ++ (line ++ (span.text s ++ (mark ++ (rest ++ back)))) ∧
    (∀ c ∈ line, isWhite c = true ∧ c ≠ '\n') ∧ (∀ c ∈ rest, isWhite c = true) ∧
    (mark = [] ∨ ∃ gap, mark = gap ++ [';'] ∧ ∀ c ∈ gap, isWhite c = true) ∧
    (line = [] ∧ rest = [] ∨ back = [] ∨ rest.getLast? = some '\n')

variable {s : Text} {span : Span}

/-- Behind a statement there is a `;` that goes with it, or nothing that does. -/
theorem after_statementSpan (h : s.Boundary span.stop) :
    ∃ mark, s.after span.stop = mark ++ s.after (s.statementSpan span).stop ∧
      (mark = [] ∨ ∃ gap, mark = gap ++ [';'] ∧ ∀ c ∈ gap, isWhite c = true) := by
  rcases statementSpan_cases s span with heq | ⟨gap, back, hs, hblank, heq⟩
  · exact ⟨[], by rw [heq, List.nil_append], .inl rfl⟩
  · refine ⟨gap ++ [';'], ?_, .inr ⟨gap, rfl, hblank⟩⟩
    have hsize := size_before h
    have hsplit : s = (s.before span.stop ++ (gap ++ [';'])) ++ back := by simpa using hs
    have hback : s.after (s.statementSpan span).stop = back := by
      refine after_of_split hsplit ?_
      rw [heq, size_append, size_append, hsize, Nat.add_assoc]
      rfl
    rw [hback, List.append_assoc]
    exact after_of_split hs hsize

theorem cut_removalSpan (h : span.Sharp s) :
    s.Cut span (s.before (s.removalSpan span).start) (s.after (s.removalSpan span).stop) := by
  have hopen := h.opens.boundary
  have hclose := h.closes.boundary
  obtain ⟨mark, hmark, hcases⟩ := after_statementSpan hclose
  have hafter : span.text s ++ s.after span.stop = s.after span.start :=
    slice_append_after hopen hclose h.lt.le
  rw [hmark] at hafter
  rcases removalSpan_cases hopen with
    heq | ⟨front, line, rest, back, hs, hrest, hfront, -, hsize, hline, hnewline, hblank, hend⟩
  · refine ⟨[], mark, [], ?_, by simp, by simp, hcases, .inl ⟨rfl, rfl⟩⟩
    rw [heq, statementSpan_start, List.nil_append, List.nil_append, hafter, before_append_after]
  · have hbefore : s.before (s.removalSpan span).start = front := by
      rw [← hfront, hs]
      exact before_size_append front _
    have hback : s.after (s.removalSpan span).stop = back := by
      have hstop := (closes_statementSpan h.closes).boundary
      have hsplit := before_append_after (s.statementSpan span).stop s
      rw [hrest, ← List.append_assoc] at hsplit
      refine after_of_split hsplit.symm ?_
      rw [hsize, size_append, size_before hstop]
    rw [hbefore, hback]
    refine ⟨line, mark, rest, ?_, fun c hc => ⟨hline c hc, ?_⟩, hblank, hcases, .inr hend⟩
    · rw [← hrest, hafter, ← hs]
    · rintro rfl
      exact hnewline hc

/-- What is apart from a cut keeps its text; behind the cut it moves up. -/
theorem text_closing {cut : Span} (hcut : cut.start ≤ cut.stop) (hstart : s.Boundary cut.start)
    (hstop : s.Boundary cut.stop) (h : span.Sharp s) (hapart : cut.Apart span) :
    (span.closing cut).text (s.before cut.start ++ s.after cut.stop) = span.text s := by
  have hopen := h.opens.boundary
  have hclose := h.closes.boundary
  have hlt := h.lt
  have hsize := size_slice hopen hclose hlt.le
  have hmiddle := slice_append_after hopen hclose hlt.le
  rcases hapart with hle | hle
  · -- behind the cut
    have hgap := size_slice hstop hopen hle
    have hsplit : s.before cut.start ++ s.after cut.stop =
        (s.before cut.start ++ s.slice cut.stop span.start) ++ (span.text s ++ s.after span.stop) := by
      rw [Span.text, hmiddle, List.append_assoc, slice_append_after hstop hopen hle]
    have hfront : (s.before cut.start ++ s.slice cut.stop span.start).size =
        span.start - (cut.stop - cut.start) := by
      rw [size_append, size_before hstart]
      omega
    rw [Span.closing, if_neg (by omega), Span.length]
    refine slice_of_split hsplit hfront ?_
    show span.start - (cut.stop - cut.start) + (s.slice span.start span.stop).size =
      span.stop - (cut.stop - cut.start)
    omega
  · -- in front of it
    have hsplit : s.before cut.start ++ s.after cut.stop =
        s.before span.start ++
          (span.text s ++ (s.slice span.stop cut.start ++ s.after cut.stop)) := by
      rw [Span.text, ← List.append_assoc, ← List.append_assoc,
        before_append_slice hopen hclose hlt.le, before_append_slice hclose hstart hle]
    rw [Span.closing, if_pos hle]
    exact slice_of_split hsplit (size_before hopen) hsize

end Text

end Codemod

import Codemod.Proofs.Text.Boundary
import Mathlib.Data.List.TakeWhile

/-!
# Codemod.Proofs.Text.Edges

What stands on the two sides of an offset, and how far a widened span can reach.

`statementSpan` and `removalSpan` go beyond the node they are made for. They never take in more than
blanks and one `;`, so they stop at whatever stands next to the node:

* `statementSpan_le`: at the next place that is neither blank nor a `;`.
* `removalSpan_le`, `le_removalSpan`: at the next place on either side that is not blank.
* `removalSpan_le_removalSpan`: two of them do not meet, even where both take whole lines.
-/

namespace Codemod

namespace Text

/-- The character behind offset `n` is `c`. -/
def HasAt (s : Text) (n : Nat) (c : Char) : Prop :=
  ∃ front back, s = front ++ c :: back ∧ front.size = n

/-- The character in front of offset `n` is `c`. -/
def HasBefore (s : Text) (n : Nat) (c : Char) : Prop :=
  ∃ front back, s = front ++ c :: back ∧ front.size + c.utf8Size = n

/-- Something that is not blank begins at offset `n`. -/
def Opens (s : Text) (n : Nat) : Prop :=
  ∃ c, s.HasAt n c ∧ isWhite c = false

/-- Something that is not blank ends at offset `n`. -/
def Closes (s : Text) (n : Nat) : Prop :=
  ∃ c, s.HasBefore n c ∧ isWhite c = false

/-- Something that is neither blank nor a `;` begins at offset `n`. -/
def Starts (s : Text) (n : Nat) : Prop :=
  ∃ c, s.HasAt n c ∧ isWhite c = false ∧ c ≠ ';'

variable {s front mid back : Text} {n : Nat} {c : Char}

theorem Starts.opens (h : s.Starts n) : s.Opens n := by
  obtain ⟨c, hc, hwhite, -⟩ := h
  exact ⟨c, hc, hwhite⟩

theorem HasAt.boundary (h : s.HasAt n c) : s.Boundary n := by
  obtain ⟨front, back, rfl, rfl⟩ := h
  exact ⟨front, c :: back, rfl, rfl⟩

theorem HasBefore.boundary (h : s.HasBefore n c) : s.Boundary n := by
  obtain ⟨front, back, rfl, rfl⟩ := h
  exact ⟨front ++ [c], back, by simp, by simp⟩

theorem Opens.boundary (h : s.Opens n) : s.Boundary n := by
  obtain ⟨c, hc, -⟩ := h
  exact hc.boundary

theorem Closes.boundary (h : s.Closes n) : s.Boundary n := by
  obtain ⟨c, hc, -⟩ := h
  exact hc.boundary

theorem HasAt.lt_size (h : s.HasAt n c) : n < s.size := by
  obtain ⟨front, back, rfl, rfl⟩ := h
  have := c.utf8Size_pos
  simp only [size_append, size_cons]
  omega

theorem HasAt.head (h : s.HasAt n c) (hs : s = front ++ back) (hn : front.size = n) :
    back.head? = some c := by
  obtain ⟨front', back', rfl, rfl⟩ := h
  have hafter := congrArg (after front'.size) hs
  rw [after_size_append, ← hn, after_size_append] at hafter
  rw [← hafter]
  rfl

theorem HasAt.unique {d : Char} (h : s.HasAt n c) (h' : s.HasAt n d) : c = d := by
  obtain ⟨front, back, hs, hn⟩ := h
  simpa using (HasAt.head h' hs hn)

/-- What begins inside a piece of the text belongs to the piece. -/
theorem HasAt.mem (h : s.HasAt n c) (hs : s = front ++ (mid ++ back)) (hlo : front.size ≤ n)
    (hhi : n < front.size + mid.size) : c ∈ mid := by
  obtain ⟨f, b, rfl, rfl⟩ := h
  rcases List.append_eq_append_iff.mp hs with ⟨m, rfl, hm⟩ | ⟨m, rfl, hm⟩
  · -- the piece would begin behind the character
    rw [size_append] at hlo
    obtain rfl : m = [] := eq_nil_of_size_eq_zero (by omega)
    cases mid with
    | nil => simp at hhi
    | cons d mid =>
      rw [List.nil_append, List.cons_append] at hm
      simp [(List.cons.inj hm).1]
  · rw [size_append] at hhi
    rcases List.append_eq_append_iff.mp hm with ⟨k, rfl, hk⟩ | ⟨k, rfl, hk⟩
    · rw [size_append] at hhi
      omega
    · cases k with
      | nil => simp at hhi
      | cons d k =>
        rw [List.cons_append] at hk
        simp [(List.cons.inj hk).1]

theorem HasBefore.mem (h : s.HasBefore n c) (hs : s = front ++ (mid ++ back))
    (hlo : front.size < n) (hhi : n ≤ front.size + mid.size) : c ∈ mid := by
  obtain ⟨f, b, rfl, rfl⟩ := h
  have hpos := c.utf8Size_pos
  refine HasAt.mem ⟨f, b, rfl, rfl⟩ hs ?_ (by omega)
  -- the piece begins at a boundary that is not behind the character
  by_contra hlt
  rcases List.append_eq_append_iff.mp hs with ⟨m, rfl, hm⟩ | ⟨m, rfl, -⟩
  · cases m with
    | nil => simp at hlt
    | cons d m =>
      rw [List.cons_append] at hm
      obtain ⟨rfl, -⟩ := List.cons.inj hm
      simp only [size_append, size_cons] at hlo
      omega
  · rw [size_append] at hlt
    omega

theorem HasAt.mem_slice {a b : Nat} (h : s.HasAt n c) (ha : s.Boundary a) (hb : s.Boundary b) (hlo : a ≤ n)
    (hhi : n < b) : c ∈ s.slice a b := by
  obtain ⟨front, mid, back, hs, hfront, hmid⟩ := ha.split hb (by omega)
  rw [slice_of_split hs hfront (by omega)]
  exact h.mem hs (by omega) (by omega)

theorem HasBefore.mem_slice {a b : Nat} (h : s.HasBefore n c) (ha : s.Boundary a) (hb : s.Boundary b)
    (hlo : a < n) (hhi : n ≤ b) : c ∈ s.slice a b := by
  obtain ⟨front, mid, back, hs, hfront, hmid⟩ := ha.split hb (by omega)
  rw [slice_of_split hs hfront (by omega)]
  exact h.mem hs (by omega) (by omega)

/-- Past a blank piece of the text lies whatever begins behind its front. -/
theorem Opens.le_of_blank (h : s.Opens n) (hs : s = front ++ (mid ++ back))
    (hblank : ∀ d ∈ mid, isWhite d = true) (hlo : front.size ≤ n) :
    front.size + mid.size ≤ n := by
  obtain ⟨c, hc, hwhite⟩ := h
  by_contra hlt
  have hmem := hc.mem hs hlo (by omega)
  rw [hblank c hmem] at hwhite
  cases hwhite

/-- Before a blank piece of the text lies whatever ends in front of its end. -/
theorem Closes.le_of_blank (h : s.Closes n) (hs : s = front ++ (mid ++ back))
    (hblank : ∀ d ∈ mid, isWhite d = true) (hhi : n ≤ front.size + mid.size) :
    n ≤ front.size := by
  obtain ⟨c, hc, hwhite⟩ := h
  by_contra hlt
  have hmem := hc.mem hs (by omega) hhi
  rw [hblank c hmem] at hwhite
  cases hwhite

theorem isWhite_of_mem_takeWhile_isIndent {d : Char} (h : d ∈ s.takeWhile isIndent) :
    isWhite d = true :=
  isWhite_of_isIndent (List.mem_takeWhile_imp h)

section StatementSpan

variable {span : Span} {q : Nat}

/-- The two shapes of a widened span: either nothing is added, or blanks and one `;`. -/
theorem statementSpan_cases (s : Text) (span : Span) :
    s.statementSpan span = span ∨
      ∃ gap back, s = s.before span.stop ++ (gap ++ ';' :: back) ∧
        (∀ d ∈ gap, isWhite d = true) ∧
        s.statementSpan span = ⟨span.start, span.stop + gap.size + 1⟩ := by
  rw [statementSpan]
  split
  · rename_i back hback
    refine .inr ⟨(s.after span.stop).takeWhile isIndent, back, ?_,
      fun d => isWhite_of_mem_takeWhile_isIndent, rfl⟩
    rw [← hback, List.takeWhile_append_dropWhile, before_append_after]
  · exact .inl rfl

@[simp] theorem statementSpan_start (s : Text) (span : Span) :
    (s.statementSpan span).start = span.start := by
  rw [statementSpan]
  split <;> rfl

theorem stop_le_statementSpan (s : Text) (span : Span) :
    span.stop ≤ (s.statementSpan span).stop := by
  rw [statementSpan]
  split
  · show span.stop ≤ span.stop + _ + 1
    omega
  · exact Nat.le_refl _

/-- A widened span ends where something ends that is not blank. -/
theorem closes_statementSpan (h : s.Closes span.stop) : s.Closes (s.statementSpan span).stop := by
  rcases statementSpan_cases s span with heq | ⟨gap, back, hs, -, heq⟩
  · rw [heq]
    exact h
  · rw [heq]
    refine ⟨';', ⟨s.before span.stop ++ gap, back, ?_, ?_⟩, by decide⟩
    · rw [List.append_assoc, ← hs]
    · rw [size_append, size_before h.boundary]
      rfl

theorem statementSpan_le (h : s.Boundary span.stop) (hq : s.Starts q) (hle : span.stop ≤ q) :
    (s.statementSpan span).stop ≤ q := by
  rcases statementSpan_cases s span with heq | ⟨gap, back, hs, hblank, heq⟩
  · rwa [heq]
  · rw [heq]
    obtain ⟨c, hc, hwhite, hsemi⟩ := hq
    have hsize := size_before h
    have hgap : span.stop + gap.size ≤ q := by
      have := Opens.le_of_blank ⟨c, hc, hwhite⟩ hs hblank (by omega)
      omega
    -- a `;` stands behind the blanks
    have hne : q ≠ span.stop + gap.size := by
      rintro rfl
      refine hsemi (hc.unique ⟨s.before span.stop ++ gap, back, ?_, ?_⟩)
      · rw [List.append_assoc, ← hs]
      · rw [size_append, hsize]
    show span.stop + gap.size + 1 ≤ q
    omega

end StatementSpan

section RemovalSpan

variable {span : Span} {p q : Nat}

theorem newline_notMem_lastLine (s : Text) : '\n' ∉ s.lastLine := by
  intro h
  have := List.mem_takeWhile_imp (List.mem_reverse.mp h)
  simp at this

/-- What is left behind the first line begins with its line feed. -/
theorem head_of_dropWhile_newline {t : Text} {d : Char} (h : t.dropWhile (· != '\n') = d :: back) :
    d = '\n' := by
  have hhead := List.head?_dropWhile_not (· != '\n') t
  rw [h] at hhead
  simpa using hhead

/-- What stands in front of the last line is empty or ends with a line feed. -/
theorem exists_append_lastLine (t : Text) :
    ∃ front, t = front ++ t.lastLine ∧ (front = [] ∨ ∃ init, front = init ++ ['\n']) := by
  refine ⟨(t.reverse.dropWhile (· != '\n')).reverse, ?_, ?_⟩
  · rw [lastLine, ← List.reverse_append, List.takeWhile_append_dropWhile, List.reverse_reverse]
  · cases hback : t.reverse.dropWhile (· != '\n') with
    | nil => exact .inl rfl
    | cons d back =>
      refine .inr ⟨back.reverse, ?_⟩
      rw [head_of_dropWhile_newline hback, List.reverse_cons]

/-- The line that holds a boundary, up to there. -/
theorem eq_append_lastLine (h : s.Boundary n) :
    ∃ front, s = front ++ ((s.before n).lastLine ++ s.after n) ∧ front.size = s.lineStart n ∧
      s.lineStart n + ((s.before n).lastLine).size = n ∧
      (front = [] ∨ ∃ init, front = init ++ ['\n']) := by
  obtain ⟨front, hsplit, hfirst⟩ := exists_append_lastLine (s.before n)
  have hsize := congrArg size hsplit
  have hlast := size_before h
  rw [size_append] at hsize
  have hstart : s.lineStart n = (s.before n).size - ((s.before n).lastLine).size := rfl
  refine ⟨front, ?_, by omega, by omega, hfirst⟩
  rw [← List.append_assoc, ← hsplit, before_append_after]

theorem slice_lineStart (h : s.Boundary n) :
    s.slice (s.lineStart n) n = (s.before n).lastLine := by
  obtain ⟨front, hs, hfront, hn, -⟩ := eq_append_lastLine h
  have hafter : s.after (s.lineStart n) = (s.before n).lastLine ++ s.after n := by
    have := after_size_append front ((s.before n).lastLine ++ s.after n)
    rwa [← hs, hfront] at this
  have hsize : n - s.lineStart n = ((s.before n).lastLine).size := by omega
  rw [slice, hafter, hsize, before_size_append]

/-- What a removal takes along: either no more than a `;`, or whole lines that are blank but for
the node. -/
theorem removalSpan_cases (hstart : s.Boundary span.start) :
    s.removalSpan span = s.statementSpan span ∨
      ∃ front line rest back, s = front ++ (line ++ s.after span.start) ∧
        s.after (s.statementSpan span).stop = rest ++ back ∧
        front.size = (s.removalSpan span).start ∧
        (s.removalSpan span).start + line.size = span.start ∧
        (s.removalSpan span).stop = (s.statementSpan span).stop + rest.size ∧
        (∀ d ∈ line, isWhite d = true) ∧ '\n' ∉ line ∧ (∀ d ∈ rest, isWhite d = true) ∧
        (back = [] ∨ rest.getLast? = some '\n') := by
  obtain ⟨front, hs, hfront, hn, -⟩ := eq_append_lastLine hstart
  rw [removalSpan]
  split
  · rename_i hcond
    rw [Bool.and_eq_true, slice_lineStart hstart, isBlank, isBlank, List.all_eq_true,
      List.all_eq_true] at hcond
    obtain ⟨hline, hrest⟩ := hcond
    have htail := List.takeWhile_append_dropWhile
      (l := s.after (s.statementSpan span).stop) (p := (· != '\n'))
    split
    · rename_i hdrop
      rw [hdrop, List.append_nil] at htail
      exact .inr ⟨front, (s.before span.start).lastLine, _, [], hs, by rw [htail, List.append_nil],
        hfront, hn, rfl, hline, newline_notMem_lastLine _, hrest, .inl rfl⟩
    · rename_i d back hdrop
      obtain rfl := head_of_dropWhile_newline hdrop
      refine .inr ⟨front, (s.before span.start).lastLine,
        (s.after (s.statementSpan span).stop).takeWhile (· != '\n') ++ ['\n'], back, hs, ?_,
        hfront, hn, ?_, hline, newline_notMem_lastLine _, ?_, .inr (by simp)⟩
      · rw [List.append_assoc, List.singleton_append, ← hdrop, htail]
      · rw [size_append]
        rfl
      · intro d hd
        rcases List.mem_append.mp hd with hd | hd
        · exact hrest d hd
        · rw [List.mem_singleton.mp hd]
          decide
  · left
    rw [← statementSpan_start s span]

theorem removalSpan_start_le (hstart : s.Boundary span.start) :
    (s.removalSpan span).start ≤ span.start := by
  rcases removalSpan_cases hstart with heq | ⟨_, line, _, _, -, -, -, hline, -⟩
  · rw [heq]
    exact (statementSpan_start s span).le
  · omega

theorem stop_le_removalSpan (hstart : s.Boundary span.start) :
    (s.statementSpan span).stop ≤ (s.removalSpan span).stop := by
  rcases removalSpan_cases hstart with heq | ⟨_, _, rest, _, -, -, -, -, hrest, -⟩
  · exact (congrArg Span.stop heq).ge
  · omega

theorem le_removalSpan (hstart : s.Boundary span.start) (hp : s.Closes p)
    (hle : p ≤ span.start) :
    p ≤ (s.removalSpan span).start := by
  rcases removalSpan_cases hstart with heq | ⟨front, line, _, _, hs, -, hf, hl, -, hb, -⟩
  · rwa [heq, statementSpan_start]
  · rw [← hf]
    exact hp.le_of_blank hs hb (by omega)

theorem removalSpan_le (hstart : s.Boundary span.start)
    (hstop : s.Boundary (s.statementSpan span).stop) (hq : s.Opens q)
    (hle : (s.statementSpan span).stop ≤ q) : (s.removalSpan span).stop ≤ q := by
  rcases removalSpan_cases hstart with heq | ⟨_, _, rest, back, -, hs, -, -, hr, -, -, hb, -⟩
  · rwa [heq]
  · have hsize := size_before hstop
    have hsplit : s = s.before (s.statementSpan span).stop ++ (rest ++ back) := by
      rw [← hs, before_append_after]
    have := hq.le_of_blank hsplit hb (by omega)
    omega

/-- Two removals do not meet. -/
theorem removalSpan_le_removalSpan {a b : Span} (ha : s.Boundary a.start)
    (hac : s.Closes (s.statementSpan a).stop) (hb : s.Opens b.start)
    (hle : (s.statementSpan a).stop ≤ b.start) :
    (s.removalSpan a).stop ≤ (s.removalSpan b).start := by
  have hstop : (s.removalSpan a).stop ≤ b.start := removalSpan_le ha hac.boundary hb hle
  rcases removalSpan_cases hb.boundary with heq | ⟨front, line, _, _, hs, -, hf, hl, -, hw, hn, -⟩
  · rwa [heq, statementSpan_start]
  · rcases removalSpan_cases ha with
      heq | ⟨_, _, rest, back, -, hs', -, -, hr, -, -, -, hback⟩
    · -- nothing but a `;` goes with the first, and that is not blank
      rw [heq] at hstop ⊢
      exact le_removalSpan hb.boundary hac hle
    · rcases hback with rfl | hlast
      · -- the first takes the text up to its end
        obtain ⟨c, hc, -⟩ := hb
        have hlt := hc.lt_size
        have hsize := congrArg size (before_append_after (s.statementSpan a).stop s)
        rw [hs', List.append_nil, size_append, size_before hac.boundary] at hsize
        omega
      · -- the first ends with a line feed, and there is none in the line before the second
        obtain ⟨init, rfl⟩ := List.getLast?_eq_some_iff.mp hlast
        have hnl : s.HasBefore (s.removalSpan a).stop '\n' := by
          refine ⟨s.before (s.statementSpan a).stop ++ init, back, ?_, ?_⟩
          · have hsplit := before_append_after (s.statementSpan a).stop s
            rw [hs'] at hsplit
            simpa using hsplit.symm
          · rw [size_append, size_before hac.boundary, hr, size_append]
            rfl
        by_contra hlt
        exact hn (hnl.mem hs (by omega) (by omega))

end RemovalSpan

end Text

end Codemod

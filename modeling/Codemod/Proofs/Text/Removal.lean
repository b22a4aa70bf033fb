import Codemod.Proofs.Text.Edges

/-!
# Codemod.Proofs.Text.Removal

What is deleted when a node goes.

The lines of a text are described by where they begin and end (`BeginsLine`, `EndsLine`), and a
statement by the `;` behind it (`EndsStatement`), without a search through the text. `Removes` says
in these terms what is deleted.

* `removes_removalSpan`, `Removes.unique`: that is what `removalSpan` answers, and nothing else is.
* `Removes.leading`, `Removes.trailing`: blanks, one `;` and a line feed at the end go along with the
  node, and nothing else.
-/

namespace Codemod

namespace Text

/-- The line that holds offset `n` begins at `p`. -/
structure BeginsLine (s : Text) (n p : Nat) : Prop where
  boundary : s.Boundary p
  le : p ≤ n
  first : p = 0 ∨ s.HasBefore p '\n'
  unbroken : '\n' ∉ s.slice p n

/-- The line that holds offset `n` ends at `q`; its line feed stands behind that. -/
structure EndsLine (s : Text) (n q : Nat) : Prop where
  boundary : s.Boundary q
  le : n ≤ q
  last : q = s.size ∨ s.HasAt q '\n'
  unbroken : '\n' ∉ s.slice n q

/-- A `;` that follows offset `n` over spaces and tabs only ends at `m`. -/
structure Marks (s : Text) (n m : Nat) : Prop where
  boundary : s.Boundary m
  le : n ≤ m
  mark : ∃ gap, s.slice n m = gap ++ [';'] ∧ ∀ c ∈ gap, c = ' ' ∨ c = '\t'

/-- The statement whose node ends at `n` ends at `m`, with its `;` if it has one. -/
def EndsStatement (s : Text) (n m : Nat) : Prop :=
  s.Marks n m ∨ m = n ∧ ∀ m', ¬ s.Marks n m'

/-- `cut` is what goes with the node at `span`: the lines that hold it, if there is nothing else on
them but a `;` behind the node, and otherwise the node and its `;`. -/
def Removes (s : Text) (span cut : Span) : Prop :=
  ∃ p m q, s.BeginsLine span.start p ∧ s.EndsStatement span.stop m ∧ s.EndsLine m q ∧
    if (s.slice p span.start).isBlank ∧ (s.slice m q).isBlank then
      cut.start = p ∧ (s.HasAt q '\n' ∧ cut.stop = q + 1 ∨ q = s.size ∧ cut.stop = q)
    else cut = ⟨span.start, m⟩

/-- Blanks with at most one `;`, and with a line feed at most at the end. -/
structure Trailing (t : Text) : Prop where
  blank : ∀ c ∈ t, isWhite c = true ∨ c = ';'
  marks : t.count ';' ≤ 1
  feeds : '\n' ∉ t.dropLast

variable {s : Text} {n m p q : Nat} {span cut : Span}

theorem isIndent_iff {c : Char} : isIndent c = true ↔ c = ' ' ∨ c = '\t' := by
  simp [isIndent]

theorem beginsLine_lineStart (h : s.Boundary n) : s.BeginsLine n (s.lineStart n) := by
  obtain ⟨front, hs, hfront, hn, hfirst⟩ := eq_append_lastLine h
  refine ⟨⟨front, _, hs, hfront⟩, by omega, ?_, ?_⟩
  · rw [← hfront]
    rcases hfirst with rfl | ⟨init, rfl⟩
    · exact .inl rfl
    · refine .inr ⟨init, (s.before n).lastLine ++ s.after n, ?_, ?_⟩
      · simpa using hs
      · rw [size_append]
        rfl
  · rw [slice_lineStart h]
    exact newline_notMem_lastLine _

theorem endsLine_takeWhile (h : s.Boundary n) :
    s.EndsLine n (n + size ((s.after n).takeWhile (· != '\n'))) := by
  have hrest := List.takeWhile_append_dropWhile (p := (· != '\n')) (l := s.after n)
  have hs : s = s.before n ++ ((s.after n).takeWhile (· != '\n') ++
      (s.after n).dropWhile (· != '\n')) := by
    rw [hrest, before_append_after]
  have hsize : size (s.before n ++ (s.after n).takeWhile (· != '\n')) =
      n + size ((s.after n).takeWhile (· != '\n')) := by
    rw [size_append, size_before h]
  refine ⟨⟨_, _, by rw [List.append_assoc]; exact hs, hsize⟩, Nat.le_add_right _ _, ?_, ?_⟩
  · cases hback : (s.after n).dropWhile (· != '\n') with
    | nil =>
      left
      rw [hback, List.append_nil] at hs
      exact hsize.symm.trans (congrArg size hs.symm)
    | cons d back =>
      obtain rfl := head_of_dropWhile_newline hback
      rw [hback, ← List.append_assoc] at hs
      exact .inr ⟨_, back, hs, hsize⟩
  · rw [slice_of_split hs (size_before h) rfl]
    intro hmem
    have := List.mem_takeWhile_imp hmem
    simp at this

theorem endsStatement_statementSpan (h : s.Boundary span.stop) :
    s.EndsStatement span.stop (s.statementSpan span).stop := by
  have hgap : ∀ c ∈ (s.after span.stop).takeWhile isIndent, c = ' ' ∨ c = '\t' := by
    intro c hc
    exact isIndent_iff.mp (List.mem_takeWhile_imp hc)
  rw [statementSpan]
  split
  · rename_i back hback
    have hs : s = s.before span.stop ++ (((s.after span.stop).takeWhile isIndent ++ [';']) ++
        back) := by
      rw [List.append_assoc, List.singleton_append, ← hback, List.takeWhile_append_dropWhile,
        before_append_after]
    have hsize : span.stop + size ((s.after span.stop).takeWhile isIndent ++ [';']) =
        span.stop + size ((s.after span.stop).takeWhile isIndent) + 1 := by
      rw [size_append, ← Nat.add_assoc]
      rfl
    refine .inl ⟨⟨_, back, by rw [List.append_assoc]; exact hs, ?_⟩, ?_, _, ?_, hgap⟩
    · rw [size_append, size_before h, hsize]
    · show span.stop ≤ span.stop + _ + 1
      omega
    · exact slice_of_split hs (size_before h) hsize
  · rename_i hnone
    refine .inr ⟨rfl, ?_⟩
    rintro m' ⟨hm, hle, gap, hmark, hblank⟩
    have hafter := slice_append_after h hm hle
    have hindent : ∀ c ∈ gap, isIndent c = true := by
      intro c hc
      exact isIndent_iff.mpr (hblank c hc)
    apply hnone (s.after m')
    rw [← hafter, hmark, List.append_assoc, List.dropWhile_append_of_pos hindent]
    rfl

theorem EndsStatement.boundary (h : s.EndsStatement n m) (hn : s.Boundary n) : s.Boundary m := by
  rcases h with hmarks | ⟨rfl, -⟩
  · exact hmarks.boundary
  · exact hn

theorem EndsStatement.le (h : s.EndsStatement n m) : n ≤ m := by
  rcases h with hmarks | ⟨rfl, -⟩
  · exact hmarks.le
  · exact Nat.le_refl _

theorem BeginsLine.unique (h : s.BeginsLine n p) (h' : s.BeginsLine n q) (hn : s.Boundary n) :
    p = q := by
  -- the later one would have its line feed on the line that begins at the earlier one
  have hle {p q : Nat} (h : s.BeginsLine n p) (h' : s.BeginsLine n q) : q ≤ p := by
    by_contra hlt
    rcases h'.first with hzero | hfeed
    · omega
    · exact h.unbroken (hfeed.mem_slice h.boundary hn (by omega) h'.le)
  exact Nat.le_antisymm (hle h' h) (hle h h')

theorem EndsLine.unique (h : s.EndsLine n p) (h' : s.EndsLine n q) (hn : s.Boundary n) :
    p = q := by
  have hle {p q : Nat} (h : s.EndsLine n p) (h' : s.EndsLine n q) : q ≤ p := by
    by_contra hlt
    rcases h.last with hsize | hfeed
    · have := h'.boundary.le_size
      omega
    · exact h'.unbroken (hfeed.mem_slice hn h'.boundary h.le (by omega))
  exact Nat.le_antisymm (hle h' h) (hle h h')

theorem Marks.unique (h : s.Marks n p) (h' : s.Marks n q) (hn : s.Boundary n) : p = q := by
  -- a second `;` would have the first one among the spaces and tabs in front of it
  have hle {p q : Nat} (h : s.Marks n p) (h' : s.Marks n q) : q ≤ p := by
    by_contra hlt
    obtain ⟨gap, hmark, -⟩ := h.mark
    obtain ⟨gap', hmark', hblank'⟩ := h'.mark
    have hsize := size_slice h.boundary h'.boundary (by omega)
    have hrest : s.slice p q ≠ [] := by
      intro hnil
      rw [hnil, size_nil] at hsize
      omega
    have hsplit : gap ++ ';' :: s.slice p q = gap' ++ [';'] := by
      rw [← hmark', ← slice_append_slice hn h.boundary h'.boundary h.le (by omega), hmark,
        List.append_assoc, List.singleton_append]
    have hgap := congrArg List.dropLast hsplit
    rw [List.dropLast_concat, List.dropLast_append_of_ne_nil (List.cons_ne_nil _ _),
      List.dropLast_cons_of_ne_nil hrest] at hgap
    have hmem : ';' ∈ gap' := by
      rw [← hgap]
      simp
    exact absurd (hblank' _ hmem) (by decide)
  exact Nat.le_antisymm (hle h' h) (hle h h')

theorem EndsStatement.unique (h : s.EndsStatement n p) (h' : s.EndsStatement n q)
    (hn : s.Boundary n) : p = q := by
  rcases h with hmarks | ⟨rfl, hnone⟩
  · rcases h' with hmarks' | ⟨-, hnone'⟩
    · exact hmarks.unique hmarks' hn
    · exact absurd hmarks (hnone' p)
  · rcases h' with hmarks' | ⟨rfl, -⟩
    · exact absurd hmarks' (hnone q)
    · rfl

/-- Only one piece of the text goes with a node. -/
theorem Removes.unique {cut' : Span} (h : s.Removes span cut) (h' : s.Removes span cut')
    (hstart : s.Boundary span.start) (hstop : s.Boundary span.stop) : cut = cut' := by
  obtain ⟨p, m, q, hbegins, hmark, hends, hcases⟩ := h
  obtain ⟨p', m', q', hbegins', hmark', hends', hcases'⟩ := h'
  obtain rfl := hbegins.unique hbegins' hstart
  obtain rfl := hmark.unique hmark' hstop
  obtain rfl := hends.unique hends' (hmark.boundary hstop)
  split at hcases
  · rename_i hblank
    rw [if_pos hblank] at hcases'
    obtain ⟨hfirst, hlast⟩ := hcases
    obtain ⟨hfirst', hlast'⟩ := hcases'
    have hstops : cut.stop = cut'.stop := by
      rcases hlast with ⟨hfeed, hend⟩ | ⟨hsize, hend⟩
      · rcases hlast' with ⟨-, hend'⟩ | ⟨hsize', -⟩
        · rw [hend, hend']
        · exact absurd hsize' (Nat.ne_of_lt hfeed.lt_size)
      · rcases hlast' with ⟨hfeed', -⟩ | ⟨-, hend'⟩
        · exact absurd hsize (Nat.ne_of_lt hfeed'.lt_size)
        · rw [hend, hend']
    cases cut
    cases cut'
    exact congrArg₂ Span.mk (hfirst.trans hfirst'.symm) hstops
  · rename_i hblank
    rw [if_neg hblank] at hcases'
    rw [hcases, hcases']

/-- The lines that a node begins and ends on decide what goes with it. -/
theorem removes_removalSpan (hstart : s.Boundary span.start) (hstop : s.Boundary span.stop) :
    s.Removes span (s.removalSpan span) := by
  have hmark := endsStatement_statementSpan hstop
  have hm := hmark.boundary hstop
  refine ⟨_, _, _, beginsLine_lineStart hstart, hmark, endsLine_takeWhile hm, ?_⟩
  have hrest := List.takeWhile_append_dropWhile (p := (· != '\n'))
    (l := s.after (s.statementSpan span).stop)
  have hs : s = s.before (s.statementSpan span).stop ++
      ((s.after (s.statementSpan span).stop).takeWhile (· != '\n') ++
        (s.after (s.statementSpan span).stop).dropWhile (· != '\n')) := by
    rw [hrest, before_append_after]
  rw [slice_of_split hs (size_before hm) rfl]
  split
  · rename_i hblank
    rw [removalSpan, if_pos (Bool.and_eq_true_iff.mpr hblank)]
    split
    · rename_i hback
      rw [hback, List.append_nil] at hs
      refine ⟨rfl, .inr ⟨?_, rfl⟩⟩
      have hsize := congrArg size hs
      rw [size_append, size_before hm] at hsize
      exact hsize.symm
    · rename_i d back hback
      obtain rfl := head_of_dropWhile_newline hback
      rw [hback, ← List.append_assoc] at hs
      refine ⟨rfl, .inl ⟨⟨_, back, hs, ?_⟩, rfl⟩⟩
      rw [size_append, size_before hm]
  · rename_i hblank
    rw [removalSpan, if_neg fun h => hblank (Bool.and_eq_true_iff.mp h)]

theorem isWhite_of_isBlank {t : Text} (h : t.isBlank = true) : ∀ c ∈ t, isWhite c = true :=
  List.all_eq_true.mp h

/-- The end of a statement stands on its line. -/
theorem EndsStatement.trailing (h : s.EndsStatement n m) :
    Trailing (s.slice n m) ∧ '\n' ∉ s.slice n m := by
  rcases h with ⟨-, -, gap, hmark, hgap⟩ | ⟨rfl, -⟩
  · have hfeed : '\n' ∉ gap := by
      intro hmem
      exact absurd (hgap _ hmem) (by decide)
    have hcount : gap.count ';' = 0 := by
      refine List.count_eq_zero.mpr ?_
      intro hmem
      exact absurd (hgap _ hmem) (by decide)
    rw [hmark]
    refine ⟨⟨?_, ?_, ?_⟩, ?_⟩
    · intro c hc
      rcases List.mem_append.mp hc with hc | hc
      · exact .inl (isWhite_of_isIndent (isIndent_iff.mpr (hgap c hc)))
      · exact .inr (List.mem_singleton.mp hc)
    · rw [List.count_append, hcount]
      decide
    · rw [List.dropLast_concat]
      exact hfeed
    · simp [hfeed]
  · rw [slice_self]
    exact ⟨⟨by simp, by simp, by simp⟩, by simp⟩

/-- What is blank up to a line feed at the end may follow it. -/
theorem Trailing.append {t rest : Text} (h : Trailing t) (hfeed : '\n' ∉ t)
    (hblank : ∀ c ∈ rest, isWhite c = true) (hrest : '\n' ∉ rest.dropLast) :
    Trailing (t ++ rest) := by
  have hcount : rest.count ';' = 0 := by
    refine List.count_eq_zero.mpr ?_
    intro hmem
    exact absurd (hblank _ hmem) (by decide)
  refine ⟨?_, ?_, ?_⟩
  · intro c hc
    rcases List.mem_append.mp hc with hc | hc
    · exact h.blank c hc
    · exact .inl (hblank c hc)
  · rw [List.count_append, hcount]
    exact h.marks
  · cases rest with
    | nil =>
      rw [List.append_nil]
      exact h.feeds
    | cons c rest =>
      rw [List.dropLast_append_of_ne_nil (List.cons_ne_nil c rest), List.mem_append, not_or]
      exact ⟨hfeed, hrest⟩

theorem slice_succ (hn : s.Boundary n) (hle : n ≤ q) (h : s.HasAt q '\n') :
    s.Boundary (q + 1) ∧ s.slice n (q + 1) = s.slice n q ++ ['\n'] := by
  obtain ⟨front, back, hs, hsize⟩ := h
  have hs' : s = front ++ (['\n'] ++ back) := hs
  have hnext : s.Boundary (q + 1) := by
    refine ⟨front ++ ['\n'], back, by simpa using hs, ?_⟩
    rw [size_append, hsize]
    rfl
  refine ⟨hnext, ?_⟩
  rw [← slice_append_slice hn ⟨front, _, hs, hsize⟩ hnext hle (Nat.le_succ q),
    slice_of_split hs' hsize (show q + size ['\n'] = q + 1 from rfl)]

/-- In front of the node nothing goes but blanks on its line. -/
theorem Removes.leading (h : s.Removes span cut) (hstart : s.Boundary span.start) :
    s.Boundary cut.start ∧ cut.start ≤ span.start ∧
      ∀ c ∈ s.slice cut.start span.start, isWhite c = true ∧ c ≠ '\n' := by
  obtain ⟨p, m, q, hbegins, -, -, hcases⟩ := h
  split at hcases
  · rename_i hblank
    obtain ⟨rfl, -⟩ := hcases
    refine ⟨hbegins.boundary, hbegins.le, ?_⟩
    intro c hc
    refine ⟨isWhite_of_isBlank hblank.1 c hc, ?_⟩
    rintro rfl
    exact hbegins.unbroken hc
  · subst hcases
    simp [hstart]

/-- Behind the node nothing goes but blanks and a `;`, and nothing behind a line feed. -/
theorem Removes.trailing (h : s.Removes span cut) (hstop : s.Boundary span.stop) :
    s.Boundary cut.stop ∧ span.stop ≤ cut.stop ∧ Trailing (s.slice span.stop cut.stop) := by
  obtain ⟨p, m, q, -, hmark, hends, hcases⟩ := h
  have hm := hmark.boundary hstop
  obtain ⟨htrailing, hfeed⟩ := hmark.trailing
  split at hcases
  · rename_i hblank
    have hwhite := isWhite_of_isBlank hblank.2
    obtain ⟨-, ⟨hat, heq⟩ | ⟨-, heq⟩⟩ := hcases
    · obtain ⟨hnext, hline⟩ := slice_succ hm hends.le hat
      rw [heq]
      refine ⟨hnext, by have := hmark.le; have := hends.le; omega, ?_⟩
      rw [← slice_append_slice hstop hm hnext hmark.le (Nat.le_succ_of_le hends.le), hline]
      refine htrailing.append hfeed ?_ ?_
      · intro c hc
        rcases List.mem_append.mp hc with hc | hc
        · exact hwhite c hc
        · rw [List.mem_singleton.mp hc]
          decide
      · rw [List.dropLast_concat]
        exact hends.unbroken
    · rw [heq]
      refine ⟨hends.boundary, Nat.le_trans hmark.le hends.le, ?_⟩
      rw [← slice_append_slice hstop hm hends.boundary hmark.le hends.le]
      exact htrailing.append hfeed hwhite fun hmem =>
        hends.unbroken ((List.dropLast_sublist _).subset hmem)
  · subst hcases
    exact ⟨hm, hmark.le, htrailing⟩

/-- A removal takes a node and what belongs to it: in front of the node blanks on its line, behind it
blanks, at most one `;`, and a line feed at most at the end. The lines go as a whole where they hold
nothing but the statement; otherwise nothing goes but the node and its `;`. -/
theorem removalSpan_exact (span : Span) (hstart : s.Boundary span.start)
    (hstop : s.Boundary span.stop) :
    s.Boundary (s.removalSpan span).start ∧ s.Boundary (s.removalSpan span).stop ∧
      (s.removalSpan span).start ≤ span.start ∧ span.stop ≤ (s.removalSpan span).stop ∧
      (s.removalSpan span).stop ≤ s.size ∧
      (∀ c ∈ s.slice (s.removalSpan span).start span.start, isWhite c = true ∧ c ≠ '\n') ∧
      Trailing (s.slice span.stop (s.removalSpan span).stop) ∧
      ∀ cut, s.Removes span cut ↔ cut = s.removalSpan span := by
  have h := removes_removalSpan hstart hstop
  obtain ⟨hfirst, hle, hleading⟩ := h.leading hstart
  obtain ⟨hlast, hle', htrailing⟩ := h.trailing hstop
  refine ⟨hfirst, hlast, hle, hle', hlast.le_size, hleading, htrailing, ?_⟩
  intro cut
  constructor
  · intro hcut
    exact hcut.unique h hstart hstop
  · rintro rfl
    exact h

/-- A declaration on two lines of its own, with a `;` after a tab and with a line separator and a
carriage return behind that, and a number that is not alone on its line. -/
theorem removalSpan_exact_two_lines :
    let s : Text := "é = 1\r\n  const a = [\n  'é'] \t;\u2028\r\nb".toList
    (s.Boundary 10 ∧ s.Boundary 29 ∧ s.removalSpan ⟨10, 29⟩ = ⟨8, 37⟩ ∧
      Trailing (s.slice 29 (s.removalSpan ⟨10, 29⟩).stop) ∧
      s.Removes ⟨10, 29⟩ (s.removalSpan ⟨10, 29⟩)) ∧
    s.Boundary 5 ∧ s.Boundary 6 ∧ s.removalSpan ⟨5, 6⟩ = ⟨5, 6⟩ ∧
      s.Removes ⟨5, 6⟩ (s.removalSpan ⟨5, 6⟩) := by
  intro s
  have hfirst : s.Boundary 10 := by decide
  have hlast : s.Boundary 29 := by decide
  have hfirst' : s.Boundary 5 := by decide
  have hlast' : s.Boundary 6 := by decide
  obtain ⟨-, -, -, -, -, -, htrailing, hremoves⟩ := removalSpan_exact ⟨10, 29⟩ hfirst hlast
  obtain ⟨-, -, -, -, -, -, -, hremoves'⟩ := removalSpan_exact ⟨5, 6⟩ hfirst' hlast'
  exact ⟨⟨hfirst, hlast, by decide, htrailing, (hremoves _).mpr rfl⟩, hfirst', hlast', by decide,
    (hremoves' _).mpr rfl⟩

end Text

end Codemod

import Codemod.Proofs.Text.Edges
import Codemod.Script
import Mathlib.Data.List.Induction
import Mathlib.Data.Prod.Lex

/-!
# Codemod.Proofs.Text.Location

Lines and columns, and the offsets that they stand for.

* `location_eq_foldl`: counting the line feeds of a text and the characters of its last line comes
  to the same as walking over the text and moving on at every character (`passed`).
* `lt_passed`, `lt_foldl_passed`: such a walk only goes forward, in the order of lines and then of
  columns.
* `location32_toNat`: numbers of 32 bits are wide enough for a text below 4 GiB.
* `location_identifies`: different boundaries have different locations, in the order in which they
  stand, and the location of a parse fault is that of one boundary only.
-/

namespace Codemod

namespace Text

/-- The line and column behind a character that stands at `p`. -/
def passed (p : Nat × Nat) (c : Char) : Nat × Nat :=
  if c = '\n' then (p.1 + 1, 1) else (p.1, p.2 + 1)

variable {s t : Text} {n : Nat} {c : Char} {p : Nat × Nat}

theorem lastLine_concat (t : Text) (c : Char) :
    lastLine (t ++ [c]) = if c = '\n' then [] else t.lastLine ++ [c] := by
  rw [lastLine, List.reverse_append, List.reverse_singleton, List.singleton_append,
    List.takeWhile_cons]
  by_cases h : c = '\n'
  · simp [h]
  · simp [h, lastLine]

theorem location_eq_foldl (s : Text) (n : Nat) :
    s.location n = (s.before n).foldl passed (1, 1) := by
  show ((s.before n).count '\n' + 1, (s.before n).lastLine.length + 1) = _
  generalize s.before n = head
  induction head using List.reverseRecOn with
  | nil => rfl
  | append_singleton t c ih =>
    rw [List.foldl_append, List.foldl_cons, List.foldl_nil, ← ih, passed, lastLine_concat,
      List.count_append]
    split
    · next h => simp [h]
    · next h => simp [h]

theorem lt_passed (p : Nat × Nat) (c : Char) : toLex p < toLex (passed p c) := by
  rw [Prod.Lex.toLex_lt_toLex, passed]
  split
  · exact .inl (Nat.lt_succ_self p.1)
  · exact .inr ⟨rfl, Nat.lt_succ_self p.2⟩

theorem lt_foldl_passed (p : Nat × Nat) (h : t ≠ []) : toLex p < toLex (t.foldl passed p) := by
  induction t generalizing p with
  | nil => exact absurd rfl h
  | cons c cs ih =>
    have hstep := lt_passed p c
    by_cases hcs : cs = []
    · rw [hcs]
      exact hstep
    · exact hstep.trans (ih (passed p c) hcs)

theorem one_le_passed (hp : 1 ≤ p.2) (c : Char) : 1 ≤ (passed p c).2 := by
  rw [passed]
  split
  · exact Nat.le_refl 1
  · exact Nat.le_succ_of_le hp

/-- A new line begins with a smaller column, so line and column together rise by one at most. -/
theorem passed_le (hp : 1 ≤ p.2) (c : Char) : (passed p c).1 + (passed p c).2 ≤ p.1 + p.2 + 1 := by
  rw [passed]
  split
  · show p.1 + 1 + 1 ≤ p.1 + p.2 + 1
    omega
  · exact Nat.le_refl _

theorem foldl_passed_le (hp : 1 ≤ p.2) :
    (t.foldl passed p).1 + (t.foldl passed p).2 ≤ p.1 + p.2 + t.size := by
  induction t generalizing p with
  | nil => exact Nat.le_refl _
  | cons c cs ih =>
    have hstep := passed_le hp c
    have hrest := ih (one_le_passed hp c)
    have hpos := c.utf8Size_pos
    rw [List.foldl_cons, size_cons]
    omega

theorem before_of_size_le (h : s.size ≤ n) : s.before n = s := by
  induction s generalizing n with
  | nil => rfl
  | cons c cs ih =>
    rw [size_cons] at h
    rw [before, if_pos (by omega), ih (by omega)]

theorem HasAt.before_next (h : s.HasAt n c) : s.before (n + c.utf8Size) = s.before n ++ [c] := by
  obtain ⟨front, back, rfl, rfl⟩ := h
  have hnext := before_size_append (front ++ [c]) back
  rw [size_append, size_cons, size_nil, Nat.add_zero, List.append_assoc,
    List.singleton_append] at hnext
  rw [hnext, before_size_append]

/-- Behind a character the line and the column have moved on by it. -/
theorem location_next (h : s.HasAt n c) :
    s.location (n + c.utf8Size) = passed (s.location n) c := by
  rw [location_eq_foldl, location_eq_foldl, h.before_next, List.foldl_append, List.foldl_cons,
    List.foldl_nil]

theorem location_of_size_le (h : s.size ≤ n) : s.location n = s.location s.size := by
  rw [location_eq_foldl, location_eq_foldl, before_of_size_le h, before_size]

theorem location_lt {a b : Nat} (ha : s.Boundary a) (hb : s.Boundary b) (h : a < b) :
    toLex (s.location a) < toLex (s.location b) := by
  -- the walk to `b` goes on from `a` over what lies between them
  have hslice : s.slice a b ≠ [] := by
    intro hnil
    have hsize := size_slice ha hb h.le
    rw [hnil, size_nil] at hsize
    omega
  rw [location_eq_foldl s a, location_eq_foldl s b, ← before_append_slice ha hb h.le,
    List.foldl_append]
  exact lt_foldl_passed _ hslice

theorem location_strictMonoOn (s : Text) :
    StrictMonoOn (fun n => toLex (s.location n)) {n | s.Boundary n} := by
  intro a ha b hb h
  exact location_lt ha hb h

theorem location_injOn (s : Text) : Set.InjOn s.location {n | s.Boundary n} := by
  intro a ha b hb h
  exact (location_strictMonoOn s).injOn ha hb (congrArg toLex h)

theorem location_le (s : Text) (n : Nat) : (s.location n).1 + (s.location n).2 ≤ s.size + 2 := by
  have hwalk := foldl_passed_le (t := s.before n) (p := (1, 1)) (Nat.le_refl 1)
  have hsize := congrArg size (before_append_after n s)
  rw [size_append] at hsize
  rw [location_eq_foldl]
  omega

/-- Line and column as numbers of 32 bits, which begin again at zero when they overflow. -/
def location32 (s : Text) (n : Nat) : UInt32 × UInt32 :=
  let head := s.before n
  (.ofNat (head.count '\n') + 1, .ofNat head.lastLine.length + 1)

theorem toNat_ofNat_add_one (h : n + 1 < UInt32.size) : (UInt32.ofNat n + 1).toNat = n + 1 := by
  have hsum : UInt32.ofNat n + 1 = UInt32.ofNat (n + 1) := (UInt32.ofNat_add n 1).symm
  rw [hsum, UInt32.toNat_ofNat_of_lt' h]

/-- Below 4 GiB nothing overflows. -/
theorem location32_toNat (h : s.size + 1 < UInt32.size) (n : Nat) :
    ((s.location32 n).1.toNat, (s.location32 n).2.toNat) = s.location n := by
  have hle : (s.before n).count '\n' + 1 + ((s.before n).lastLine.length + 1) ≤ s.size + 2 :=
    location_le s n
  have hline := toNat_ofNat_add_one (n := (s.before n).count '\n') (by omega)
  have hcolumn := toNat_ofNat_add_one (n := (s.before n).lastLine.length) (by omega)
  exact Prod.ext hline hcolumn

/-- Every offset has the location of one boundary: the last one that is not behind it. -/
theorem existsUnique_boundary (s : Text) (n : Nat) :
    ∃! m, s.Boundary m ∧ s.location m = s.location n := by
  have hboundary : s.Boundary (s.before n).size :=
    ⟨s.before n, s.after n, (before_append_after n s).symm, rfl⟩
  have hbefore : s.before (s.before n).size = s.before n := by
    have h := before_size_append (s.before n) (s.after n)
    rwa [before_append_after] at h
  have hsame : s.location (s.before n).size = s.location n := by
    rw [location_eq_foldl, location_eq_foldl, hbefore]
  refine ⟨(s.before n).size, ⟨hboundary, hsame⟩, ?_⟩
  rintro m ⟨hm, hlocation⟩
  exact location_injOn s hm hboundary (hlocation.trans hsame.symm)

/-- A parse fault reports the location of the offset that the first dialect failed at. -/
theorem exists_location_of_parse {path : Path} {fault : ParseFault}
    (h : Script.parse path s = .error fault) :
    ∃ offset, Script.firstParse s (Dialect.forPath path) = .error offset ∧
      (fault.line, fault.column) = s.location offset := by
  rw [Script.parse] at h
  split at h
  · cases h
  · next offset hoffset =>
    cases h
    exact ⟨offset, hoffset, rfl⟩

/-- Locations begin with line 1 and column 1 and move on at every character, to the next line behind
a line feed and to the next column behind anything else. So they rise from boundary to boundary, no
two boundaries share one, and offsets past the end have that of the end. Line and column together
exceed the size of the text by two at most, so numbers of 32 bits hold them for a text below 4 GiB.
What a parse fault reports is the location of the offset where reading failed, and of exactly one
place of the text. -/
theorem location_identifies (s : Text) :
    s.location 0 = (1, 1) ∧
    (∀ n c, s.HasAt n c → s.location (n + c.utf8Size) = passed (s.location n) c) ∧
    StrictMonoOn (fun n => toLex (s.location n)) {n | s.Boundary n} ∧
    Set.InjOn s.location {n | s.Boundary n} ∧
    (∀ n, s.size ≤ n → s.location n = s.location s.size) ∧
    (∀ n, (s.location n).1 + (s.location n).2 ≤ s.size + 2) ∧
    (s.size + 1 < UInt32.size →
      ∀ n, ((s.location32 n).1.toNat, (s.location32 n).2.toNat) = s.location n) ∧
    ∀ path fault, Script.parse path s = .error fault →
      ∃ offset, Script.firstParse s (Dialect.forPath path) = .error offset ∧
        (fault.line, fault.column) = s.location offset ∧
        ∃! n, s.Boundary n ∧ s.location n = (fault.line, fault.column) := by
  refine ⟨?_, fun n c h => location_next h, location_strictMonoOn s, location_injOn s,
    fun n h => location_of_size_le h, location_le s, location32_toNat, ?_⟩
  · rw [location_eq_foldl, ← slice_zero, slice_self]
    rfl
  · intro path fault h
    obtain ⟨offset, hoffset, hlocation⟩ := exists_location_of_parse h
    refine ⟨offset, hoffset, hlocation, ?_⟩
    rw [hlocation]
    exact existsUnique_boundary s offset

/-- A call that is left open behind a string, with characters of one, two and four bytes on two
lines. -/
theorem location_identifies_open_call :
    let s : Text := "é\n'𝄞' (".toList
    let fault : ParseFault := ⟨⟨"a.js"⟩, 2, 6, "unexpected token"⟩
    (s.HasAt 4 '𝄞' ∧ s.location 8 = (2, 3)) ∧
    (s.HasAt 2 '\n' ∧ s.location 3 = (2, 1)) ∧
    (s.Boundary 2 ∧ s.Boundary 8 ∧ toLex (s.location 2) < toLex (s.location 8) ∧
      s.location 2 ≠ s.location 8) ∧
    (s.size ≤ 20 ∧ s.location 20 = s.location 11) ∧
    (s.size + 1 < UInt32.size ∧
      ((s.location32 11).1.toNat, (s.location32 11).2.toNat) = s.location 11) ∧
    Script.parse ⟨"a.js"⟩ s = .error fault ∧
      ∃ offset, Script.firstParse s (Dialect.forPath ⟨"a.js"⟩) = .error offset ∧
        (fault.line, fault.column) = s.location offset ∧
        ∃! n, s.Boundary n ∧ s.location n = (fault.line, fault.column) := by
  intro s fault
  obtain ⟨-, hnext, hrises, hdiffer, hend, -, hfits, hplace⟩ := location_identifies s
  have hclef : s.HasAt 4 '𝄞' := ⟨"é\n'".toList, "' (".toList, rfl, rfl⟩
  have hfeed : s.HasAt 2 '\n' := ⟨"é".toList, "'𝄞' (".toList, rfl, rfl⟩
  have hfirst : s.Boundary 2 := hfeed.boundary
  have hlast : s.Boundary 8 := by decide
  have hne : s.location 2 ≠ s.location 8 := by
    intro h
    exact absurd (hdiffer hfirst hlast h) (by decide)
  have hfault : (match Script.parse ⟨"a.js"⟩ s with
      | .ok _ => none
      | .error f => some f) = some fault := by decide +kernel
  have hparse : Script.parse ⟨"a.js"⟩ s = .error fault := by
    split at hfault
    · cases hfault
    · next f hf => exact hf.trans (congrArg Except.error (Option.some.inj hfault))
  exact ⟨⟨hclef, (hnext 4 '𝄞' hclef).trans (by decide)⟩,
    ⟨hfeed, (hnext 2 '\n' hfeed).trans (by decide)⟩,
    ⟨hfirst, hlast, hrises hfirst hlast (by decide), hne⟩, ⟨by decide, hend 20 (by decide)⟩,
    ⟨by decide, hfits (by decide) 11⟩, hparse, hplace _ _ hparse⟩

end Text

end Codemod

import Codemod.Module.ConfigObject
import Codemod.Proofs.Disk
import Codemod.Proofs.Path
import Codemod.Proofs.Project.BuildConfig
import Codemod.Proofs.Syntax.Parser

/-!
# Codemod.Proofs.Module.Outdent

What happens to the text of an object that moves to a module of its own.

The lines after the first one are moved to the left. All that is taken away are cuts: pieces of
blanks, each directly behind a line feed.

* `Text.outside`: what is left of a text once some spans are cut out of it.
* `shiftLines_eq`: the lines that are written are the lines that were there, less the cuts.
* `not_meets_literal`: no cut meets a string or a template.
* `asModule_outdents`: the module holds the text of the object less the cuts, and in it every string
  and every template as it was, in the order in which they were.
-/

namespace Codemod

namespace Text

/-- The characters of a text, which begins at `offset`, that lie in none of the cuts. -/
def outside (cuts : List Span) (offset : Nat) : Text → Text
  | [] => []
  | c :: cs =>
    let rest := outside cuts (offset + c.utf8Size) cs
    if cuts.any fun cut => cut.start ≤ offset && offset < cut.stop then rest else c :: rest

section Outside

variable {cuts : List Span} {offset : Nat}

theorem outside_append (s t : Text) :
    outside cuts offset (s ++ t) = outside cuts offset s ++ outside cuts (offset + s.size) t := by
  induction s generalizing offset with
  | nil => rfl
  | cons c cs ih =>
    simp only [List.cons_append, outside, ih, size_cons, Nat.add_assoc]
    split <;> rfl

/-- A piece of text that no cut meets stays as it is. -/
theorem outside_of_free {s : Text}
    (h : ∀ cut ∈ cuts, cut.stop ≤ offset ∨ offset + s.size ≤ cut.start) :
    outside cuts offset s = s := by
  induction s generalizing offset with
  | nil => rfl
  | cons c cs ih =>
    have hpos := c.utf8Size_pos
    have hfree : (cuts.any fun cut => cut.start ≤ offset && offset < cut.stop) = false := by
      rw [List.any_eq_false]
      intro cut hcut
      have := h cut hcut
      rw [size_cons] at this
      simp only [Bool.and_eq_true, decide_eq_true_eq]
      omega
    have hrest : outside cuts (offset + c.utf8Size) cs = cs := by
      refine ih fun cut hcut => ?_
      have := h cut hcut
      rw [size_cons] at this
      omega
    simp only [outside, hfree, hrest]
    rfl

/-- Nothing is left of a piece of text in a cut. -/
theorem outside_of_mem {s : Text} {cut : Span} (hcut : cut ∈ cuts) (hstart : cut.start ≤ offset)
    (hstop : offset + s.size ≤ cut.stop) : outside cuts offset s = [] := by
  induction s generalizing offset with
  | nil => rfl
  | cons c cs ih =>
    have hpos := c.utf8Size_pos
    rw [size_cons] at hstop
    have hin : (cuts.any fun cut => cut.start ≤ offset && offset < cut.stop) = true := by
      refine List.any_eq_true.mpr ⟨cut, hcut, ?_⟩
      simp only [Bool.and_eq_true, decide_eq_true_eq]
      omega
    simp only [outside, hin, if_true]
    exact ih (by omega) (by omega)

end Outside

/-- Lines, each with the line feed before it. -/
def ofLines (lines : List Text) : Text :=
  lines.flatMap ('\n' :: ·)

theorem ofLines_cons (line : Text) (lines : List Text) :
    ofLines (line :: lines) = ['\n'] ++ (line ++ ofLines lines) := by
  rw [ofLines, List.flatMap_cons]
  rfl

theorem eq_of_splitAt {s first : Text} {lines : List Text}
    (h : splitAt '\n' s = first :: lines) : s = first ++ ofLines lines := by
  induction s generalizing first lines with
  | nil =>
    cases h
    rfl
  | cons c cs ih =>
    rw [splitAt] at h
    split at h
    · rename_i hc
      obtain ⟨line, rest, hsplit⟩ := List.exists_cons_of_ne_nil (splitAt_ne_nil '\n' cs)
      rw [hsplit] at h
      cases h
      rw [hc, ih hsplit]
      rfl
    · obtain ⟨line, rest, hsplit⟩ := List.exists_cons_of_ne_nil (splitAt_ne_nil '\n' cs)
      rw [hsplit] at h
      cases h
      rw [ih hsplit]
      rfl

end Text

namespace ObjectLiteral

variable {literals : List Span} {indent line : Text} {lines : List Text} {offset : Nat} {cut : Span}

/-- What is cut out of a line that begins at `offset`. -/
def lineCuts (literals : List Span) (indent : Text) (offset : Nat) (line : Text) : List Span :=
  if literals.any fun span => span.start < offset && offset < span.stop then []
  else if indent.isPrefixOf line then [⟨offset, offset + indent.size⟩] else []

def cuts (literals : List Span) (indent : Text) (offset : Nat) : List Text → List Span
  | [] => []
  | line :: lines =>
    lineCuts literals indent offset line ++ cuts literals indent (offset + line.size + 1) lines

/-- A cut takes the indentation away from a line that does not begin inside a literal. -/
theorem mem_lineCuts (h : cut ∈ lineCuts literals indent offset line) :
    cut = ⟨offset, offset + indent.size⟩ ∧ (∃ rest, line = indent ++ rest) ∧
      ∀ span ∈ literals, offset ≤ span.start ∨ span.stop ≤ offset := by
  unfold lineCuts at h
  split at h
  · cases h
  · rename_i hliteral
    split at h
    · rename_i hprefix
      obtain ⟨rest, hrest⟩ := List.isPrefixOf_iff_prefix.mp hprefix
      refine ⟨List.mem_singleton.mp h, ⟨rest, hrest.symm⟩, ?_⟩
      intro span hspan
      rw [Bool.not_eq_true, List.any_eq_false] at hliteral
      have := hliteral span hspan
      simp only [Bool.and_eq_true, decide_eq_true_eq] at this
      omega
    · cases h

theorem le_of_mem_cuts (h : cut ∈ cuts literals indent offset lines) : offset ≤ cut.start := by
  induction lines generalizing offset with
  | nil => cases h
  | cons line lines ih =>
    rcases List.mem_append.mp h with h | h
    · rw [(mem_lineCuts h).1]
    · have := ih h
      omega

/-- Of a line its own cuts take away what has to be taken away, and no others meet it. -/
theorem outside_line (literals : List Span) (indent : Text) {earlier later : List Span}
    (hearlier : ∀ cut ∈ earlier, cut.stop ≤ offset)
    (hlater : ∀ cut ∈ later, offset + line.size ≤ cut.start) :
    Text.outside (earlier ++ (lineCuts literals indent offset line ++ later)) offset line =
      if literals.any fun span => span.start < offset && offset < span.stop then line
      else unindent indent line := by
  have hothers {own : List Span} {start : Nat} {piece : Text} (hle : offset ≤ start)
      (hsize : start + piece.size ≤ offset + line.size)
      (hown : ∀ cut ∈ own, cut.stop ≤ start) :
      Text.outside (earlier ++ (own ++ later)) start piece = piece := by
    refine Text.outside_of_free fun cut hcut => ?_
    rcases List.mem_append.mp hcut with hcut | hcut
    · exact .inl (Nat.le_trans (hearlier cut hcut) hle)
    · rcases List.mem_append.mp hcut with hcut | hcut
      · exact .inl (hown cut hcut)
      · exact .inr (Nat.le_trans hsize (hlater cut hcut))
  unfold lineCuts
  split
  · exact hothers (Nat.le_refl _) (Nat.le_refl _) (by simp)
  · unfold unindent
    split
    · rename_i hprefix
      obtain ⟨rest, rfl⟩ := List.isPrefixOf_iff_prefix.mp hprefix
      have hcut : ⟨offset, offset + indent.size⟩ ∈
          earlier ++ ([(⟨offset, offset + indent.size⟩ : Span)] ++ later) := by simp
      rw [Text.outside_append, Text.outside_of_mem hcut (Nat.le_refl _) (Nat.le_refl _),
        List.nil_append, List.drop_left]
      refine hothers (Nat.le_add_right _ _) ?_ (by simp)
      rw [Text.size_append, Nat.add_assoc]
    · exact hothers (Nat.le_refl _) (Nat.le_refl _) (by simp)

/-- The lines that are written are the lines that were there, less the cuts. The line feed before
the first of them stands at `offset`. -/
theorem shiftLines_eq {earlier : List Span} (hearlier : ∀ cut ∈ earlier, cut.stop ≤ offset) :
    shiftLines literals indent (offset + 1) lines =
      Text.outside (earlier ++ cuts literals indent (offset + 1) lines) offset
        (Text.ofLines lines) := by
  induction lines generalizing offset earlier with
  | nil => rfl
  | cons line lines ih =>
    have hnewline : Text.size ['\n'] = 1 := by decide
    have hown : ∀ cut ∈ earlier ++ lineCuts literals indent (offset + 1) line,
        cut.stop ≤ offset + 1 + line.size := by
      intro cut hcut
      rcases List.mem_append.mp hcut with hcut | hcut
      · have := hearlier cut hcut
        omega
      · obtain ⟨rfl, ⟨rest, rfl⟩, -⟩ := mem_lineCuts hcut
        simp only [Text.size_append]
        omega
    have hlater : ∀ cut ∈ cuts literals indent (offset + 1 + line.size + 1) lines,
        offset + 1 + line.size ≤ cut.start := fun cut hcut => by
      have := le_of_mem_cuts hcut
      omega
    have hbefore : ∀ cut ∈ earlier, cut.stop ≤ offset + 1 := fun cut hcut =>
      Nat.le_succ_of_le (hearlier cut hcut)
    have hline := outside_line literals indent hbefore hlater
    have hfeed : Text.outside (earlier ++ cuts literals indent (offset + 1) (line :: lines)) offset
        ['\n'] = ['\n'] := by
      refine Text.outside_of_free fun cut hcut => ?_
      rw [hnewline]
      rcases List.mem_append.mp hcut with hcut | hcut
      · exact .inl (hearlier cut hcut)
      · exact .inr (le_of_mem_cuts hcut)
    rw [Text.ofLines_cons, Text.outside_append, Text.outside_append, hfeed, hnewline, cuts, hline,
      shiftLines, ih hown, List.append_assoc]
    rfl

/-- Each cut takes away indentation directly behind a line feed, and not where a literal goes on. -/
theorem mem_cuts (h : cut ∈ cuts literals indent (offset + 1) lines) :
    ∃ front back, Text.ofLines lines = front ++ '\n' :: (indent ++ back) ∧
      cut = ⟨offset + front.size + 1, offset + front.size + 1 + indent.size⟩ ∧
      ∀ span ∈ literals, cut.start ≤ span.start ∨ span.stop ≤ cut.start := by
  induction lines generalizing offset with
  | nil => cases h
  | cons line lines ih =>
    rw [Text.ofLines_cons]
    rcases List.mem_append.mp h with h | h
    · obtain ⟨rfl, ⟨rest, rfl⟩, hspans⟩ := mem_lineCuts h
      exact ⟨[], rest ++ Text.ofLines lines, by simp, rfl, hspans⟩
    · have hoffset : offset + 1 + line.size + 1 = offset + (1 + line.size) + 1 := by omega
      rw [hoffset] at h
      obtain ⟨front, back, hlines, rfl, hspans⟩ := ih h
      refine ⟨['\n'] ++ (line ++ front), back, by rw [hlines]; simp, ?_, hspans⟩
      simp only [Text.size_append, Text.size_cons, Text.size_nil]
      have : '\n'.utf8Size = 1 := by decide
      congr 1 <;> omega

end ObjectLiteral

namespace Text

variable {source : Text} {cuts : List Span} {a b c : Nat}

theorem outside_slice (ha : source.Boundary a) (hb : source.Boundary b) (hc : source.Boundary c)
    (hab : a ≤ b) (hbc : b ≤ c) :
    outside cuts a (source.slice a c) =
      outside cuts a (source.slice a b) ++ outside cuts b (source.slice b c) := by
  rw [← slice_append_slice ha hb hc hab hbc, outside_append, size_slice ha hb hab]

theorem outside_slice_of_free (ha : source.Boundary a) (hb : source.Boundary b) (h : a ≤ b)
    (hfree : ∀ cut ∈ cuts, cut.stop ≤ a ∨ b ≤ cut.start) :
    outside cuts a (source.slice a b) = source.slice a b :=
  outside_of_free (by rwa [size_slice ha hb h])

end Text

theorem Span.Sharp.split {source : Text} {span : Span} (h : span.Sharp source) :
    ∃ front back, source = front ++ (span.text source ++ back) ∧ front.size = span.start ∧
      span.start + (span.text source).size = span.stop := by
  have hstart := h.opens.boundary
  have hle := Nat.le_of_lt h.lt
  refine ⟨source.before span.start, source.after span.stop, ?_, Text.size_before hstart,
    Text.size_slice hstart h.closes.boundary hle⟩
  rw [Span.text, Text.slice_append_after hstart h.closes.boundary hle, Text.before_append_after]

namespace Node

/-- Where a string or a template stands. -/
def literal? : Node → Option Span
  | .string span _ | .template span _ _ => some span
  | _ => none

theorem span_of_literal? {m : Node} {span : Span} (h : m.literal? = some span) : m.span = span := by
  cases m <;> cases h <;> rfl

/-- A walk that never stops finds what there is at every node. -/
theorem mem_gather_of_mem_postorder {α : Type} {visit : Unit → Node → List α × Option Unit}
    (hvisit : ∀ n, (visit () n).2 = some ()) {n m : Node} (hm : m ∈ n.postorder) {x : α}
    (hx : x ∈ (visit () m).1) : x ∈ gather visit () n := by
  induction n using inductionOn with
  | step n ih =>
    have hn : visit () n = ((visit () n).1, some ()) := Prod.ext rfl (hvisit n)
    rw [gather_eq, hn]
    rcases mem_postorder.mp hm with rfl | ⟨c, hc, hm⟩
    · exact List.mem_append_left _ hx
    · exact List.mem_append_right _ (List.mem_flatMap.mpr ⟨c, hc, ih c hc hm⟩)

end Node

namespace ObjectLiteral

variable {object : ObjectLiteral} {source : Text} {cut literal : Span}

/-- The strings and templates in an object, however deep. -/
def literals (object : ObjectLiteral) : List Span :=
  object.properties.flatMap fun n => n.postorder.filterMap Node.literal?

theorem mem_longLiterals (h : literal ∈ object.literals)
    (hlong : '\n' ∈ literal.text source) : literal ∈ object.longLiterals source := by
  obtain ⟨n, hn, hliteral⟩ := List.mem_flatMap.mp h
  obtain ⟨m, hm, hspan⟩ := List.mem_filterMap.mp hliteral
  refine List.mem_flatMap.mpr ⟨n, hn, Node.mem_gather_of_mem_postorder ?_ hm ?_⟩
  · intro k
    cases k <;> rfl
  · have hcontains : (literal.text source).contains '\n' = true := by simpa using hlong
    cases m <;> cases hspan <;> simp [hlong]

/-- What is cut out of the text of an object. -/
def cutsIn (object : ObjectLiteral) (source : Text) : List Span :=
  match Text.splitAt '\n' (object.span.text source) with
  | [] => []
  | first :: lines =>
    cuts (object.longLiterals source) (source.indentAt object.span.start)
      (object.span.start + first.size + 1) lines

theorem asModule_eq (object : ObjectLiteral) (source : Text) :
    object.asModule source = "export default ".toList ++
      Text.outside (object.cutsIn source) object.span.start (object.span.text source) ++
        ";\n".toList := by
  obtain ⟨first, lines, hsplit⟩ :=
    List.exists_cons_of_ne_nil (Text.splitAt_ne_nil '\n' (object.span.text source))
  have hfirst : Text.outside (object.cutsIn source) object.span.start first = first := by
    refine Text.outside_of_free fun cut hcut => .inr ?_
    rw [cutsIn, hsplit] at hcut
    have := le_of_mem_cuts hcut
    omega
  have hlines := @shiftLines_eq (object.longLiterals source)
    (source.indentAt object.span.start) lines (object.span.start + first.size) [] (by simp)
  have hcuts : object.cutsIn source = [] ++ cuts (object.longLiterals source)
      (source.indentAt object.span.start) (object.span.start + first.size + 1) lines := by
    rw [cutsIn, hsplit]
    rfl
  have hmodule : object.asModule source = "export default ".toList ++
      (first ++ shiftLines (object.longLiterals source) (source.indentAt object.span.start)
        (object.span.start + first.size + 1) lines) ++ ";\n".toList := by
    unfold asModule
    simp only [hsplit]
  rw [hmodule, Text.eq_of_splitAt hsplit, Text.outside_append, hfirst, hlines, ← hcuts]

/-- Blanks at the beginning of a line of the object, where no long literal goes on. -/
structure Indents (object : ObjectLiteral) (source : Text) (cut : Span) : Prop where
  inside : object.span.start < cut.start ∧ cut.stop ≤ object.span.stop
  feed : source.HasBefore cut.start '\n'
  blank : ∃ front mid back, source = front ++ (mid ++ back) ∧ front.size = cut.start ∧
    cut.start + mid.size = cut.stop ∧ ∀ c ∈ mid, isIndent c = true
  outsideLong : ∀ span ∈ object.longLiterals source, cut.start ≤ span.start ∨ span.stop ≤ cut.start

theorem indents_of_mem_cutsIn (hsharp : object.span.Sharp source)
    (h : cut ∈ object.cutsIn source) : object.Indents source cut := by
  obtain ⟨first, lines, hsplit⟩ :=
    List.exists_cons_of_ne_nil (Text.splitAt_ne_nil '\n' (object.span.text source))
  obtain ⟨p, q, hsource, hp, hstop⟩ := hsharp.split
  have hindent : ∀ c ∈ source.indentAt object.span.start, isIndent c = true := fun _ hc =>
    List.mem_takeWhile_imp hc
  rw [cutsIn, hsplit] at h
  generalize source.indentAt object.span.start = indent at h hindent
  obtain ⟨front, back, hlines, rfl, hspans⟩ := mem_cuts h
  rw [Text.eq_of_splitAt hsplit, hlines] at hsource hstop
  have hfeed : '\n'.utf8Size = 1 := by decide
  simp only [Text.size_append, Text.size_cons, hfeed] at hstop
  refine ⟨⟨?_, ?_⟩, ⟨p ++ (first ++ front), indent ++ (back ++ q), ?_, ?_⟩,
    ⟨p ++ (first ++ (front ++ ['\n'])), indent, back ++ q, ?_, ?_, rfl, hindent⟩, hspans⟩
  · show object.span.start < object.span.start + first.size + front.size + 1
    omega
  · show object.span.start + first.size + front.size + 1 + indent.size ≤ object.span.stop
    omega
  · simpa using hsource
  · simp only [Text.size_append]
    omega
  · simpa using hsource
  · simp only [Text.size_append, Text.size_cons, Text.size_nil]
    omega

/-- No cut meets a string or a template. -/
theorem not_meets_literal (hcut : object.Indents source cut) (h : literal ∈ object.literals)
    (hsharp : literal.Sharp source) : cut.stop ≤ literal.start ∨ literal.stop ≤ cut.start := by
  obtain ⟨front, mid, back, hs, hfront, hmid, hblank⟩ := hcut.blank
  by_cases hstart : cut.start ≤ literal.start
  · -- A literal does not begin with a blank, so it begins behind the cut.
    have := hsharp.opens.le_of_blank hs (fun c hc => isWhite_of_isIndent (hblank c hc)) (by omega)
    omega
  · by_cases hstop : literal.stop ≤ cut.start
    · exact .inr hstop
    · -- The line feed before the cut would be inside the literal, which then is a long one.
      obtain ⟨p, q, hsource, hp, htext⟩ := hsharp.split
      have hmem : '\n' ∈ literal.text source := hcut.feed.mem hsource (by omega) (by omega)
      have := hcut.outsideLong literal (mem_longLiterals h hmem)
      omega

/-- A text is that of the object less some cuts, which hold nothing but blanks at the beginning of
lines, and every string and template of the object is in it as it was, in its old order. -/
structure Outdents (object : ObjectLiteral) (source : Text) (cuts : List Span) (text : Text) :
    Prop where
  less : text = Text.outside cuts object.span.start (object.span.text source)
  blank : ∀ cut ∈ cuts, object.span.start < cut.start ∧ cut.stop ≤ object.span.stop ∧
    source.HasBefore cut.start '\n' ∧ ∀ c ∈ cut.text source, isIndent c = true
  apart : ∀ literal ∈ object.literals, ∀ cut ∈ cuts,
    cut.stop ≤ literal.start ∨ literal.stop ≤ cut.start
  verbatim : ∀ literal ∈ object.literals, text =
    Text.outside cuts object.span.start (source.slice object.span.start literal.start) ++
      literal.text source ++
      Text.outside cuts literal.stop (source.slice literal.stop object.span.stop)
  ordered : ∀ a ∈ object.literals, ∀ b ∈ object.literals, a.stop ≤ b.start → text =
    Text.outside cuts object.span.start (source.slice object.span.start a.start) ++
      a.text source ++ Text.outside cuts a.stop (source.slice a.stop b.start) ++
      b.text source ++ Text.outside cuts b.stop (source.slice b.stop object.span.stop)

theorem Indents.forall_isIndent (h : object.Indents source cut) :
    ∀ c ∈ cut.text source, isIndent c = true := by
  obtain ⟨front, mid, back, hs, hfront, hmid, hblank⟩ := h.blank
  have hslice : cut.text source = mid := by
    rw [Span.text, Text.slice, ← hmid, ← hfront, Nat.add_sub_cancel_left, hs,
      Text.after_size_append, Text.before_size_append]
  rw [hslice]
  exact hblank

/-- Every string and template of an object of a module lies in the object. -/
theorem within_of_mem_literals {p : Program} (hlaid : p.Laid source) (ho : p.Has object.node)
    (h : literal ∈ object.literals) : literal.Sharp source ∧
      object.span.start ≤ literal.start ∧ literal.stop ≤ object.span.stop := by
  obtain ⟨n, hn, hliteral⟩ := List.mem_flatMap.mp h
  obtain ⟨m, hm, hspan⟩ := List.mem_filterMap.mp hliteral
  obtain rfl := Node.span_of_literal? hspan
  have htidy := hlaid.tidy_of_has ho
  have hrow : Node.Row object.span.start object.span.stop object.properties :=
    Node.row_of_object htidy.arranged
  have hmem : m ∈ object.node.postorder := Node.mem_postorder.mpr (.inr ⟨n, hn, hm⟩)
  exact ⟨(htidy.of_mem hmem).sharp, hrow.within n hn m hm⟩

/-- The module that an object moves to holds its text, less blanks at the beginning of lines. -/
theorem asModule_outdents {path : Path} {script : Script}
    (hparse : Script.parse path source = .ok script) (ho : object ∈ script.program.objects) :
    ∃ cuts text, object.asModule source = "export default ".toList ++ text ++ ";\n".toList ∧
      object.Outdents source cuts text := by
  obtain ⟨rfl, hlaid⟩ := Script.parse_laid hparse
  obtain ⟨_, n, hn, hmem⟩ := Program.exists_of_mem_gather ho
  rw [eq_node_of_object? (Option.mem_toList.mp hmem)] at hn
  have hsharp : object.span.Sharp script.source := hlaid.sharp_of_has hn
  have hindents (cut : Span) (h : cut ∈ object.cutsIn script.source) :=
    indents_of_mem_cutsIn hsharp h
  have hkept : ∀ literal ∈ object.literals, ∀ cut ∈ object.cutsIn script.source,
      cut.stop ≤ literal.start ∨ literal.stop ≤ cut.start := fun literal h cut hcut =>
    not_meets_literal (hindents cut hcut) h (within_of_mem_literals hlaid hn h).1
  have hstart := hsharp.opens.boundary
  have hstop := hsharp.closes.boundary
  -- At a literal a piece of the text falls into what is before it, the literal, and the rest.
  have hsplit (start : Nat) (hb : script.source.Boundary start) (literal : Span)
      (h : literal ∈ object.literals) (hle : start ≤ literal.start) :
      Text.outside (object.cutsIn script.source) start
          (script.source.slice start object.span.stop) =
        Text.outside (object.cutsIn script.source) start
            (script.source.slice start literal.start) ++ literal.text script.source ++
          Text.outside (object.cutsIn script.source) literal.stop
            (script.source.slice literal.stop object.span.stop) := by
    obtain ⟨hliteral, -, hin⟩ := within_of_mem_literals hlaid hn h
    have hopen := hliteral.opens.boundary
    have hclose := hliteral.closes.boundary
    have hlt := Nat.le_of_lt hliteral.lt
    rw [Text.outside_slice hb hopen hstop hle (Nat.le_trans hlt hin),
      Text.outside_slice hopen hclose hstop hlt hin,
      Text.outside_slice_of_free hopen hclose hlt (hkept literal h), List.append_assoc]
    rfl
  refine ⟨_, _, asModule_eq object script.source, rfl, ?_, hkept, ?_, ?_⟩
  · intro cut hcut
    have h := hindents cut hcut
    exact ⟨h.inside.1, h.inside.2, h.feed, h.forall_isIndent⟩
  · intro literal h
    exact hsplit _ hstart literal h (within_of_mem_literals hlaid hn h).2.1
  · intro a ha b hb hab
    obtain ⟨hsharpA, hinA, -⟩ := within_of_mem_literals hlaid hn ha
    rw [Span.text, hsplit _ hstart a ha hinA, hsplit _ hsharpA.closes.boundary b hb hab]
    simp only [List.append_assoc]

/-- A page with a template inside a template, both over two lines. -/
def literalText : Text :=
  ("class A \x7b\n  config = \x7b\n    é: `\n  $\x7b`ü\n  \x7d` \x7d`,\n" ++
    "   b: 'c'\n  \x7d\n\x7d").toList

set_option maxRecDepth 100000 in
/-- The lines that begin in a template keep their blanks, the others lose two. -/
theorem asModule_outdents_templates :
    ∃ script object cuts text, Script.parse ⟨"src/a.js"⟩ literalText = .ok script ∧
      object ∈ script.program.objects ∧ object.literals.length = 3 ∧
      object.asModule literalText = "export default ".toList ++ text ++ ";\n".toList ∧
      text = "\x7b\n  é: `\n  $\x7b`ü\n  \x7d` \x7d`,\n b: 'c'\n\x7d".toList ∧
      object.Outdents literalText cuts text := by
  have hcheck : (Script.parse ⟨"src/a.js"⟩ literalText).toOption.any (fun script =>
      script.program.objects.any fun object => object.literals.length == 3 &&
        object.asModule literalText == "export default ".toList ++
          "\x7b\n  é: `\n  $\x7b`ü\n  \x7d` \x7d`,\n b: 'c'\n\x7d".toList ++
            ";\n".toList) = true := by
    unfold literalText
    rw [String.toList_append]
    repeat rw [String.toList_ofList]
    decide +kernel
  obtain ⟨script, hparse, hcheck⟩ := exists_ok_of_any hcheck
  obtain ⟨object, ho, hcheck⟩ := List.any_eq_true.mp hcheck
  rw [Bool.and_eq_true, beq_iff_eq, beq_iff_eq] at hcheck
  obtain ⟨cuts, text, hmodule, houtdents⟩ := asModule_outdents hparse ho
  have htext := hmodule.symm.trans hcheck.2
  rw [List.append_cancel_right_eq, List.append_cancel_left_eq] at htext
  exact ⟨script, object, cuts, text, hparse, ho, hcheck.1, hmodule, htext, houtdents⟩

end ObjectLiteral

end Codemod

import Codemod.Proofs.Syntax.Lexer

/-!
# Codemod.Proofs.Syntax.Spelling

How a text that is known is read.

`Lexer.Begins text l newline rest` says that the first token of a text is `l`, wherever the text
stands, and that `rest` comes after it. Names, symbols and strings that are written out begin a text
as what they are (`begins_word`, `begins_symbol`, `begins_string`), with any blanks before them
(`Lexes.begins`).
-/

namespace Codemod

namespace Lexer

/-- The text begins with a token, with nothing to be skipped before it. -/
def Lexes (text : Text) (l : Lexeme) (rest : Text) : Prop :=
  ∀ newline offset, ∃ span,
    tokenAt newline offset text = { token := ⟨l, span, newline⟩, here := text, rest }

/-- The first token of the text, whether it stands on a new line, and what comes after it. -/
def Begins (text : Text) (l : Lexeme) (newline : Bool) (rest : Text) : Prop :=
  ∀ offset, ∃ span here, read offset text = { token := ⟨l, span, newline⟩, here, rest }

section Gaps

/-- A character that a token can begin with: none that is skipped, nor the slash of a comment. -/
def isSolid (c : Char) : Bool :=
  !isBreak c && !isGap c && c != '/'

/-- A text of blanks. -/
def isGapText (s : Text) : Bool :=
  s.all fun c => isBreak c || isGap c

theorem isGapText_indentAt (source : Text) (offset : Nat) :
    isGapText (source.indentAt offset) = true := by
  rw [isGapText, Text.indentAt, List.all_eq_true]
  intro c hc
  have hindent := List.all_eq_true.mp List.all_takeWhile c hc
  rw [isIndent, Bool.or_eq_true, beq_iff_eq, beq_iff_eq] at hindent
  rcases hindent with rfl | rfl <;> rfl

theorem not_slash_of_isGap {c : Char} (h : (isBreak c || isGap c) = true) : c ≠ '/' := by
  rintro rfl
  revert h
  decide

theorem skip_solid {c : Char} (cs : Text) (h : isSolid c = true) (newline : Bool)
    (comment : Option Span) (began offset : Nat) :
    skip newline comment .blank began offset (c :: cs) = ⟨c :: cs, offset, newline, comment, none⟩ := by
  simp only [isSolid, Bool.and_eq_true, Bool.not_eq_true', bne_iff_ne] at h
  obtain ⟨⟨hbreak, hgap⟩, hslash⟩ := h
  unfold skip
  split <;> simp_all

theorem skip_gap {gap : Text} (h : isGapText gap = true) (text : Text) (newline : Bool)
    (comment : Option Span) (began offset : Nat) :
    skip newline comment .blank began offset (gap ++ text) =
      skip (newline || gap.any isBreak) comment .blank began (offset + gap.size) text := by
  induction gap generalizing newline offset with
  | nil => simp
  | cons c gap ih =>
    rw [isGapText, List.all_cons, Bool.and_eq_true] at h
    obtain ⟨hc, hgap⟩ := h
    have hslash := not_slash_of_isGap hc
    have hstep : skip newline comment .blank began offset (c :: (gap ++ text)) =
        skip (newline || isBreak c) comment .blank began (offset + c.utf8Size) (gap ++ text) := by
      rw [skip]
      · cases hbreak : isBreak c with
        | true => simp
        | false => simp [show isGap c = true by simpa [hbreak] using hc]
      · exact fun _ heq => absurd heq hslash
      · exact fun _ heq => absurd heq hslash
    rw [List.cons_append, hstep, ih hgap]
    simp [Bool.or_assoc, Nat.add_assoc, Text.size_cons]

theorem Lexes.begins {c : Char} {gap text rest : Text} {l : Lexeme}
    (h : Lexes (c :: text) l rest) (hgap : isGapText gap = true) (hc : isSolid c = true) :
    Begins (gap ++ c :: text) l (gap.any isBreak) rest := by
  intro offset
  obtain ⟨span, hspan⟩ := h (gap.any isBreak) (offset + gap.size)
  refine ⟨span, c :: text, ?_⟩
  rw [read, skip_gap hgap, skip_solid text hc, Bool.false_or, hspan]
  rfl

end Gaps

section Names

/-- A name that is written without escapes. -/
def isPlainName (w : Text) : Bool :=
  w.head?.any isNameStart && w.all isNamePart

/-- A name that comes to this place does not go on. -/
def endsName (rest : Text) : Bool :=
  !rest.head?.any fun c => isNamePart c || c == '\\'

/-- The blanks between tokens. -/
def gaps : List Char :=
  ([0x9, 0xA, 0xB, 0xC, 0xD, 0x20, 0x85, 0xA0, 0x1680, 0x180E, 0x2028, 0x2029, 0x202F, 0x205F,
    0x3000, 0xFEFF] ++ List.range' 0x2000 12).map Char.ofNat

theorem mem_gaps {c : Char} (h : (isBreak c || isGap c) = true) : c ∈ gaps := by
  have hcode : c.toNat ∈ [0x9, 0xA, 0xB, 0xC, 0xD, 0x20, 0x85, 0xA0, 0x1680, 0x180E, 0x2028, 0x2029,
      0x202F, 0x205F, 0x3000, 0xFEFF] ++ List.range' 0x2000 12 := by
    simp only [isBreak, isGap, Bool.or_eq_true, Bool.and_eq_true, decide_eq_true_eq,
      beq_iff_eq] at h
    simp only [List.mem_append, List.mem_cons, List.not_mem_nil, List.mem_range'_1]
    omega
  rw [gaps, List.mem_map]
  exact ⟨c.toNat, hcode, Char.ofNat_toNat c⟩

theorem isSolid_of_isNamePart {c : Char} (h : isNamePart c = true) : isSolid c = true := by
  have hgaps : ∀ c ∈ gaps, isNamePart c = false := by decide +kernel
  by_contra hsolid
  rw [isSolid, Bool.and_eq_true, ← Bool.not_or, Bool.not_eq_true', bne_iff_ne, not_and_or,
    Bool.not_eq_false, not_not] at hsolid
  rcases hsolid with hgap | rfl
  · rw [hgaps c (mem_gaps hgap)] at h
    cases h
  · revert h
    decide

theorem readName_plain {w rest : Text} (hw : isPlainName w = true) (hrest : endsName rest = true) :
    readName (w ++ rest) = ⟨String.ofList w, false, w.size, rest⟩ := by
  rw [isPlainName, Bool.and_eq_true, List.all_eq_true] at hw
  have hstop : rest.takeWhile isNamePart = [] ∧ rest.dropWhile isNamePart = rest := by
    cases rest with
    | nil => exact ⟨rfl, rfl⟩
    | cons c rest =>
      have hc : isNamePart c = false := by
        simp only [endsName, List.head?_cons, Option.any_some, Bool.not_eq_true',
          Bool.or_eq_false_iff] at hrest
        exact hrest.1
      simp [hc]
  have htake : (w ++ rest).takeWhile isNamePart = w := by
    rw [List.takeWhile_append_of_pos hw.2, hstop.1, List.append_nil]
  have hdrop : (w ++ rest).dropWhile isNamePart = rest := by
    rw [List.dropWhile_append_of_pos hw.2, hstop.2]
  rw [readName, htake, hdrop]
  split
  · simp [endsName] at hrest
  · rfl

theorem lexes_word {w rest : Text} (hw : isPlainName w = true) (hrest : endsName rest = true) :
    Lexes (w ++ rest) (.word (String.ofList w) false) rest := by
  intro newline offset
  refine ⟨⟨offset, offset + w.size⟩, ?_⟩
  have hread := readName_plain hw hrest
  cases w with
  | nil => cases hw
  | cons c w =>
    have hstart : isNameStart c = true := by
      rw [isPlainName, Bool.and_eq_true] at hw
      exact hw.1
    rw [List.cons_append] at hread ⊢
    rw [tokenAt]
    simp [hstart, hread]

theorem begins_word (gap : Text) {w rest : Text} (hgap : isGapText gap = true) (hw : isPlainName w = true)
    (hrest : endsName rest = true) :
    Begins (gap ++ (w ++ rest)) (.word (String.ofList w) false) (gap.any isBreak) rest := by
  have h := lexes_word hw hrest
  cases w with
  | nil => cases hw
  | cons c w =>
    refine h.begins hgap (isSolid_of_isNamePart ?_)
    rw [isPlainName, Bool.and_eq_true, List.all_eq_true] at hw
    exact hw.2 c List.mem_cons_self

end Names

section Symbols

/-- A character that only symbols begin with. -/
def isMark (c : Char) : Bool :=
  !(isNameStart c || c == '\\' || c.isDigit || c == '.' || c == '"' || c == '\'' ||
    c.toNat == 0x60 || c == '#')

theorem lexes_symbol {c : Char} {text : Text} {x : String} (hc : isMark c = true)
    (hx : symbol? (c :: text) = some x) :
    Lexes (c :: text) (.symbol x) ((c :: text).drop x.length) := by
  intro newline offset
  simp only [isMark, Bool.not_eq_true', Bool.or_eq_false_iff] at hc
  obtain ⟨⟨⟨⟨⟨⟨⟨hname, hslash⟩, hdigit⟩, hdot⟩, hdouble⟩, hsingle⟩, htick⟩, hhash⟩ := hc
  refine ⟨⟨offset, offset + x.length⟩, ?_⟩
  rw [tokenAt]
  simp only [hname, hslash, hdigit, hdot, hdouble, hsingle, htick, hhash, hx, Bool.false_and,
    Bool.or_self, Bool.false_eq_true, if_false]

theorem begins_symbol (gap : Text) {text rest : Text} {c : Char} {x : String} (hgap : isGapText gap = true)
    (hc : (isMark c && isSolid c) = true) (hx : symbol? (c :: text) = some x)
    (hrest : (c :: text).drop x.length = rest) :
    Begins (gap ++ c :: text) (.symbol x) (gap.any isBreak) rest := by
  rw [Bool.and_eq_true] at hc
  subst hrest
  exact (lexes_symbol hc.1 hx).begins hgap hc.2

end Symbols

section Strings

/-- A text that means itself between quotes. -/
def isVerbatim (quote : Char) (value : Text) : Bool :=
  value.all fun c => c != quote && c != '\\' && c != '\n' && c != '\r'

theorem stringBody_verbatim {quote : Char} {value : Text} (rest : Text)
    (h : isVerbatim quote value = true) (hquote : quote ≠ '\\') :
    stringBody quote (value ++ quote :: rest) = some (value, rest) := by
  induction value with
  | nil =>
    rw [List.nil_append, stringBody]
    · simp
    · exact fun _ heq => absurd heq hquote
    · exact fun _ _ heq => absurd heq hquote
  | cons c value ih =>
    rw [isVerbatim, List.all_cons, Bool.and_eq_true] at h
    obtain ⟨hc, hvalue⟩ := h
    simp only [Bool.and_eq_true, bne_iff_ne] at hc
    obtain ⟨⟨⟨hne, hslash⟩, hfeed⟩, hreturn⟩ := hc
    rw [List.cons_append, stringBody]
    · simp [hne, hfeed, hreturn, ih hvalue]
    · exact fun _ heq => absurd heq hslash
    · exact fun _ _ heq => absurd heq hslash

theorem decodeEscapes_verbatim {value : Text} (h : '\\' ∉ value) :
    decodeEscapes true value = some value := by
  rw [decodeEscapes]
  induction value with
  | nil => rfl
  | cons c value ih =>
    rw [List.mem_cons, not_or] at h
    rw [List.length_cons, decodeWithin, ih h.2]
    · rfl
    · exact Ne.symm h.1

theorem badEscape?_verbatim {value : Text} (h : '\\' ∉ value) : badEscape? value = none := by
  have key (raw : Text) : badEscapeWithin raw value.length value = none := by
    induction value with
    | nil => rfl
    | cons c value ih =>
      rw [List.mem_cons, not_or] at h
      rw [List.length_cons, badEscapeWithin, ih h.2]
      exact Ne.symm h.1
  exact key value

theorem lexes_string {quote : Char} {value rest : Text} (hquote : quote = '"' ∨ quote = '\'')
    (h : isVerbatim quote value = true) :
    Lexes (quote :: (value ++ quote :: rest)) (.string (String.ofList value)) rest := by
  intro newline offset
  have hslash : '\\' ∉ value := by
    intro hmem
    have := List.all_eq_true.mp h _ hmem
    simp at this
  have hbody := stringBody_verbatim rest h (by rcases hquote with rfl | rfl <;> decide)
  have hstart : isNameStart quote = false ∧ (quote == '\\') = false ∧ quote.isDigit = false ∧
      (quote == '.') = false ∧ (quote == '"' || quote == '\'') = true := by
    rcases hquote with rfl | rfl <;> decide
  obtain ⟨hname, hback, hdigit, hdot, hquotes⟩ := hstart
  refine ⟨⟨offset, offset + (value.size + 2)⟩, ?_⟩
  rw [tokenAt]
  simp only [hname, hback, hdigit, hdot, hquotes, hbody, decodeEscapes_verbatim hslash,
    badEscape?_verbatim hslash, Bool.false_and, Bool.or_self, Bool.false_eq_true, if_false, if_true,
    Option.getD_some, Option.map_none]

theorem begins_string (gap rest : Text) {quote : Char} {value : Text} (hgap : isGapText gap = true)
    (hquote : quote = '"' ∨ quote = '\'') (h : isVerbatim quote value = true) :
    Begins (gap ++ quote :: (value ++ quote :: rest)) (.string (String.ofList value))
      (gap.any isBreak) rest := by
  refine (lexes_string hquote h).begins hgap ?_
  rcases hquote with rfl | rfl <;> rfl

end Strings

section Offsets

/-- Where a gap stands does not matter for what comes after it. -/
theorem skip_offset (newline : Bool) (gap : Gap) (comment comment' : Option Span)
    (began began' offset offset' : Nat) (text : Text) :
    (skip newline comment gap began offset text).rest =
        (skip newline comment' gap began' offset' text).rest ∧
      (skip newline comment gap began offset text).newline =
        (skip newline comment' gap began' offset' text).newline := by
  fun_induction skip newline comment gap began offset text generalizing comment' began' offset' with
  | case5 | case6 | case9 | case12 => simp_all [skip]
  | case1 newline comment began offset cs ih => exact ih ..
  | case2 newline comment began offset cs ih => exact ih ..
  | case3 newline comment began offset c cs _ _ hbreak ih =>
    simpa [skip, hbreak] using ih ..
  | case4 newline comment began offset c cs _ _ hbreak hgap ih =>
    simpa [skip, hbreak, hgap] using ih ..
  | case7 newline comment began offset c cs hbreak ih =>
    simpa [skip, hbreak] using ih ..
  | case8 newline comment began offset c cs hbreak ih =>
    simpa [skip, hbreak] using ih ..
  | case10 newline comment began offset cs ih => exact ih ..
  | case11 newline comment began offset c cs _ ih => simpa [skip] using ih ..

/-- A line that has ended before a gap stays ended. -/
theorem skip_newline (newline : Bool) (gap : Gap) (comment : Option Span) (began offset : Nat)
    (text : Text) :
    (skip true comment gap began offset text).rest =
        (skip newline comment gap began offset text).rest ∧
      (skip true comment gap began offset text).newline = true := by
  fun_induction skip newline comment gap began offset text with
  | case5 | case6 | case9 | case12 => simp_all [skip]
  | case1 newline comment began offset cs ih => exact ih
  | case2 newline comment began offset cs ih => exact ih
  | case3 newline comment began offset c cs _ _ hbreak ih =>
    simpa [skip, hbreak] using ih
  | case4 newline comment began offset c cs _ _ hbreak hgap ih =>
    simpa [skip, hbreak, hgap] using ih
  | case7 newline comment began offset c cs hbreak ih =>
    simpa [skip, hbreak] using ih
  | case8 newline comment began offset c cs hbreak ih =>
    simpa [skip, hbreak] using ih
  | case10 newline comment began offset cs ih => exact ih
  | case11 newline comment began offset c cs _ ih => simpa [skip] using ih

theorem tokenAt_offset (newline newline' : Bool) (offset offset' : Nat) (text : Text) :
    (tokenAt newline offset text).token.lexeme = (tokenAt newline' offset' text).token.lexeme ∧
      (tokenAt newline offset text).token.newline = newline := by
  unfold tokenAt
  split
  · exact ⟨rfl, rfl⟩
  · grind

/-- Where a text stands does not matter for what its first token is. -/
theorem read_offset (offset offset' : Nat) (text : Text) :
    (read offset text).token.lexeme = (read offset' text).token.lexeme ∧
      (read offset text).token.newline = (read offset' text).token.newline := by
  obtain ⟨hrest, hnewline⟩ := skip_offset false .blank none none 0 0 offset offset' text
  simp only [read, hrest, hnewline]
  exact ⟨(tokenAt_offset _ _ _ _ _).1,
    ((tokenAt_offset _ false _ 0 _).2).trans (tokenAt_offset _ false _ 0 _).2.symm⟩

/-- Behind a line break, a text has the same first token, and it stands on a new line. -/
theorem read_line {gap : Text} (hgap : isGapText gap = true) (hbreak : gap.any isBreak = true)
    (offset offset' : Nat) (text : Text) :
    (read offset (gap ++ text)).token.lexeme = (read offset' text).token.lexeme ∧
      (read offset (gap ++ text)).token.newline = true := by
  obtain ⟨hrest, hnewline⟩ := skip_newline false .blank none 0 (offset + gap.size) text
  have hsame := (skip_offset false .blank none none 0 0 (offset + gap.size) offset' text).1
  simp only [read, skip_gap hgap, hbreak, Bool.false_or, hrest, hnewline, hsame]
  exact ⟨(tokenAt_offset _ _ _ _ _).1, (tokenAt_offset _ false _ 0 _).2⟩

end Offsets

theorem begins_nil : Begins [] .finish false [] :=
  fun offset => ⟨⟨offset, offset⟩, [], rfl⟩

end Lexer

end Codemod

import Codemod.Syntax.Lexer
import Codemod.Proofs.Text.Edges
import Mathlib.Data.Option.Basic

/-!
# Codemod.Proofs.Syntax.Lexer

Where the tokens that are read stand in the text.

`Reading.Of` says of a reading that its token is a piece of the text, with the blanks and comments
before it skipped, and that its span counts the bytes of the piece; `Reading.At` is the same for a
reading that skips nothing. A token that is neither broken
nor the end has no blank at either end (`Lexeme.Spelled`). Every reader keeps to that: `read_of` for
ordinary tokens, and one lemma for each of the readers that look at a place again.
-/

namespace Codemod

/-- What holds of all characters of a text is checked along the text, not for all there are. -/
instance (priority := 2000) Text.decidableForall (P : Char → Prop) [DecidablePred P] (s : Text) :
    Decidable (∀ c ∈ s, P c) :=
  List.decidableBAll P s

/-- The text has a blank neither at its beginning nor at its end, and is not empty. -/
structure Text.Crisp (s : Text) : Prop where
  head : ∃ c, s.head? = some c ∧ isWhite c = false
  last : ∃ c, s.getLast? = some c ∧ isWhite c = false

/-- How a lexeme may be spelled. Nothing but the symbol `;` begins with one. -/
def Lexeme.Spelled : Lexeme → Text → Prop
  | .symbol x, body => body = x.toList ∧ body.Crisp ∧ (body.head? = some ';' → x = ";")
  | .word name escaped, body =>
    body.Crisp ∧ body.head? ≠ some ';' ∧ (escaped = false → body = name.toList)
  | .markupText, _ | .broken, _ | .finish, _ => True
  | _, body => body.Crisp ∧ body.head? ≠ some ';'

/-- A reading of the token at the very beginning of a text that begins at `start`. -/
def Reading.At (start : Nat) (here : Text) (r : Reading) : Prop :=
  r.here = here ∧ r.token.span.start = start ∧
    ∃ body, here = body ++ r.rest ∧ r.token.span.stop = start + body.size ∧
      r.token.lexeme.Spelled body

/-- A reading of the first token of a text that begins at `offset`. -/
def Reading.Of (offset : Nat) (text : Text) (r : Reading) : Prop :=
  ∃ gap here, text = gap ++ here ∧ r.At (offset + gap.size) here

/-- Where the reading begins with a `;`, it is of that symbol. -/
def Reading.Semicolon (r : Reading) : Prop :=
  r.here.head? = some ';' → r.token.is ";" = true

namespace Lexer

section Characters

/-- The blanks. -/
def whites : List Char :=
  ([0x9, 0xA, 0xB, 0xC, 0xD, 0x20, 0x85, 0xA0, 0x1680, 0x2028, 0x2029, 0x202F, 0x205F, 0x3000] ++
    List.range' 0x2000 11).map Char.ofNat

theorem mem_whites {c : Char} (h : isWhite c = true) : c ∈ whites := by
  have hcode : c.toNat ∈ [0x9, 0xA, 0xB, 0xC, 0xD, 0x20, 0x85, 0xA0, 0x1680, 0x2028, 0x2029, 0x202F,
      0x205F, 0x3000] ++ List.range' 0x2000 11 := by
    simp only [isWhite, Bool.or_eq_true, Bool.and_eq_true, decide_eq_true_eq, beq_iff_eq] at h
    simp only [List.mem_append, List.mem_cons, List.not_mem_nil, List.mem_range'_1]
    omega
  rw [whites, List.mem_map]
  exact ⟨c.toNat, hcode, Char.ofNat_toNat c⟩

theorem not_isWhite_of {p : Char → Bool} (hp : ∀ c ∈ whites, p c = false) {c : Char}
    (h : p c = true) : isWhite c = false := by
  by_contra hwhite
  rw [hp c (mem_whites (by simpa using hwhite))] at h
  cases h

theorem not_isWhite_of_isNamePart {c : Char} (h : isNamePart c = true) : isWhite c = false :=
  not_isWhite_of (by decide +kernel) h

theorem not_isWhite_of_hexDigit {c : Char} (h : (hexDigit? c).isSome = true) :
    isWhite c = false :=
  not_isWhite_of (p := fun c => (hexDigit? c).isSome) (by decide +kernel) h

/-- Between tokens all blanks are skipped. -/
theorem not_isWhite_of_not_gap {c : Char} (hbreak : isBreak c = false) (hgap : isGap c = false) :
    isWhite c = false := by
  refine not_isWhite_of (p := fun c => !(isBreak c || isGap c)) (by decide +kernel) ?_
  simp [hbreak, hgap]

end Characters

/-- Skipping takes a piece off the text, and what is left begins with no blank. -/
def Skips (offset : Nat) (text : Text) (r : Skipped) : Prop :=
  ∃ gap : Text, text = gap ++ r.rest ∧ r.offset = offset + gap.size ∧
    ∀ c, r.rest.head? = some c → isWhite c = false

theorem Skips.cons {c : Char} {cs : Text} {offset : Nat} {r : Skipped}
    (h : Skips (offset + c.utf8Size) cs r) : Skips offset (c :: cs) r := by
  obtain ⟨gap, rfl, hoffset, hhead⟩ := h
  refine ⟨c :: gap, rfl, ?_, hhead⟩
  rw [hoffset, Text.size_cons, Nat.add_assoc]

theorem skip_skips (newline : Bool) (comment : Option Span) (mode : Gap) (began offset : Nat)
    (text : Text) : Skips offset text (skip newline comment mode began offset text) := by
  fun_induction skip newline comment mode began offset text with
  | case1 newline comment began offset cs ih | case2 newline comment began offset cs ih =>
    exact Skips.cons (Skips.cons ih)
  | case3 _ _ _ _ _ _ _ _ _ ih | case4 _ _ _ _ _ _ _ _ _ _ ih => exact ih.cons
  | case5 newline comment began offset c cs h₁ h₂ hbreak hgap =>
    refine ⟨[], rfl, rfl, ?_⟩
    rintro d ⟨⟩
    exact not_isWhite_of_not_gap (by simpa using hbreak) (by simpa using hgap)
  | case6 | case9 | case12 => exact ⟨[], rfl, rfl, by simp⟩
  | case7 _ _ _ _ _ _ _ ih | case8 _ _ _ _ _ _ _ ih => exact ih.cons
  | case10 _ _ _ _ _ ih => exact Skips.cons (Skips.cons ih)
  | case11 _ _ _ _ _ _ _ ih => exact ih.cons

section Names

/-- The text does not end with a blank. -/
def EndsWell (s : Text) : Prop :=
  ∀ c, s.getLast? = some c → isWhite c = false

theorem EndsWell.append {s t : Text} (hs : EndsWell s) (ht : EndsWell t) : EndsWell (s ++ t) := by
  intro c hc
  rw [List.getLast?_append, Option.or_eq_some_iff] at hc
  rcases hc with hc | ⟨-, hc⟩
  · exact ht c hc
  · exact hs c hc

theorem endsWell_of_forall {s : Text} (h : ∀ c ∈ s, isWhite c = false) : EndsWell s :=
  fun c hc => h c (List.mem_of_getLast? hc)

theorem isSome_of_hexValue {s : Text} {n : Nat} (h : hexValue? s = some n) {c : Char}
    (hc : c ∈ s) : (hexDigit? c).isSome = true := by
  -- a digit that has no value leaves nothing for the digits behind it
  have key (s : Text) (acc : Option Nat)
      (h : (s.foldl (fun acc c => do return (← acc) * 16 + (← hexDigit? c)) acc).isSome = true) :
      acc.isSome = true ∧ ∀ c ∈ s, (hexDigit? c).isSome = true := by
    induction s generalizing acc with
    | nil => exact ⟨h, by simp⟩
    | cons d s ih =>
      obtain ⟨hacc, hs⟩ := ih _ h
      cases acc with
      | none => cases hacc
      | some a =>
        refine ⟨rfl, List.forall_mem_cons.mpr ⟨?_, hs⟩⟩
        cases hd : hexDigit? d with
        | none => simp [hd] at hacc
        | some v => rfl
  rw [hexValue?] at h
  split at h
  · cases h
  · exact (key s (some 0) (by rw [h]; rfl)).2 c hc

theorem unicodeEscape_eq {text rest : Text} {n : Nat} (h : unicodeEscape? text = some (n, rest)) :
    ∃ taken, text = taken ++ rest ∧ taken ≠ [] ∧ EndsWell taken := by
  unfold unicodeEscape? at h
  split at h
  · rename_i cs
    simp only [Option.bind_eq_bind, Option.bind_eq_some_iff] at h
    obtain ⟨value, -, -, -, h⟩ := h
    split at h
    · rename_i rest' hdrop
      simp only [Option.some.injEq, Prod.mk.injEq] at h
      obtain ⟨-, rfl⟩ := h
      refine ⟨'{' :: (cs.takeWhile (· != '}') ++ ['}']), ?_, by simp, ?_⟩
      · have hsplit := List.takeWhile_append_dropWhile (p := (· != '}')) (l := cs)
        rw [hdrop] at hsplit
        simpa using hsplit.symm
      · intro c hc
        have : c = '}' := by simpa [List.getLast?_cons] using hc.symm
        rw [this]
        decide
    · cases h
  · rename_i a b c d rest' _
    simp only [Option.bind_eq_bind, Option.bind_eq_some_iff, Option.pure_def, Option.some.injEq,
      Prod.mk.injEq] at h
    obtain ⟨value, hvalue, -, rfl⟩ := h
    refine ⟨[a, b, c, d], rfl, by simp, endsWell_of_forall fun e he => ?_⟩
    exact not_isWhite_of_hexDigit (isSome_of_hexValue hvalue he)
  · cases h

theorem escapedName_eq (fuel : Nat) (text : Text) :
    ∃ taken, text = taken ++ (escapedName fuel text).2 ∧ EndsWell taken ∧
      ((escapedName fuel text).1 ≠ [] → taken ≠ []) := by
  fun_induction escapedName fuel text with
  | case1 fuel cs n rest hescape name rest' hrest ih =>
    obtain ⟨front, rfl, hne, hfront⟩ := unicodeEscape_eq hescape
    obtain ⟨taken, htaken, hends, -⟩ := ih
    rw [hrest] at htaken
    refine ⟨'\\' :: 'u' :: (front ++ taken), by simp [htaken], ?_, by simp⟩
    have hu : EndsWell ['\\', 'u'] := endsWell_of_forall (by decide)
    exact hu.append (hfront.append hends)
  | case3 fuel c cs hc hpart name rest hrest ih =>
    obtain ⟨taken, htaken, hends, -⟩ := ih
    rw [hrest] at htaken
    refine ⟨c :: taken, by simp [htaken], ?_, by simp⟩
    have hc : EndsWell [c] := endsWell_of_forall (by simpa using not_isWhite_of_isNamePart hpart)
    exact hc.append hends
  | _ => exact ⟨[], rfl, by simp [EndsWell], by simp⟩

theorem readName_eq (text : Text) :
    ∃ taken, text = taken ++ (readName text).rest ∧ (readName text).size = taken.size ∧
      EndsWell taken ∧ ((readName text).name.isEmpty = false → taken ≠ []) ∧
      ((readName text).escaped = false → taken = (readName text).name.toList) := by
  have hplain : EndsWell (text.takeWhile isNamePart) :=
    endsWell_of_forall fun c hc => not_isWhite_of_isNamePart (List.mem_takeWhile_imp hc)
  have hsplit := List.takeWhile_append_dropWhile (p := isNamePart) (l := text)
  rw [readName]
  split
  · rename_i cs hdrop
    obtain ⟨taken, htaken, hends, hne⟩ := escapedName_eq (cs.length + 1) ('\\' :: cs)
    rw [hdrop, htaken, ← List.append_assoc] at hsplit
    refine ⟨text.takeWhile isNamePart ++ taken, hsplit.symm, ?_, hplain.append hends, ?_, nofun⟩
    · show text.size - _ = _
      have := congrArg Text.size hsplit
      rw [Text.size_append] at this
      omega
    · intro hname hnil
      rw [List.append_eq_nil_iff] at hnil
      obtain ⟨hfirst, hsecond⟩ := hnil
      have hmore : (escapedName (cs.length + 1) ('\\' :: cs)).1 = [] := by
        by_contra h
        exact hne h hsecond
      simp [hfirst, hmore] at hname
  · refine ⟨text.takeWhile isNamePart, hsplit.symm, rfl, hplain, fun hname hnil => ?_, ?_⟩
    · simp [hnil] at hname
    · exact fun _ => String.toList_ofList.symm

end Names

section Numbers

/-- A printed character that takes one byte. -/
def Plain (c : Char) : Prop :=
  0x20 < c.toNat ∧ c.toNat < 0x7F

instance (c : Char) : Decidable (Plain c) :=
  inferInstanceAs (Decidable (_ ∧ _))

theorem Plain.size {c : Char} (h : Plain c) : c.utf8Size = 1 := by
  rw [Char.utf8Size_eq_one_iff]
  have : c.val.toNat < 0x7F := h.2
  rw [UInt32.le_iff_toNat_le]
  show c.val.toNat ≤ 127
  omega

theorem Plain.not_isWhite {c : Char} (h : Plain c) : isWhite c = false := by
  obtain ⟨hlo, hhi⟩ := h
  simp only [isWhite, Bool.or_eq_false_iff, Bool.and_eq_false_iff, decide_eq_false_iff_not,
    beq_eq_false_iff_ne]
  omega

theorem plain_of_isDigit {c : Char} (h : c.isDigit = true) : Plain c := by
  simp only [Char.isDigit, Bool.and_eq_true, decide_eq_true_eq, ge_iff_le,
    UInt32.le_iff_toNat_le] at h
  obtain ⟨hlo, hhi⟩ := h
  change 48 ≤ c.toNat at hlo
  change c.toNat ≤ 57 at hhi
  constructor <;> omega

theorem plain_of_either {a b c : Char} (h : (c == a || c == b) = true) (ha : Plain a)
    (hb : Plain b) : Plain c := by
  simp only [Bool.or_eq_true, beq_iff_eq] at h
  rcases h with rfl | rfl
  · exact ha
  · exact hb

theorem size_of_plain {s : Text} (h : ∀ c ∈ s, Plain c) : s.size = s.length := by
  induction s with
  | nil => rfl
  | cons c s ih =>
    obtain ⟨hc, hs⟩ := List.forall_mem_cons.mp h
    rw [Text.size_cons, List.length_cons, hc.size, ih hs, Nat.add_comm]

namespace NumberReading

/-- The reading has taken as many plain characters off the text as it counts, and one at least. -/
def Counts (text : Text) (r : NumberReading) : Prop :=
  ∃ taken : Text, text = taken ++ r.rest ∧ taken ≠ [] ∧ taken.length = r.size ∧
    ∀ c ∈ taken, Plain c

variable {text : Text} {r : NumberReading} {isDigit : Char → Bool}

theorem Counts.blame (h : Counts text r) : Counts text r.blame :=
  h

theorem Counts.close (h : Counts text r) : Counts text r.close := by
  rw [NumberReading.close]
  split <;> exact h

theorem Counts.skip (h : Counts text r) {c : Char} (hc : r.rest.head? = some c) (hplain : Plain c) :
    Counts text r.skip := by
  obtain ⟨taken, htext, -, hlen, hall⟩ := h
  obtain ⟨cs, hcs⟩ := List.head?_eq_some_iff.mp hc
  refine ⟨taken ++ [c], ?_, by simp, by simp [hlen, NumberReading.skip], ?_⟩
  · rw [htext, hcs]
    simp [NumberReading.skip, hcs]
  · intro d hd
    rcases List.mem_append.mp hd with hd | hd
    · exact hall d hd
    · rw [List.mem_singleton.mp hd]
      exact hplain

theorem Counts.skip_of_any (h : Counts text r) {p : Char → Bool} (hp : ∀ c, p c = true → Plain c)
    (hany : r.rest.head?.any p = true) : Counts text r.skip := by
  cases hc : r.rest.head? with
  | none => simp [hc] at hany
  | some c => exact h.skip hc (hp c (by simpa [hc] using hany))

theorem digits_eq (hp : ∀ c, isDigit c = true → Plain c) (size : Nat) (text : Text) :
    ∃ taken : Text, text = taken ++ (digits isDigit size text).rest ∧
      (digits isDigit size text).size = size + taken.length ∧ ∀ c ∈ taken, Plain c := by
  have hline : Plain '_' := by decide
  fun_induction digits isDigit size text with
  | case1 size => exact ⟨[], rfl, rfl, by simp⟩
  | case2 size d cs hd ih =>
    obtain ⟨taken, htaken, hsize, hall⟩ := ih
    refine ⟨'_' :: d :: taken, by simp [← htaken], by simp only [hsize, List.length_cons]; omega, ?_⟩
    simpa [hline, hp d hd] using hall
  | case3 | case4 => exact ⟨['_'], rfl, rfl, by simpa using hline⟩
  | case5 size c cs _ _ hc ih =>
    obtain ⟨taken, htaken, hsize, hall⟩ := ih
    refine ⟨c :: taken, by simp [← htaken], by simp only [hsize, List.length_cons]; omega, ?_⟩
    simpa [hp c hc] using hall
  | case6 => exact ⟨[], rfl, rfl, by simp⟩

theorem Counts.more (h : Counts text r) (hp : ∀ c, isDigit c = true → Plain c) :
    Counts text (r.more isDigit) := by
  obtain ⟨taken, htext, hne, hlen, hall⟩ := h
  obtain ⟨next, hnext, hsize, hall'⟩ := digits_eq hp r.size r.rest
  refine ⟨taken ++ next, ?_, by simp [hne], ?_, ?_⟩
  · rw [htext, List.append_assoc]
    exact congrArg _ hnext
  · rw [List.length_append, hlen]
    exact hsize.symm
  · intro c hc
    rcases List.mem_append.mp hc with hc | hc
    · exact hall c hc
    · exact hall' c hc

theorem Counts.oneOrMore (h : Counts text r) (hp : ∀ c, isDigit c = true → Plain c) :
    Counts text (r.oneOrMore isDigit) := by
  rw [NumberReading.oneOrMore]
  split
  · exact (h.skip_of_any hp ‹_›).more hp
  · exact h.blame

theorem Counts.exponent (h : Counts text r) : Counts text r.exponent := by
  rw [NumberReading.exponent]
  split
  · have hmark : Counts text r.skip :=
      h.skip_of_any (p := fun c => c == 'e' || c == 'E')
        (fun _ hc => plain_of_either hc (by decide) (by decide)) ‹_›
    refine Counts.oneOrMore ?_ fun _ => plain_of_isDigit
    split
    · exact hmark.skip_of_any (p := fun c => c == '+' || c == '-')
        (fun _ hc => plain_of_either hc (by decide) (by decide)) ‹_›
    · exact hmark
  · exact h

theorem Counts.fraction (h : Counts text r) : Counts text r.fraction := by
  rw [NumberReading.fraction]
  refine Counts.exponent ?_
  split
  · exact (h.skip_of_any (fun _ => plain_of_isDigit) ‹_›).more fun _ => plain_of_isDigit
  · exact h

theorem Counts.based (h : Counts text r) (hp : ∀ c, isDigit c = true → Plain c) :
    Counts text (r.based isDigit) := by
  rw [NumberReading.based]
  refine Counts.close ?_
  split
  · rename_i hn
    exact (h.oneOrMore hp).skip (by simpa using hn) (by decide)
  · exact h.oneOrMore hp

theorem Counts.leadingZero (h : Counts text r) : Counts text r.leadingZero := by
  have hdigits : Counts text ⟨r.size + (r.rest.takeWhile Char.isDigit).length,
      r.rest.dropWhile Char.isDigit, r.fault⟩ := by
    obtain ⟨taken, htext, hne, hlen, hall⟩ := h
    refine ⟨taken ++ r.rest.takeWhile Char.isDigit, ?_, by simp [hne], by simp [hlen], ?_⟩
    · rw [List.append_assoc, List.takeWhile_append_dropWhile, ← htext]
    · intro c hc
      rcases List.mem_append.mp hc with hc | hc
      · exact hall c hc
      · exact plain_of_isDigit (List.mem_takeWhile_imp hc)
  rw [NumberReading.leadingZero]
  split
  · rename_i rest hrest
    split
    · exact hdigits.close
    · exact (hdigits.skip (c := '.') (by simpa using congrArg List.head? hrest)
        (by decide)).fraction.close
  · split
    · exact hdigits.close
    · exact hdigits.exponent.close
  · exact hdigits.close

theorem plain_of_hexDigit {c : Char} (h : (hexDigit? c).isSome = true) : Plain c := by
  simp only [hexDigit?] at h
  split at h
  · simp only [Bool.and_eq_true, decide_eq_true_eq] at *
    constructor <;> omega
  · split at h
    · simp only [Bool.and_eq_true, decide_eq_true_eq] at *
      constructor <;> omega
    · split at h
      · simp only [Bool.and_eq_true, decide_eq_true_eq] at *
        constructor <;> omega
      · cases h

theorem plain_of_octalDigit {c : Char} (h : (octalDigit? c).isSome = true) : Plain c := by
  simp only [octalDigit?] at h
  split at h
  · rename_i hc
    simp only [Bool.and_eq_true, decide_eq_true_eq, Char.le_def, UInt32.le_iff_toNat_le] at hc
    obtain ⟨hlo, hhi⟩ := hc
    change 48 ≤ c.toNat at hlo
    change c.toNat ≤ 55 at hhi
    constructor <;> omega
  · cases h

/-- A number takes at least its first character off the text. -/
theorem read_counts {c : Char} (cs : Text) (hc : Plain c) : Counts (c :: cs) (read (c :: cs)) := by
  have hfirst : Counts (c :: cs) (NumberReading.skip ⟨0, c :: cs, none⟩) :=
    ⟨[c], rfl, by simp, rfl, by simpa using hc⟩
  unfold NumberReading.read
  split
  · exact (hfirst.oneOrMore fun _ => plain_of_isDigit).exponent.close
  · rename_i x rest heq
    obtain ⟨rfl, rfl⟩ := List.cons.inj heq
    have hskip (hx : Plain x) : Counts ('0' :: x :: rest)
        (NumberReading.skip (NumberReading.skip ⟨0, '0' :: x :: rest, none⟩)) :=
      hfirst.skip rfl hx
    split
    · rename_i hx
      exact (hskip (plain_of_either hx (by decide) (by decide))).based fun _ => plain_of_hexDigit
    split
    · rename_i hx
      exact (hskip (plain_of_either hx (by decide) (by decide))).based fun _ => plain_of_octalDigit
    split
    · rename_i hx
      exact (hskip (plain_of_either hx (by decide) (by decide))).based
        fun _ hd => plain_of_either hd (by decide) (by decide)
    split
    · exact hfirst.leadingZero
    split
    · rename_i hx
      rw [beq_iff_eq] at hx
      exact (hskip (by rw [hx]; decide)).fraction.close
    split
    · rename_i hx
      rw [beq_iff_eq] at hx
      exact (hskip (by rw [hx]; decide)).close
    · exact hfirst.exponent.close
  · have hmore : Counts (c :: cs) (more Char.isDigit (NumberReading.skip ⟨0, c :: cs, none⟩)) :=
      hfirst.more fun _ => plain_of_isDigit
    dsimp only
    split
    · rename_i hrest
      exact (hmore.skip (by rw [hrest]; rfl) (by decide)).fraction.close
    · rename_i hrest
      exact (hmore.skip (by rw [hrest]; rfl) (by decide)).close
    · exact hmore.exponent.close

end NumberReading

end Numbers

section Bodies

theorem stringBody_eq {quote : Char} {text raw rest : Text}
    (h : stringBody quote text = some (raw, rest)) : text = raw ++ quote :: rest := by
  fun_induction stringBody quote text generalizing raw with
  | case1 => cases h
  | case2 cs ih | case3 _ _ _ ih =>
    obtain ⟨⟨raw', rest'⟩, hbody, heq⟩ := Option.map_eq_some_iff.mp h
    cases heq
    simp [ih hbody]
  | case4 c cs _ _ hc =>
    cases h
    rw [beq_iff_eq.mp hc]
    rfl
  | case5 => cases h
  | case6 _ _ _ _ _ _ ih =>
    obtain ⟨⟨raw', rest'⟩, hbody, heq⟩ := Option.map_eq_some_iff.mp h
    cases heq
    simp [ih hbody]

/-- What ends a stretch of template text. -/
def templateEnd (closed : Bool) : Text :=
  if closed then [Char.ofNat 0x60] else ['$', '{']

theorem templateBody_eq {text raw rest : Text} {closed : Bool}
    (h : templateBody text = some (raw, closed, rest)) :
    text = raw ++ (templateEnd closed ++ rest) := by
  fun_induction templateBody text generalizing raw with
  | case1 => cases h
  | case2 _ _ ih | case5 _ _ _ _ _ ih =>
    obtain ⟨⟨raw', closed', rest'⟩, hbody, heq⟩ := Option.map_eq_some_iff.mp h
    cases heq
    simp [ih hbody]
  | case3 =>
    cases h
    rfl
  | case4 c cs _ _ hc =>
    cases h
    have : c = Char.ofNat 0x60 := by
      rw [← Char.ofNat_toNat c, beq_iff_eq.mp hc]
    rw [this]
    rfl

theorem regexBody_eq {inClass : Bool} {text raw rest : Text}
    (h : regexBody inClass text = some (raw, rest)) : text = raw ++ '/' :: rest := by
  fun_induction regexBody inClass text generalizing raw with
  | case1 | case2 | case4 => cases h
  | case3 | case6 =>
    rename_i ih
    obtain ⟨⟨raw', rest'⟩, hbody, heq⟩ := Option.map_eq_some_iff.mp h
    cases heq
    simp [ih hbody]
  | case5 _ c cs _ _ hc =>
    cases h
    simp only [Bool.and_eq_true, beq_iff_eq] at hc
    rw [hc.1]
    rfl

end Bodies

section Symbols

theorem symbols_plain : ∀ p ∈ symbols, p.1 = p.2.toList ∧ p.1 ≠ [] ∧ (∀ c ∈ p.1, Plain c) ∧
    (p.1.head? = some ';' → p.2 = ";") := by
  decide +kernel

theorem crisp_of_plain {s : Text} (h : ∀ c ∈ s, Plain c) (hne : s ≠ []) : s.Crisp := by
  refine ⟨⟨s.head hne, List.head?_eq_some_head hne, ?_⟩,
    ⟨s.getLast hne, List.getLast?_eq_some_getLast hne, ?_⟩⟩
  · exact (h _ (List.head_mem hne)).not_isWhite
  · exact (h _ (List.getLast_mem hne)).not_isWhite

/-- A symbol at the beginning of a text. -/
structure SymbolAt (text : Text) (x : String) : Prop where
  eq : text = x.toList ++ text.drop x.length
  size : Text.size x.toList = x.length
  spelled : (Lexeme.symbol x).Spelled x.toList

theorem symbolAt_of_plain {text : Text} {x : String} (hbegins : x.toList <+: text)
    (hne : x.toList ≠ []) (hplain : ∀ c ∈ x.toList, Plain c)
    (hsemi : x.toList.head? = some ';' → x = ";") : SymbolAt text x := by
  obtain ⟨rest, rfl⟩ := hbegins
  refine ⟨?_, ?_, rfl, crisp_of_plain hplain hne, hsemi⟩
  · rw [← String.length_toList, List.drop_left]
  · rw [size_of_plain hplain, String.length_toList]

theorem symbolAt_longest {text : Text} {x : String} (h : symbol?.longest text = some x) :
    SymbolAt text x := by
  obtain ⟨⟨chars, name⟩, hfind, rfl⟩ := Option.map_eq_some_iff.mp h
  obtain ⟨heq, hne, hplain, hsemi⟩ := symbols_plain _ (List.mem_of_find?_eq_some hfind)
  have hmatch : chars.isPrefixOf text = true := by simpa using List.find?_some hfind
  dsimp only at heq hne hplain hsemi ⊢
  rw [heq] at hmatch hne hplain hsemi
  exact symbolAt_of_plain (List.isPrefixOf_iff_prefix.mp hmatch) hne hplain hsemi

theorem symbolAt_symbol {text : Text} {x : String} (h : symbol? text = some x) :
    SymbolAt text x := by
  unfold symbol? at h
  split at h
  · split at h
    · cases h
      exact symbolAt_of_plain ⟨_, rfl⟩ (by decide) (by decide) (by decide)
    · exact symbolAt_longest h
  · exact symbolAt_longest h

end Symbols

section Readers

theorem crisp_of_ends {s : Text} {c : Char} (hhead : s.head? = some c) (hc : isWhite c = false)
    (hends : EndsWell s) : s.Crisp := by
  refine ⟨⟨c, hhead, hc⟩, ?_⟩
  cases hlast : s.getLast? with
  | none =>
    rw [List.getLast?_eq_none_iff.mp hlast] at hhead
    cases hhead
  | some d => exact ⟨d, rfl, hends d hlast⟩

/-- Text that begins and ends with a quote or the like. -/
theorem crisp_of_quotes {a b : Char} {raw : Text} (ha : isWhite a = false) (hb : isWhite b = false) :
    Text.Crisp (a :: (raw ++ [b])) := by
  refine crisp_of_ends rfl ha fun c hc => ?_
  have : c = b := by simpa [List.getLast?_cons] using hc.symm
  rw [this]
  exact hb

theorem templateEnd_size (closed : Bool) :
    (templateEnd closed).size + 1 = if closed then 2 else 3 := by
  cases closed <;> rfl

theorem endsWell_templateEnd (closed : Bool) : EndsWell (templateEnd closed) := by
  cases closed <;> exact endsWell_of_forall (by decide)

theorem spelled_template {cooked : Option String} {closed : Bool} {c : Char} {raw : Text}
    (hc : isWhite c = false) (hsemi : c ≠ ';') :
    (Lexeme.template cooked closed).Spelled (c :: (raw ++ templateEnd closed)) := by
  refine ⟨crisp_of_ends rfl hc ?_, by simpa using hsemi⟩
  intro d hd
  have hlast : (templateEnd closed).getLast? = some d := by
    cases closed <;> simpa [templateEnd, List.getLast?_cons] using hd
  exact endsWell_templateEnd closed d hlast

/-- The token at the beginning of a text that begins with no blank. -/
theorem tokenAt_at (newline : Bool) (offset : Nat) (text : Text)
    (hhead : ∀ c, text.head? = some c → isWhite c = false) :
    (tokenAt newline offset text).At offset text := by
  cases text with
  | nil => exact ⟨rfl, rfl, [], rfl, rfl, trivial⟩
  | cons c cs =>
    have hc : isWhite c = false := hhead c rfl
    unfold tokenAt
    dsimp only
    split
    · rename_i hname
      have hsemi : c ≠ ';' := by
        rintro rfl
        exact absurd hname (by decide +kernel)
      obtain ⟨taken, htaken, hsize, hends, hne, hplain⟩ := readName_eq (c :: cs)
      split
      · exact ⟨rfl, rfl, [c], rfl, rfl, trivial⟩
      · rename_i hempty
        have hnil : taken ≠ [] := hne (by simpa using hempty)
        have hfirst : taken.head? = some c := by
          cases taken with
          | nil => exact absurd rfl hnil
          | cons d taken => rw [(List.cons.inj htaken).1]; rfl
        refine ⟨rfl, rfl, taken, htaken, by rw [← hsize], crisp_of_ends hfirst hc hends, ?_, hplain⟩
        rw [hfirst]
        simpa using hsemi
    split
    · rename_i hnumber
      have hplain : Plain c := by
        simp only [Bool.or_eq_true, Bool.and_eq_true, beq_iff_eq] at hnumber
        rcases hnumber with h | ⟨rfl, -⟩
        · exact plain_of_isDigit h
        · decide
      have hsemi : c ≠ ';' := by
        rintro rfl
        simp at hnumber
      obtain ⟨taken, htaken, hne, hlen, hall⟩ := NumberReading.read_counts cs hplain
      refine ⟨rfl, rfl, taken, htaken, by rw [size_of_plain hall, hlen],
        crisp_of_plain hall hne, ?_⟩
      cases taken with
      | nil => exact absurd rfl hne
      | cons d taken =>
        rw [← (List.cons.inj htaken).1]
        simpa using hsemi
    split
    · rename_i hquote
      have hsize : c.utf8Size = 1 := by
        simp only [Bool.or_eq_true, beq_iff_eq] at hquote
        rcases hquote with rfl | rfl <;> rfl
      have hsemi : c ≠ ';' := by
        rintro rfl
        exact absurd hquote (by decide)
      split
      · exact ⟨rfl, rfl, c :: cs, by simp, rfl, trivial⟩
      · rename_i raw rest hbody
        refine ⟨rfl, rfl, c :: (raw ++ [c]), ?_, ?_, crisp_of_quotes hc hc, ?_⟩
        · simp [stringBody_eq hbody]
        · simp only [Text.size_cons, Text.size_append, Text.size_nil, hsize]
          omega
        · simpa using hsemi
    split
    · rename_i htick
      have hcode : c = Char.ofNat 0x60 := by
        rw [← Char.ofNat_toNat c, beq_iff_eq.mp htick]
      split
      · exact ⟨rfl, rfl, c :: cs, by simp, rfl, trivial⟩
      · rename_i raw closed rest hbody
        refine ⟨rfl, rfl, c :: (raw ++ templateEnd closed), ?_, ?_,
          spelled_template hc (by rw [hcode]; decide)⟩
        · simp [templateBody_eq hbody]
        · have hsize : c.utf8Size = 1 := by rw [hcode]; rfl
          simp only [Text.size_cons, Text.size_append, hsize, ← templateEnd_size closed]
          omega
    split
    · rename_i hhash
      obtain rfl : c = '#' := beq_iff_eq.mp hhash
      split
      · obtain ⟨taken, htaken, hsize, hends, -⟩ := readName_eq cs
        refine ⟨rfl, rfl, '#' :: taken, congrArg _ htaken, ?_, ?_, by simp⟩
        · rw [hsize, Text.size_cons, Nat.add_comm taken.size]
          rfl
        · exact crisp_of_ends rfl hc ((endsWell_of_forall (s := ['#']) (by decide)).append hends)
      · exact ⟨rfl, rfl, ['#'], rfl, rfl, trivial⟩
    split
    · rename_i x hsymbol
      have hx := symbolAt_symbol hsymbol
      exact ⟨rfl, rfl, x.toList, hx.eq, by rw [hx.size], hx.spelled⟩
    · exact ⟨rfl, rfl, [c], rfl, rfl, trivial⟩

theorem read_of (offset : Nat) (text : Text) : (read offset text).Of offset text := by
  obtain ⟨gap, htext, hoffset, hhead⟩ := skip_skips false none .blank 0 offset text
  refine ⟨gap, _, htext, ?_⟩
  rw [← hoffset]
  exact tokenAt_at _ _ _ hhead

theorem read_semicolon (offset : Nat) (text : Text) : (read offset text).Semicolon := by
  intro hhead
  have hname : isNameStart ';' = false := by decide +kernel
  have hhere : (read offset text).here = (skip false none .blank 0 offset text).rest := by
    obtain ⟨gap, -, hoffset, hfirst⟩ := skip_skips false none .blank 0 offset text
    exact (tokenAt_at _ _ _ hfirst).1
  rw [hhere] at hhead
  obtain ⟨cs, hcs⟩ := List.head?_eq_some_iff.mp hhead
  have hsymbol : symbol? (';' :: cs) = some ";" := rfl
  show (tokenAt _ _ (skip false none .blank 0 offset text).rest).token.is ";" = true
  rw [hcs]
  simp [tokenAt, hname, hsymbol, Token.is]

variable {token : Token} {here : Text}

theorem readRegex_at {rest : Text} (hhere : here = '/' :: rest) :
    (readRegex token here).At token.span.start here := by
  unfold readRegex
  split
  · exact ⟨rfl, rfl, here, by simp, rfl, trivial⟩
  · rename_i raw tail hbody
    have hflags : EndsWell (tail.takeWhile isNamePart) :=
      endsWell_of_forall fun c hc => not_isWhite_of_isNamePart (List.mem_takeWhile_imp hc)
    refine ⟨rfl, rfl, '/' :: (raw ++ ('/' :: tail.takeWhile isNamePart)), ?_, ?_, ?_, by simp⟩
    · rw [hhere, List.drop_one, List.tail_cons] at hbody
      rw [hhere, regexBody_eq hbody]
      simp
    · have hsize : Char.utf8Size '/' = 1 := rfl
      simp only [Text.size_cons, Text.size_append, hsize]
      omega
    · refine crisp_of_ends rfl (by decide) ?_
      have hslash : EndsWell ['/'] := endsWell_of_forall (by decide)
      intro c hc
      refine (hslash.append hflags) c ?_
      simpa [List.getLast?_cons] using hc

theorem readTemplateRest_at {rest : Text} (hhere : here = '}' :: rest) :
    (readTemplateRest token here).At token.span.start here := by
  unfold readTemplateRest
  split
  · exact ⟨rfl, rfl, here, by simp, rfl, trivial⟩
  · rename_i raw closed tail hbody
    refine ⟨rfl, rfl, '}' :: (raw ++ templateEnd closed), ?_, ?_,
      spelled_template (by decide) (by decide)⟩
    · rw [hhere, List.drop_one, List.tail_cons] at hbody
      rw [hhere, templateBody_eq hbody]
      simp
    · have hsize : Char.utf8Size '}' = 1 := rfl
      simp only [Text.size_cons, Text.size_append, hsize, ← templateEnd_size closed]
      omega

theorem readAngles_at {rest : Text} (hhere : here = '>' :: rest) :
    (readAngles token here).At token.span.start here := by
  have hsymbol : SymbolAt here
      (([">>>=", ">>>", ">>=", ">>", ">="].find? fun s => s.toList.isPrefixOf here).getD ">") := by
    cases hfind : [">>>=", ">>>", ">>=", ">>", ">="].find? fun s => s.toList.isPrefixOf here with
    | none =>
      exact symbolAt_of_plain ⟨rest, hhere.symm⟩ (by decide) (by decide) (by decide)
    | some x =>
      have hall : ∀ x ∈ [">>>=", ">>>", ">>=", ">>", ">="], x.toList ≠ [] ∧
          (∀ c ∈ x.toList, Plain c) ∧ x.toList.head? ≠ some ';' := by decide
      obtain ⟨hne, hplain, hsemi⟩ := hall x (List.mem_of_find?_eq_some hfind)
      have hmatch := List.find?_some hfind
      exact symbolAt_of_plain (List.isPrefixOf_iff_prefix.mp hmatch) hne hplain
        fun h => absurd h hsemi
  exact ⟨rfl, rfl, _, hsymbol.eq, by rw [hsymbol.size]; rfl, hsymbol.spelled⟩

theorem readOneAngle_at {rest : Text} (hhere : here = '<' :: rest) :
    (readOneAngle token here).At token.span.start here := by
  have hsymbol : SymbolAt here "<" :=
    symbolAt_of_plain ⟨rest, hhere.symm⟩ (by decide) (by decide) (by decide)
  exact ⟨rfl, rfl, _, hsymbol.eq, rfl, hsymbol.spelled⟩

/-- A name in markup is not empty and has no blank in it. -/
theorem readMarkupName_at {name : String} {escaped : Bool}
    (hname : (readMarkupName token here).token.lexeme = .word name escaped)
    (hne : name.isEmpty = false) : (readMarkupName token here).At token.span.start here := by
  let part (c : Char) : Bool := isNamePart c || c == '-'
  have hsplit : here.takeWhile part ++ here.dropWhile part = here :=
    List.takeWhile_append_dropWhile
  have hpart : ∀ c ∈ here.takeWhile part, isWhite c = false ∧ c ≠ ';' := by
    intro c hc
    have hp := List.mem_takeWhile_imp hc
    refine ⟨?_, ?_⟩
    · refine not_isWhite_of (p := part) (by decide +kernel) hp
    · rintro rfl
      exact absurd hp (by decide +kernel)
  have hnil : here.takeWhile part ≠ [] := by
    intro hnil
    obtain ⟨hword, -⟩ := Lexeme.word.inj hname
    rw [← hword, show (here.takeWhile fun c => isNamePart c || c == '-') = [] from hnil] at hne
    cases hne
  refine ⟨rfl, rfl, here.takeWhile part, hsplit.symm, rfl, ?_, ?_, ?_⟩
  · exact ⟨⟨_, List.head?_eq_some_head hnil, (hpart _ (List.head_mem hnil)).1⟩,
      ⟨_, List.getLast?_eq_some_getLast hnil, (hpart _ (List.getLast_mem hnil)).1⟩⟩
  · intro hsemi
    exact (hpart _ (List.mem_of_head? hsemi)).2 rfl
  · exact fun _ => String.toList_ofList.symm

theorem readMarkupChild_of (offset : Nat) (text : Text) :
    (readMarkupChild offset text).Of offset text := by
  refine ⟨[], text, rfl, ?_⟩
  unfold readMarkupChild
  split
  · exact ⟨rfl, rfl, [], rfl, rfl, trivial⟩
  · rename_i c cs
    split
    · rename_i hc
      rw [beq_iff_eq.mp hc]
      have hsymbol : SymbolAt ('<' :: cs) "<" :=
        symbolAt_of_plain ⟨cs, rfl⟩ (by decide) (by decide) (by decide)
      exact ⟨rfl, rfl, ['<'], rfl, rfl, hsymbol.spelled⟩
    split
    · rename_i hc
      have hcode : c = '{' := by
        rw [← Char.ofNat_toNat c, beq_iff_eq.mp hc]
      rw [hcode]
      have hsymbol : SymbolAt ('{' :: cs) "\x7b" :=
        symbolAt_of_plain ⟨cs, rfl⟩ (by decide) (by decide) (by decide)
      exact ⟨rfl, rfl, ['{'], rfl, rfl, hsymbol.spelled⟩
    · dsimp only
      have hsplit := List.takeWhile_append_dropWhile (l := c :: cs)
        (p := fun d => d != '<' && d != '>' && d.toNat != 0x7B && d.toNat != 0x7D)
      split
      · exact ⟨rfl, rfl, _, hsplit.symm, rfl, trivial⟩
      · split
        · exact ⟨rfl, rfl, _, hsplit.symm, rfl, trivial⟩
        · exact ⟨rfl, rfl, _, hsplit.symm, rfl, trivial⟩

theorem readMarkupString_of (offset : Nat) (text : Text) :
    (readMarkupString offset text).Of offset text := by
  obtain ⟨gap, htext, hoffset, hhead⟩ := skip_skips false none .blank 0 offset text
  unfold readMarkupString
  dsimp only
  split
  · rename_i c cs hrest
    split
    · rename_i hquote
      have hsize : c.utf8Size = 1 := by
        simp only [Bool.or_eq_true, beq_iff_eq] at hquote
        rcases hquote with rfl | rfl <;> rfl
      have hsemi : c ≠ ';' := by
        rintro rfl
        exact absurd hquote (by decide)
      have hc : isWhite c = false := hhead c (by rw [hrest]; rfl)
      rw [hrest] at htext
      refine ⟨gap, c :: cs, htext, ?_⟩
      rw [← hoffset]
      split
      · rw [hrest]
        exact ⟨rfl, rfl, c :: cs, by simp, rfl, trivial⟩
      · rename_i d rest hdrop
        have hd : d = c := by
          have := List.head?_dropWhile_not (· != c) cs
          rw [hdrop] at this
          simpa using this
        subst hd
        rw [hrest]
        have hsplit := List.takeWhile_append_dropWhile (l := cs) (p := (· != d))
        rw [hdrop] at hsplit
        refine ⟨rfl, rfl, d :: (cs.takeWhile (· != d) ++ [d]), ?_, ?_, crisp_of_quotes hc hc, ?_⟩
        · simp [hsplit]
        · simp only [Text.size_cons, Text.size_append, Text.size_nil, hsize]
          omega
        · simpa using hsemi
    · exact read_of offset text
  · exact read_of offset text

theorem readMarkupString_semicolon (offset : Nat) (text : Text) :
    (readMarkupString offset text).Semicolon := by
  unfold readMarkupString
  dsimp only
  split
  · rename_i c cs hrest
    split
    · rename_i hquote
      have hsemi (r : Reading) (hr : r.here = c :: cs) : r.Semicolon := by
        intro hhead
        rw [hr, List.head?_cons, Option.some.injEq] at hhead
        rw [hhead] at hquote
        exact absurd hquote (by decide)
      split
      · exact hsemi _ hrest
      · exact hsemi _ hrest
    · exact read_semicolon offset text
  · exact read_semicolon offset text

end Readers

end Lexer

end Codemod

import Codemod.Proofs.Syntax.Lexer
import Codemod.Proofs.Text.Words
import Codemod.Version.Range

/-!
# Codemod.Proofs.Version.Spelling

The ways to write a range, and what is made of them.

A `Range.Spelling` is a list of comparators with blanks between them, or two versions with a hyphen
between them. Each comparator may have blanks behind its operator, and each number may have a `v`
before it. The blanks and the `v`s of comparators are dropped (`normalize?_comparators`), while the
ends of a hyphen range stay as they are written (`normalize?_span`).
-/

namespace Codemod

namespace Range

open Lexer (not_isWhite_of)

/-! ## Spellings -/

/-- Characters that the versions of a range are written with. -/
def isVersionChar (c : Char) : Bool :=
  Requirement.isTagChar c || c == '.' || c == '+' || c == '*'

def isWildcard (c : Char) : Bool :=
  c == '*' || c == 'x' || c == 'X'

/-- A version begins with a number or with a wildcard. -/
def isVersion : Text → Bool
  | [] => false
  | c :: cs => (c.isDigit || isWildcard c) && cs.all isVersionChar

/-- A version and whether a `v` is written before it. -/
structure Mention where
  marked : Bool
  version : Text

namespace Mention

def text (m : Mention) : Text :=
  if m.marked then 'v' :: m.version else m.version

/-- Only a number has a `v` before it. -/
structure Sound (m : Mention) : Prop where
  isVersion : isVersion m.version = true
  isDigit : m.marked = true → m.version.head?.any Char.isDigit = true

instance (m : Mention) : Decidable m.Sound :=
  decidable_of_iff
    (Range.isVersion m.version = true ∧
      (m.marked = true → m.version.head?.any Char.isDigit = true))
    ⟨fun ⟨hversion, hdigit⟩ => ⟨hversion, hdigit⟩, fun h => ⟨h.isVersion, h.isDigit⟩⟩

end Mention

/-- A comparator: an operator, if there is one, the blanks behind it, and a version. -/
structure Term where
  operator : Text
  gap : Text
  mention : Mention

namespace Term

def text (t : Term) : Text :=
  t.operator ++ (t.gap ++ t.mention.text)

/-- The comparator without blanks and without a `v`. -/
def plain (t : Term) : Text :=
  t.operator ++ t.mention.version

structure Sound (t : Term) : Prop where
  operator_chars : ∀ c ∈ t.operator, isOperatorChar c = true
  gap_blank : t.gap.isBlank = true
  gap_eq_nil : t.operator = [] → t.gap = []
  mention : t.mention.Sound

instance (t : Term) : Decidable t.Sound :=
  decidable_of_iff
    (t.operator.all isOperatorChar = true ∧ t.gap.isBlank = true ∧
      (t.operator = [] → t.gap = []) ∧ t.mention.Sound)
    ⟨fun ⟨hop, hgap, hnil, hmention⟩ => ⟨List.all_eq_true.mp hop, hgap, hnil, hmention⟩,
      fun h => ⟨List.all_eq_true.mpr h.operator_chars, h.gap_blank, h.gap_eq_nil, h.mention⟩⟩

end Term

/-- Comparators with blanks before each of them. -/
def chain (terms : List (Text × Term)) : Text :=
  terms.flatMap fun (blank, t) => blank ++ t.text

inductive Spelling where
  /-- Comparators with blanks between them. -/
  | comparators (lead : Text) (first : Term) (more : List (Text × Term)) (trail : Text)
  /-- Two versions with a hyphen between them. -/
  | span (lead : Text) (low : Mention) (before after : Text) (high : Mention) (trail : Text)

namespace Spelling

def text : Spelling → Text
  | comparators lead first more trail => lead ++ (first.text ++ chain more ++ trail)
  | span lead low before after high trail =>
    lead ++ (low.text ++ (before ++ '-' :: (after ++ high.text)) ++ trail)

def Sound : Spelling → Prop
  | comparators lead first more trail =>
    lead.isBlank = true ∧ first.Sound ∧
      (∀ term ∈ more, term.1.isBlank = true ∧ term.1 ≠ [] ∧ term.2.Sound) ∧ trail.isBlank = true
  | span lead low before after high trail =>
    lead.isBlank = true ∧ low.Sound ∧ before.isBlank = true ∧ before ≠ [] ∧
      after.isBlank = true ∧ after ≠ [] ∧ high.Sound ∧ trail.isBlank = true

instance : (s : Spelling) → Decidable s.Sound
  | comparators lead first more trail =>
    inferInstanceAs (Decidable (lead.isBlank = true ∧ first.Sound ∧
      (∀ term ∈ more, term.1.isBlank = true ∧ term.1 ≠ [] ∧ term.2.Sound) ∧
        trail.isBlank = true))
  | span lead low before after high trail =>
    inferInstanceAs (Decidable (lead.isBlank = true ∧ low.Sound ∧ before.isBlank = true ∧
      before ≠ [] ∧ after.isBlank = true ∧ after ≠ [] ∧ high.Sound ∧ trail.isBlank = true))

/-- A `v` stands before an end of a hyphen range. -/
def IsMarkedSpan : Spelling → Prop
  | comparators .. => False
  | span _ low _ _ high _ => low.marked = true ∨ high.marked = true

end Spelling

/-- What a range says, however it is written. -/
inductive Content where
  | comparators (terms : List Text)
  | span (low high : Text)
  deriving DecidableEq

namespace Content

/-- The text of a requirement that says the same. -/
def requirement : Content → Text
  | comparators terms => Text.join ", ".toList terms
  | span low high => ">=".toList ++ low ++ ", <=".toList ++ high

end Content

/-- Operators and versions, without blanks and without any `v`. -/
def Spelling.content : Spelling → Content
  | comparators _ first more _ => .comparators (first.plain :: more.map fun term => term.2.plain)
  | span _ low _ _ high _ => .span low.version high.version

/-! ## Characters -/

theorem isVersionChar_of_isDigit {c : Char} (h : c.isDigit = true) : isVersionChar c = true := by
  simp [isVersionChar, Requirement.isTagChar, Char.isAlphanum, h]

theorem isVersionChar_of_isWildcard {c : Char} (h : isWildcard c = true) :
    isVersionChar c = true := by
  simp only [isWildcard, Bool.or_eq_true, beq_iff_eq] at h
  rcases h with (rfl | rfl) | rfl <;> decide

theorem not_isWhite_of_isVersionChar {c : Char} (h : isVersionChar c = true) :
    isWhite c = false :=
  not_isWhite_of (by decide +kernel) h

theorem not_isWhite_of_isOperatorChar {c : Char} (h : isOperatorChar c = true) :
    isWhite c = false :=
  not_isWhite_of (by decide +kernel) h

theorem not_isOperatorChar_of_isWhite {c : Char} (h : isWhite c = true) :
    isOperatorChar c = false := by
  by_contra hop
  rw [not_isWhite_of_isOperatorChar (by simpa using hop)] at h
  cases h

theorem not_isOperatorChar_of_isVersionChar {c : Char} (h : isVersionChar c = true) :
    isOperatorChar c = false := by
  by_contra hop
  simp only [Bool.not_eq_false, isOperatorChar, Bool.or_eq_true, beq_iff_eq] at hop
  rcases hop with (((rfl | rfl) | rfl) | rfl) | rfl <;> revert h <;> decide

/-- Neither blanks nor operators. -/
def Seamless (s : Text) : Prop :=
  ∀ c ∈ s, isWhite c = false ∧ isOperatorChar c = false

theorem Seamless.unbroken {s : Text} (h : Seamless s) : s.Unbroken := fun c hc => (h c hc).1

theorem seamless_of_isVersionChar {s : Text} (h : ∀ c ∈ s, isVersionChar c = true) :
    Seamless s := fun c hc =>
  ⟨not_isWhite_of_isVersionChar (h c hc), not_isOperatorChar_of_isVersionChar (h c hc)⟩

theorem isVersion_cons {s : Text} (h : isVersion s = true) : ∃ c cs, s = c :: cs ∧
    (c.isDigit = true ∨ isWildcard c = true) ∧ ∀ d ∈ s, isVersionChar d = true := by
  cases s with
  | nil => cases h
  | cons c cs =>
    rw [isVersion, Bool.and_eq_true, Bool.or_eq_true, List.all_eq_true] at h
    refine ⟨c, cs, rfl, h.1, List.forall_mem_cons.mpr ⟨?_, h.2⟩⟩
    exact h.1.elim isVersionChar_of_isDigit isVersionChar_of_isWildcard

namespace Mention.Sound

variable {m : Mention} (hm : m.Sound)

include hm

theorem isVersionChar : ∀ c ∈ m.text, isVersionChar c = true := by
  obtain ⟨-, -, -, -, hall⟩ := isVersion_cons hm.isVersion
  unfold text
  split
  · exact List.forall_mem_cons.mpr ⟨by decide, hall⟩
  · exact hall

theorem seamless : Seamless m.text :=
  seamless_of_isVersionChar hm.isVersionChar

theorem text_ne_nil : m.text ≠ [] := by
  obtain ⟨c, cs, hversion, -⟩ := isVersion_cons hm.isVersion
  unfold text
  split
  · exact List.cons_ne_nil _ _
  · rw [hversion]
    exact List.cons_ne_nil _ _

/-- A version is not a hyphen, with or without a `v`. -/
theorem text_ne_hyphen : m.text ≠ ['-'] := by
  obtain ⟨c, cs, hversion, hhead, -⟩ := isVersion_cons hm.isVersion
  unfold text
  split
  · simp
  · rw [hversion]
    rintro heq
    cases heq
    revert hhead
    decide

end Mention.Sound

/-! ## Blanks behind operators -/

section Close

variable {blank word s : Text}

theorem closeOperators_blank (hb : blank.isBlank = true) (s : Text) :
    closeOperators false (blank ++ s) = blank ++ closeOperators false s := by
  induction blank with
  | nil => rfl
  | cons c cs ih =>
    obtain ⟨hc, hcs⟩ := Bool.and_eq_true_iff.mp hb
    rw [List.cons_append, closeOperators, not_isOperatorChar_of_isWhite hc, ih hcs]
    rfl

theorem closeOperators_operators (b : Bool) (hword : ∀ c ∈ word, isOperatorChar c = true)
    (hne : word ≠ []) (s : Text) :
    closeOperators b (word ++ s) = word ++ closeOperators true s := by
  induction word generalizing b with
  | nil => exact absurd rfl hne
  | cons c cs ih =>
    obtain ⟨hc, hcs⟩ := List.forall_mem_cons.mp hword
    rw [List.cons_append, closeOperators, not_isWhite_of_isOperatorChar hc, Bool.and_false, hc]
    cases cs with
    | nil => rfl
    | cons d ds =>
      rw [ih true hcs (List.cons_ne_nil d ds)]
      rfl

theorem closeOperators_gap (hb : blank.isBlank = true) (s : Text) :
    closeOperators true (blank ++ s) = closeOperators true s := by
  induction blank with
  | nil => rfl
  | cons c cs ih =>
    obtain ⟨hc, hcs⟩ := Bool.and_eq_true_iff.mp hb
    rw [List.cons_append, closeOperators, hc, Bool.and_true, if_pos rfl, ih hcs]

theorem closeOperators_seamless (b : Bool) (hword : Seamless word) (hne : word ≠ []) (s : Text) :
    closeOperators b (word ++ s) = word ++ closeOperators false s := by
  induction word generalizing b with
  | nil => exact absurd rfl hne
  | cons c cs ih =>
    obtain ⟨⟨hwhite, hop⟩, hcs⟩ := List.forall_mem_cons.mp hword
    rw [List.cons_append, closeOperators, hwhite, Bool.and_false, hop]
    cases cs with
    | nil => rfl
    | cons d ds =>
      rw [ih false hcs (List.cons_ne_nil d ds)]
      rfl

theorem closeOperators_term {t : Term} (ht : t.Sound) (s : Text) :
    closeOperators false (t.text ++ s) =
      t.operator ++ (t.mention.text ++ closeOperators false s) := by
  have hmention (b : Bool) := closeOperators_seamless b ht.mention.seamless ht.mention.text_ne_nil s
  rw [Term.text, List.append_assoc, List.append_assoc]
  by_cases hop : t.operator = []
  · rw [ht.gap_eq_nil hop, hop, List.nil_append, List.nil_append, hmention, List.nil_append]
  · rw [closeOperators_operators false ht.operator_chars hop,
      closeOperators_gap ht.gap_blank, hmention]

end Close

/-! ## The `v` before a number -/

section Marks

variable {blank word s : Text}

theorem dropMarks_of_ne (b : Bool) {c : Char} (hc : c ≠ 'v') (cs : Text) :
    dropMarks b (c :: cs) = c :: dropMarks (isWhite c || isOperatorChar c) cs := by
  rw [dropMarks]
  rintro d ds rfl
  exact absurd rfl hc

theorem dropMarks_false (c : Char) (cs : Text) :
    dropMarks false (c :: cs) = c :: dropMarks (isWhite c || isOperatorChar c) cs := by
  by_cases hc : c = 'v'
  · subst hc
    cases cs <;> rfl
  · exact dropMarks_of_ne false hc cs

theorem dropMarks_blank (b : Bool) (hb : blank.isBlank = true) (hne : blank ≠ []) (s : Text) :
    dropMarks b (blank ++ s) = blank ++ dropMarks true s := by
  induction blank generalizing b with
  | nil => exact absurd rfl hne
  | cons c cs ih =>
    obtain ⟨hc, hcs⟩ := Bool.and_eq_true_iff.mp hb
    have hmark : c ≠ 'v' := by
      rintro rfl
      revert hc
      decide
    rw [List.cons_append, dropMarks_of_ne b hmark, hc, Bool.true_or]
    cases cs with
    | nil => rfl
    | cons d ds =>
      rw [ih true hcs (List.cons_ne_nil d ds)]
      rfl

theorem dropMarks_operators (hword : ∀ c ∈ word, isOperatorChar c = true) (s : Text) :
    dropMarks true (word ++ s) = word ++ dropMarks true s := by
  induction word with
  | nil => rfl
  | cons c cs ih =>
    obtain ⟨hc, hcs⟩ := List.forall_mem_cons.mp hword
    have hmark : c ≠ 'v' := by
      rintro rfl
      revert hc
      decide
    rw [List.cons_append, dropMarks_of_ne true hmark, hc, Bool.or_true, ih hcs]
    rfl

theorem dropMarks_seamless (hword : Seamless word) (s : Text) :
    dropMarks false (word ++ s) = word ++ dropMarks false s := by
  induction word with
  | nil => rfl
  | cons c cs ih =>
    obtain ⟨⟨hwhite, hop⟩, hcs⟩ := List.forall_mem_cons.mp hword
    rw [List.cons_append, dropMarks_false, hwhite, hop, Bool.or_self, ih hcs]
    rfl

theorem dropMarks_mention {m : Mention} (hm : m.Sound) (s : Text) :
    dropMarks true (m.text ++ s) = m.version ++ dropMarks false s := by
  obtain ⟨c, cs, hversion, hhead, hall⟩ := isVersion_cons hm.isVersion
  have hcs : Seamless cs := seamless_of_isVersionChar fun d hd =>
    hall d (hversion ▸ List.mem_cons_of_mem c hd)
  have hc := seamless_of_isVersionChar hall c (hversion ▸ List.mem_cons_self)
  unfold Mention.text
  split
  · next hmarked =>
    have hdigit : isDecimalDigit c = true := by
      have hsome := hm.isDigit hmarked
      rw [hversion] at hsome
      exact Bool.or_eq_true_iff.mpr (.inl hsome)
    rw [hversion, List.cons_append, List.cons_append, dropMarks, hdigit, Bool.and_self, if_pos rfl,
      dropMarks_seamless hcs]
    rfl
  · have hmark : c ≠ 'v' := by
      rintro rfl
      revert hhead
      decide
    rw [hversion, List.cons_append, dropMarks_of_ne true hmark, hc.1, hc.2, Bool.or_self,
      dropMarks_seamless hcs]
    rfl

/-- What is left of a comparator has neither blanks nor a `v` in it. -/
theorem dropMarks_closeOperators_term {t : Term} (ht : t.Sound) (s : Text) :
    dropMarks true (closeOperators false (t.text ++ s)) =
      t.plain ++ dropMarks false (closeOperators false s) := by
  rw [closeOperators_term ht,
    dropMarks_operators ht.operator_chars,
    dropMarks_mention ht.mention, Term.plain, List.append_assoc]

end Marks

/-! ## Lists of comparators -/

section Chain

variable {more : List (Text × Term)}

/-- Every comparator has blanks before it. -/
def Spaced (more : List (Text × Term)) : Prop :=
  ∀ term ∈ more, term.1.isBlank = true ∧ term.1 ≠ [] ∧ term.2.Sound

theorem dropMarks_closeOperators_chain (hmore : Spaced more) :
    dropMarks false (closeOperators false (chain more)) =
      more.flatMap fun (blank, t) => blank ++ t.plain := by
  induction more with
  | nil => rfl
  | cons term more ih =>
    obtain ⟨⟨hblank, hne, hterm⟩, hmore⟩ := List.forall_mem_cons.mp hmore
    rw [chain, List.flatMap_cons, List.append_assoc, closeOperators_blank hblank,
      dropMarks_blank false hblank hne, dropMarks_closeOperators_term hterm]
    rw [List.flatMap_cons, ← chain, ih hmore, List.append_assoc]

theorem blankNext_flatMap (hmore : Spaced more) (f : Term → Text) :
    Text.BlankNext (more.flatMap fun (blank, t) => blank ++ f t) := by
  cases more with
  | nil => nofun
  | cons term more =>
    obtain ⟨hblank, hne, -⟩ := hmore term List.mem_cons_self
    rw [List.flatMap_cons, List.append_assoc]
    exact Text.BlankNext.append hblank hne _

theorem blankNext_chain (hmore : Spaced more) : (chain more).BlankNext :=
  blankNext_flatMap hmore Term.text

theorem Term.Sound.operator_unbroken {t : Term} (ht : t.Sound) : Text.Unbroken t.operator :=
  fun c hc => not_isWhite_of_isOperatorChar (ht.operator_chars c hc)

theorem Term.Sound.plain_unbroken {t : Term} (ht : t.Sound) : Text.Unbroken t.plain := by
  obtain ⟨-, -, -, -, hall⟩ := isVersion_cons ht.mention.isVersion
  exact ht.operator_unbroken.append (seamless_of_isVersionChar hall).unbroken

theorem Term.Sound.plain_ne_nil {t : Term} (ht : t.Sound) : t.plain ≠ [] := by
  obtain ⟨c, cs, hversion, -⟩ := isVersion_cons ht.mention.isVersion
  simp [Term.plain, hversion]

theorem words_plain (hmore : Spaced more) :
    Text.words (more.flatMap fun (blank, t) => blank ++ t.plain) = more.map (·.2.plain) := by
  induction more with
  | nil => rfl
  | cons term more ih =>
    obtain ⟨⟨hblank, -, hterm⟩, hmore⟩ := List.forall_mem_cons.mp hmore
    rw [List.flatMap_cons, List.append_assoc, Text.words_blank_append hblank,
      Text.words_append hterm.plain_unbroken hterm.plain_ne_nil (blankNext_flatMap hmore _),
      ih hmore, List.map_cons]

/-- The words of a cleaned list are its comparators. -/
theorem words_clean {first : Term} (hfirst : first.Sound) (hmore : Spaced more) :
    Text.words (dropMarks true (closeOperators false (first.text ++ chain more))) =
      first.plain :: more.map (·.2.plain) := by
  rw [dropMarks_closeOperators_term hfirst, dropMarks_closeOperators_chain hmore,
    Text.words_append hfirst.plain_unbroken hfirst.plain_ne_nil (blankNext_flatMap hmore _),
    words_plain hmore]

/-- The words that a comparator is written with. -/
def Term.words (t : Term) : List Text :=
  if t.gap = [] then [t.operator ++ t.mention.text] else [t.operator, t.mention.text]

theorem words_term {t : Term} (ht : t.Sound) {s : Text} (hs : s.BlankNext) :
    Text.words (t.text ++ s) = t.words ++ Text.words s := by
  have hmention := ht.mention.seamless.unbroken
  have hne := ht.mention.text_ne_nil
  unfold Term.words Term.text
  split
  · next hgap =>
    rw [hgap, List.nil_append, Text.words_append (ht.operator_unbroken.append hmention)
      (List.append_ne_nil_of_right_ne_nil _ hne) hs, List.singleton_append]
  · next hgap =>
    rw [List.append_assoc, List.append_assoc, Text.words_append ht.operator_unbroken
      (fun hop => hgap (ht.gap_eq_nil hop)) (Text.BlankNext.append ht.gap_blank hgap _),
      Text.words_blank_append ht.gap_blank, Text.words_append hmention hne hs]
    rfl

theorem words_chain (hmore : Spaced more) :
    Text.words (chain more) = more.flatMap (·.2.words) := by
  induction more with
  | nil => rfl
  | cons term more ih =>
    obtain ⟨⟨hblank, -, hterm⟩, hmore⟩ := List.forall_mem_cons.mp hmore
    rw [chain, List.flatMap_cons, List.append_assoc, Text.words_blank_append hblank, ← chain,
      words_term hterm (blankNext_chain hmore), ih hmore, List.flatMap_cons]

/-- A hyphen on its own is no part of a comparator. -/
theorem hyphen_notMem_words {t : Term} (ht : t.Sound) : ['-'] ∉ t.words := by
  have hop {s : Text} (h : ['-'] = t.operator ++ s) : t.operator = [] := by
    by_contra hne
    obtain ⟨c, cs, heq⟩ := List.exists_cons_of_ne_nil hne
    have hc := ht.operator_chars c (heq ▸ List.mem_cons_self)
    rw [heq, List.cons_append] at h
    rw [← (List.cons.inj h).1] at hc
    revert hc
    decide
  unfold Term.words
  split
  · rw [List.mem_singleton]
    intro h
    rw [hop h, List.nil_append] at h
    exact ht.mention.text_ne_hyphen h.symm
  · next hgap =>
    rw [List.mem_cons, List.mem_singleton]
    rintro (h | h)
    · exact hgap (ht.gap_eq_nil (hop (h.trans (List.append_nil _).symm)))
    · exact ht.mention.text_ne_hyphen h.symm

variable {first : Term}

/-- A list of comparators is taken for a word only if it is a single wildcard. -/
theorem eq_plain_of_length (hfirst : first.Sound) (hmore : Spaced more)
    (h : (first.text ++ chain more).length = 1) : more = [] ∧ first.text = first.plain := by
  obtain ⟨c, cs, hversion, -⟩ := isVersion_cons hfirst.mention.isVersion
  have hlength := congrArg List.length hversion
  cases more with
  | nil =>
    refine ⟨rfl, ?_⟩
    rw [chain, List.flatMap_nil, List.append_nil, Term.text, Mention.text] at h
    rw [Term.text, Term.plain, Mention.text]
    split at h
    · simp only [List.length_append, List.length_cons] at h hlength
      omega
    · next hmarked =>
      simp only [List.length_append, List.length_cons] at h hlength
      have hgap : first.gap = [] := List.eq_nil_of_length_eq_zero (by omega)
      rw [if_neg hmarked, hgap, List.nil_append]
  | cons term more =>
    obtain ⟨-, hne, -⟩ := hmore term List.mem_cons_self
    have hblank := List.length_pos_iff.mpr hne
    have hmention := List.length_pos_iff.mpr hfirst.mention.text_ne_nil
    simp only [chain, List.flatMap_cons, List.length_append, Term.text] at h
    omega

end Chain

/-! ## Spelled ranges as a whole -/

/-- The characters of spelled ranges. -/
def isRangeChar (c : Char) : Bool :=
  isWhite c || isOperatorChar c || isVersionChar c

theorem isRangeChar_of_isBlank {s : Text} (h : s.isBlank = true) :
    ∀ c ∈ s, isRangeChar c = true := fun c hc => by
  rw [isRangeChar, List.all_eq_true.mp h c hc]
  rfl

theorem Mention.Sound.isRangeChar {m : Mention} (hm : m.Sound) :
    ∀ c ∈ m.text, isRangeChar c = true := fun c hc => by
  rw [Range.isRangeChar, hm.isVersionChar c hc, Bool.or_true]

theorem Term.Sound.isRangeChar {t : Term} (ht : t.Sound) :
    ∀ c ∈ t.text, isRangeChar c = true := by
  intro c hc
  rw [Term.text, List.mem_append, List.mem_append] at hc
  rcases hc with hc | hc | hc
  · rw [Range.isRangeChar, ht.operator_chars c hc, Bool.or_true]
    rfl
  · exact isRangeChar_of_isBlank ht.gap_blank c hc
  · exact ht.mention.isRangeChar c hc

theorem Term.Sound.head? {t : Term} (ht : t.Sound) (s : Text) :
    (t.text ++ s).head?.any isWhite = false := by
  rw [Term.text, List.append_assoc, List.append_assoc]
  by_cases hop : t.operator = []
  · rw [hop, ht.gap_eq_nil hop]
    exact ht.mention.seamless.unbroken.head? ht.mention.text_ne_nil s
  · exact ht.operator_unbroken.head? hop _

theorem Term.Sound.head?_ne {t : Term} (ht : t.Sound) (s : Text) :
    (t.text ++ s).head? ≠ some 'l' := by
  rw [Term.text, List.append_assoc, List.append_assoc]
  by_cases hop : t.operator = []
  · obtain ⟨c, cs, hversion, hhead, -⟩ := isVersion_cons ht.mention.isVersion
    rw [hop, ht.gap_eq_nil hop, Mention.text]
    split
    · simp
    · rw [hversion]
      rintro ⟨⟩
      revert hhead
      decide
  · obtain ⟨c, cs, heq⟩ := List.exists_cons_of_ne_nil hop
    have hc := ht.operator_chars c (heq ▸ List.mem_cons_self)
    rw [heq]
    rintro ⟨⟩
    revert hc
    decide

theorem Term.Sound.getLast? {t : Term} (ht : t.Sound) (s : Text) :
    (s ++ t.text).getLast?.any isWhite = false := by
  rw [Term.text, ← List.append_assoc, ← List.append_assoc]
  exact ht.mention.seamless.unbroken.getLast? ht.mention.text_ne_nil _

theorem isRangeChar_chain {more : List (Text × Term)} (hmore : Spaced more) :
    ∀ c ∈ chain more, isRangeChar c = true := by
  intro c hc
  obtain ⟨term, hterm, hc⟩ := List.mem_flatMap.mp hc
  obtain ⟨hblank, -, hsound⟩ := hmore term hterm
  exact (List.mem_append.mp hc).elim (isRangeChar_of_isBlank hblank c) (hsound.isRangeChar c)

theorem firstAlternative_of_notMem {s : Text} (h : '|' ∉ s) : firstAlternative s = s := by
  induction s with
  | nil => rfl
  | cons c cs ih =>
    rw [List.mem_cons, not_or] at h
    rw [firstAlternative, ih h.2]
    rintro ds rfl
    exact absurd rfl h.1

namespace Spelling

/-- The spelled range without the blanks at its ends. -/
def core : Spelling → Text
  | comparators _ first more _ => first.text ++ chain more
  | span _ low before after high _ => low.text ++ (before ++ '-' :: (after ++ high.text))

variable {s : Spelling}

/-- At both ends of the core stands a character of an operator or a version. -/
theorem Sound.core_ends (hs : s.Sound) :
    s.core.head?.any isWhite = false ∧ s.core.getLast?.any isWhite = false := by
  cases s with
  | comparators lead first more trail =>
    obtain ⟨-, hfirst, hmore, -⟩ := hs
    refine ⟨hfirst.head? _, ?_⟩
    rcases List.eq_nil_or_concat more with rfl | ⟨init, last, rfl⟩
    · rw [core, chain, List.flatMap_nil, List.append_nil]
      exact hfirst.getLast? []
    · rw [List.concat_eq_append] at hmore ⊢
      rw [core, chain, List.flatMap_append, List.flatMap_singleton, ← List.append_assoc,
        ← List.append_assoc]
      exact (hmore last (List.mem_append_right init List.mem_cons_self)).2.2.getLast? _
  | span lead low before after high trail =>
    obtain ⟨-, hlow, -, -, -, -, hhigh, -⟩ := hs
    refine ⟨hlow.seamless.unbroken.head? hlow.text_ne_nil _, ?_⟩
    rw [core, ← List.singleton_append, ← List.append_assoc, ← List.append_assoc,
      ← List.append_assoc]
    exact hhigh.seamless.unbroken.getLast? hhigh.text_ne_nil _

theorem text_eq_core (s : Spelling) : ∃ lead trail, s.text = lead ++ (s.core ++ trail) ∧
    (s.Sound → lead.isBlank = true ∧ trail.isBlank = true) := by
  cases s with
  | comparators lead first more trail => exact ⟨lead, trail, rfl, fun hs => ⟨hs.1, hs.2.2.2⟩⟩
  | span lead low before after high trail =>
    exact ⟨lead, trail, rfl, fun hs => ⟨hs.1, hs.2.2.2.2.2.2.2⟩⟩

theorem Sound.core_chars (hs : s.Sound) : ∀ c ∈ s.core, isRangeChar c = true := by
  cases s with
  | comparators lead first more trail =>
    obtain ⟨-, hfirst, hmore, -⟩ := hs
    exact List.forall_mem_append.mpr ⟨hfirst.isRangeChar, isRangeChar_chain hmore⟩
  | span lead low before after high trail =>
    obtain ⟨-, hlow, hbefore, -, hafter, -, hhigh, -⟩ := hs
    refine List.forall_mem_append.mpr ⟨hlow.isRangeChar,
      List.forall_mem_append.mpr ⟨isRangeChar_of_isBlank hbefore, ?_⟩⟩
    exact List.forall_mem_cons.mpr ⟨by decide,
      List.forall_mem_append.mpr ⟨isRangeChar_of_isBlank hafter, hhigh.isRangeChar⟩⟩

theorem Sound.trim_text (hs : s.Sound) : Text.trim (firstAlternative s.text) = s.core := by
  obtain ⟨lead, trail, htext, hblank⟩ := s.text_eq_core
  obtain ⟨hlead, htrail⟩ := hblank hs
  have hbar : '|' ∉ s.text := by
    rw [htext]
    intro hmem
    rcases List.mem_append.mp hmem with hmem | hmem
    · exact absurd (isRangeChar_of_isBlank hlead _ hmem) (by decide)
    · rcases List.mem_append.mp hmem with hmem | hmem
      · exact absurd (hs.core_chars _ hmem) (by decide)
      · exact absurd (isRangeChar_of_isBlank htrail _ hmem) (by decide)
  rw [firstAlternative_of_notMem hbar, htext]
  exact Text.trim_append hlead htrail hs.core_ends.1 hs.core_ends.2

theorem Sound.core_ne_nil (hs : s.Sound) : s.core ≠ [] := by
  cases s with
  | comparators lead first more trail =>
    obtain ⟨-, hfirst, -, -⟩ := hs
    exact List.append_ne_nil_of_left_ne_nil (List.append_ne_nil_of_right_ne_nil _
      (List.append_ne_nil_of_right_ne_nil _ hfirst.mention.text_ne_nil)) _
  | span lead low before after high trail =>
    obtain ⟨-, hlow, -⟩ := hs
    exact List.append_ne_nil_of_left_ne_nil hlow.text_ne_nil _

/-- Words that ask for nothing. -/
def anyWords : List Text :=
  [['*'], ['x'], ['X'], "latest".toList]

theorem parse?_of_mem_anyWords : ∀ word ∈ anyWords, word.length = 1 →
    Requirement.parse? ['*'] = Requirement.parse? word := by
  decide

/-- A spelled range is no address and no path, so it is read as a range. -/
theorem Sound.normalize?_eq (hs : s.Sound) : normalize? s.text =
    if s.core ∈ anyWords then some ['*']
    else match Text.words s.core with
      | [low, ['-'], high] => some (">=".toList ++ low ++ ", <=".toList ++ high)
      | _ => some (Text.join ", ".toList
          (Text.words (dropMarks true (closeOperators false s.core)))) := by
  have hcolon : s.core.contains ':' = false := by
    rw [Bool.eq_false_iff, ne_eq, List.contains_iff_mem]
    exact fun hmem => absurd (hs.core_chars _ hmem) (by decide)
  have hslash : s.core.contains '/' = false := by
    rw [Bool.eq_false_iff, ne_eq, List.contains_iff_mem]
    exact fun hmem => absurd (hs.core_chars _ hmem) (by decide)
  have hempty : s.core.isEmpty = false := by
    rw [List.isEmpty_eq_false_iff]
    exact hs.core_ne_nil
  simp only [normalize?, hs.trim_text, hcolon, hslash, hempty, Bool.false_or, Bool.or_self,
    Bool.false_eq_true, if_false, List.contains_iff_mem]
  rfl

/-- A list of comparators is read as what it says. -/
theorem requirement?_comparators {lead : Text} {first : Term} {more : List (Text × Term)}
    {trail : Text} (hs : (comparators lead first more trail).Sound) :
    (normalize? (comparators lead first more trail).text).bind Requirement.parse? =
      Requirement.parse? (comparators lead first more trail).content.requirement := by
  obtain ⟨-, hfirst, hmore, -⟩ := id hs
  rw [hs.normalize?_eq, core, content, Content.requirement]
  split
  · next hany =>
    have hlength : (first.text ++ chain more).length = 1 := by
      simp only [anyWords, List.mem_cons, List.not_mem_nil, or_false] at hany
      rcases hany with h | h | h | h
      · rw [h]; rfl
      · rw [h]; rfl
      · rw [h]; rfl
      · exact absurd (congrArg List.head? h) (hfirst.head?_ne _)
    obtain ⟨rfl, hplain⟩ := eq_plain_of_length hfirst hmore hlength
    rw [chain, List.flatMap_nil, List.append_nil, hplain] at hany hlength
    rw [List.map_nil, Text.join, Option.bind_some]
    exact parse?_of_mem_anyWords _ hany hlength
  · split
    · next low high heq =>
      have hmem : ['-'] ∈ Text.words (first.text ++ chain more) := by
        rw [heq]
        simp
      rw [words_term hfirst (blankNext_chain hmore), List.mem_append,
        words_chain hmore, List.mem_flatMap] at hmem
      rcases hmem with hmem | ⟨term, hterm, hmem⟩
      · exact absurd hmem (hyphen_notMem_words hfirst)
      · exact absurd hmem (hyphen_notMem_words (hmore term hterm).2.2)
    · rw [words_clean hfirst hmore]
      rfl

/-- The ends of a hyphen range are read as they are written. -/
theorem normalize?_span {lead : Text} {low : Mention} {before after : Text} {high : Mention}
    {trail : Text} (hs : (span lead low before after high trail).Sound) :
    normalize? (span lead low before after high trail).text =
      some (">=".toList ++ low.text ++ ", <=".toList ++ high.text) := by
  obtain ⟨-, hlow, hbefore, hbeforeNe, hafter, hafterNe, hhigh, -⟩ := id hs
  have hbroken : (span lead low before after high trail).core ∉ anyWords := by
    intro hany
    obtain ⟨c, cs, rfl⟩ := List.exists_cons_of_ne_nil hbeforeNe
    have hunbroken : ∀ word ∈ anyWords, Text.Unbroken word := by decide
    have hwhite : isWhite c = true := List.all_eq_true.mp hbefore c List.mem_cons_self
    rw [hunbroken _ hany c (by simp [core])] at hwhite
    cases hwhite
  have hhyphen : Text.words ('-' :: (after ++ high.text)) = [['-'], high.text] := by
    have hunbroken : Text.Unbroken ['-'] := by decide
    rw [← List.singleton_append, Text.words_append hunbroken (List.cons_ne_nil _ _)
      (Text.BlankNext.append hafter hafterNe _), Text.words_blank_append hafter,
      Text.words_of_unbroken hhigh.seamless.unbroken hhigh.text_ne_nil]
  have hwords : Text.words (span lead low before after high trail).core =
      [low.text, ['-'], high.text] := by
    rw [core, Text.words_append hlow.seamless.unbroken hlow.text_ne_nil
      (Text.BlankNext.append hbefore hbeforeNe _), Text.words_blank_append hbefore, hhyphen]
  rw [hs.normalize?_eq, if_neg hbroken, hwords]
  rfl

end Spelling

end Range

end Codemod

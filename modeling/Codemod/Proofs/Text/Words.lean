import Codemod.Text.Basic

/-!
# Codemod.Proofs.Text.Words

Words and the blanks around them.

* `Text.words_append`: a word comes to its end at the next blank or at the end of the text.
* `Text.words_blank_append`: blanks before a word do not count.
* `Text.trim_append`: trimming takes away the blanks at both ends, and no more than that.
-/

namespace Codemod

namespace Text

/-- No character is blank. -/
def Unbroken (s : Text) : Prop :=
  ∀ c ∈ s, isWhite c = false

instance (s : Text) : Decidable s.Unbroken :=
  List.decidableBAll (fun c => isWhite c = false) s

/-- The text is empty, or it begins with a blank. -/
def BlankNext (s : Text) : Prop :=
  ∀ c ∈ s.head?, isWhite c = true

variable {s word blank : Text} {c : Char}

theorem BlankNext.append (hb : blank.isBlank = true) (hne : blank ≠ []) (s : Text) :
    (blank ++ s).BlankNext := by
  cases blank with
  | nil => exact absurd rfl hne
  | cons c cs =>
    rintro d ⟨⟩
    exact List.all_eq_true.mp hb c List.mem_cons_self

theorem Unbroken.append {s t : Text} (hs : s.Unbroken) (ht : t.Unbroken) :
    (s ++ t).Unbroken := fun c hc =>
  (List.mem_append.mp hc).elim (hs c) (ht c)

theorem Unbroken.head? (hw : word.Unbroken) (hne : word ≠ []) (s : Text) :
    (word ++ s).head?.any isWhite = false := by
  cases word with
  | nil => exact absurd rfl hne
  | cons c cs => exact hw c List.mem_cons_self

theorem Unbroken.getLast? (hw : word.Unbroken) (hne : word ≠ []) (s : Text) :
    (s ++ word).getLast?.any isWhite = false := by
  rw [List.getLast?_append, List.getLast?_eq_some_getLast hne, Option.some_or]
  exact hw _ (List.getLast_mem hne)

/-! ## Words -/

/-- One step of collecting words from the back: the word that has been begun, and those behind. -/
def wordStep (c : Char) (state : Text × List Text) : Text × List Text :=
  if isWhite c then ([], if state.1.isEmpty then state.2 else state.1 :: state.2)
  else (c :: state.1, state.2)

theorem words_eq (s : Text) : words s =
    let state := s.foldr wordStep ([], [])
    if state.1.isEmpty then state.2 else state.1 :: state.2 :=
  rfl

theorem words_white_cons (hc : isWhite c = true) (s : Text) : words (c :: s) = words s := by
  simp only [words_eq, List.foldr_cons, wordStep, hc, if_true, List.isEmpty_nil]

theorem words_blank_append (hb : blank.isBlank = true) (s : Text) : words (blank ++ s) = words s := by
  induction blank with
  | nil => rfl
  | cons c cs ih =>
    obtain ⟨hc, hcs⟩ := Bool.and_eq_true_iff.mp hb
    rw [List.cons_append, words_white_cons hc, ih hcs]

/-- No word has been begun where a blank is next. -/
theorem foldr_wordStep_of_blankNext (hs : s.BlankNext) :
    s.foldr wordStep ([], []) = ([], words s) := by
  cases s with
  | nil => rfl
  | cons c cs =>
    have hc : isWhite c = true := hs c rfl
    rw [words_white_cons hc, words_eq, List.foldr_cons, wordStep, if_pos hc]

theorem foldr_wordStep_unbroken (hw : word.Unbroken) (state : Text × List Text) :
    word.foldr wordStep state = (word ++ state.1, state.2) := by
  induction word with
  | nil => rfl
  | cons c cs ih =>
    obtain ⟨hc, hcs⟩ := List.forall_mem_cons.mp hw
    rw [List.foldr_cons, ih hcs, wordStep, if_neg (by simp [hc])]
    rfl

theorem words_append (hw : word.Unbroken) (hne : word ≠ []) (hs : s.BlankNext) :
    words (word ++ s) = word :: words s := by
  rw [words_eq, List.foldr_append, foldr_wordStep_of_blankNext hs, foldr_wordStep_unbroken hw]
  simp [hne]

theorem words_of_unbroken (hw : word.Unbroken) (hne : word ≠ []) : words word = [word] := by
  have h := words_append hw hne (s := []) nofun
  rwa [List.append_nil] at h

/-! ## Trimming -/

theorem dropWhile_blank_append (hb : blank.isBlank = true) (hs : s.head?.any isWhite = false) :
    (blank ++ s).dropWhile isWhite = s := by
  rw [List.dropWhile_append_of_pos (List.all_eq_true.mp hb)]
  cases s with
  | nil => rfl
  | cons c cs => exact List.dropWhile_cons_of_neg (by simpa using hs)

theorem trim_append {lead trail : Text} (hlead : lead.isBlank = true) (htrail : trail.isBlank = true)
    (hfirst : s.head?.any isWhite = false) (hlast : s.getLast?.any isWhite = false) :
    trim (lead ++ (s ++ trail)) = s := by
  cases s with
  | nil =>
    have hboth : (lead ++ trail).isBlank = true := by
      rw [isBlank, List.all_append, Bool.and_eq_true]
      exact ⟨hlead, htrail⟩
    have hnil := dropWhile_blank_append hboth (s := []) rfl
    rw [List.append_nil] at hnil
    rw [List.nil_append, trim, trimStart, hnil]
    rfl
  | cons c cs =>
    rw [trim, trimStart, dropWhile_blank_append hlead (by simpa using hfirst), trimEnd,
      List.reverse_append, dropWhile_blank_append (by rw [isBlank, List.all_reverse]; exact htrail)
        (by rw [List.head?_reverse]; exact hlast), List.reverse_reverse]

end Text

end Codemod

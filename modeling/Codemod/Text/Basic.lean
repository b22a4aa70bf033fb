import Codemod.Text.White

/-!
# Codemod.Text.Basic

Source text as a list of characters, addressed by byte offsets of its UTF-8 form.

* `Text.size` measures a text in bytes; `Text.before` and `Text.after` cut it at an offset.
* `before_append_after`: a cut loses nothing, whatever the offset.
* `before_size_append`, `after_size_append`: at a character boundary the cut is exact.
-/

namespace Codemod

abbrev Text := List Char

/-- One more than the largest number of 64 bits. -/
def wordLimit : Nat :=
  Nat.pow 2 64

namespace Text

/-- Length in bytes of the UTF-8 form. -/
def size : Text → Nat
  | [] => 0
  | c :: cs => c.utf8Size + size cs

/-- The characters that end at or before byte offset `n`. -/
def before (n : Nat) : Text → Text
  | [] => []
  | c :: cs => if c.utf8Size ≤ n then c :: before (n - c.utf8Size) cs else []

/-- The characters that are left once `before n` is taken away. -/
def after (n : Nat) : Text → Text
  | [] => []
  | c :: cs => if c.utf8Size ≤ n then after (n - c.utf8Size) cs else c :: cs

@[simp] theorem size_nil : size [] = 0 := rfl

@[simp] theorem size_cons (c : Char) (cs : Text) : size (c :: cs) = c.utf8Size + size cs := rfl

@[simp] theorem size_append (s t : Text) : size (s ++ t) = size s + size t := by
  induction s with
  | nil => simp
  | cons c cs ih => simp [ih, Nat.add_assoc]

@[simp] theorem before_append_after (n : Nat) (s : Text) : before n s ++ after n s = s := by
  induction s generalizing n with
  | nil => rfl
  | cons c cs ih =>
    by_cases h : c.utf8Size ≤ n
    · simp [before, after, h, ih]
    · simp [before, after, h]

theorem before_size_append (s t : Text) : before s.size (s ++ t) = s := by
  induction s with
  | nil =>
    cases t with
    | nil => rfl
    | cons c cs => simp [before, Nat.not_le.mpr c.utf8Size_pos]
  | cons c cs ih =>
    simp only [size_cons, List.cons_append, before, Nat.le_add_right, if_true,
      Nat.add_sub_cancel_left, ih]

theorem after_size_append (s t : Text) : after s.size (s ++ t) = t := by
  have h := before_append_after s.size (s ++ t)
  rw [before_size_append] at h
  exact List.append_cancel_left h

/-- The text from byte offset `start` up to `stop`. -/
def slice (start stop : Nat) (s : Text) : Text :=
  before (stop - start) (after start s)

/-- Whether `piece` stands somewhere in the text. -/
def holds (piece : Text) : Text → Bool
  | [] => piece.isEmpty
  | c :: cs => piece.isPrefixOf (c :: cs) || holds piece cs

/-- Whether nothing but white space is there. -/
def isBlank (s : Text) : Bool :=
  s.all isWhite

def trimStart (s : Text) : Text :=
  s.dropWhile isWhite

def trimEnd (s : Text) : Text :=
  (s.reverse.dropWhile isWhite).reverse

def trim (s : Text) : Text :=
  trimEnd (trimStart s)

/-- The pieces between separators: always one more than there are separators. -/
def splitAt (sep : Char) : Text → List Text
  | [] => [[]]
  | c :: cs =>
    if c = sep then [] :: splitAt sep cs
    else match splitAt sep cs with
      | [] => [[c]]
      | piece :: pieces => (c :: piece) :: pieces

/-- The nonempty runs of characters that are not white space. -/
def words (s : Text) : List Text :=
  let step (c : Char) : Text × List Text → Text × List Text
    | (word, rest) =>
      if isWhite c then ([], if word.isEmpty then rest else word :: rest) else (c :: word, rest)
  let (word, rest) := s.foldr step ([], [])
  if word.isEmpty then rest else word :: rest

/-- The pieces with `sep` between neighbours. -/
def join (sep : Text) : List Text → Text
  | [] => []
  | [piece] => piece
  | piece :: pieces => piece ++ sep ++ join sep pieces

end Text

end Codemod

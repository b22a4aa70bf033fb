import Codemod.Text.Position

/-!
# Codemod.Proofs.Text.Boundary

Cutting a text at character boundaries.

`Text.before`, `Text.after` and `Text.slice` take any byte offset. At a character boundary they
are exact, and the pieces fit together again:

* `Boundary.split`: two boundaries cut a text into three pieces.
* `before_append_slice`, `slice_append_slice`, `slice_append_after`: neighbouring pieces join.
* `before_append`, `after_append`: offsets within a front part see that part only.
-/

namespace Codemod

namespace Text

/-- The offset `n` lies between two characters of the text, or at one of its ends. -/
def Boundary (s : Text) (n : Nat) : Prop :=
  ∃ front back, s = front ++ back ∧ front.size = n

theorem size_before_le (n : Nat) (s : Text) : (s.before n).size ≤ n := by
  induction s generalizing n with
  | nil => simp [before]
  | cons c cs ih =>
    by_cases h : c.utf8Size ≤ n
    · have := ih (n - c.utf8Size)
      simp only [before, if_pos h, size_cons]
      omega
    · simp [before, h]

theorem boundary_iff {s : Text} {n : Nat} : s.Boundary n ↔ (s.before n).size = n := by
  constructor
  · rintro ⟨front, back, rfl, rfl⟩
    rw [before_size_append]
  · intro h
    exact ⟨s.before n, s.after n, by simp, h⟩

instance (s : Text) (n : Nat) : Decidable (s.Boundary n) :=
  decidable_of_iff _ boundary_iff.symm

theorem boundary_zero (s : Text) : s.Boundary 0 :=
  ⟨[], s, rfl, rfl⟩

theorem boundary_size (s : Text) : s.Boundary s.size :=
  ⟨s, [], by simp, rfl⟩

theorem Boundary.le_size {s : Text} {n : Nat} (h : s.Boundary n) : n ≤ s.size := by
  obtain ⟨front, back, rfl, rfl⟩ := h
  simp

theorem eq_nil_of_size_eq_zero {s : Text} (h : s.size = 0) : s = [] := by
  cases s with
  | nil => rfl
  | cons c cs =>
    have := c.utf8Size_pos
    simp only [size_cons] at h
    omega

theorem Boundary.split {s : Text} {a b : Nat} (ha : s.Boundary a) (hb : s.Boundary b)
    (h : a ≤ b) :
    ∃ front middle back, s = front ++ (middle ++ back) ∧ front.size = a ∧
      front.size + middle.size = b := by
  obtain ⟨p, q, rfl, rfl⟩ := ha
  obtain ⟨p', q', hs, rfl⟩ := hb
  rcases List.append_eq_append_iff.mp hs with ⟨m, rfl, rfl⟩ | ⟨m, rfl, rfl⟩
  · exact ⟨p, m, q', rfl, rfl, by simp⟩
  · -- the second cut is not behind the first one, so nothing lies between them
    have hm : size m = 0 := by
      rw [size_append] at h
      omega
    obtain rfl := eq_nil_of_size_eq_zero hm
    exact ⟨p', [], q, by simp, by simp, by simp⟩

theorem before_append_slice {s : Text} {a b : Nat} (ha : s.Boundary a) (hb : s.Boundary b)
    (h : a ≤ b) : s.before a ++ s.slice a b = s.before b := by
  obtain ⟨p, m, q, rfl, rfl, rfl⟩ := ha.split hb h
  rw [slice, before_size_append, after_size_append, Nat.add_sub_cancel_left, before_size_append,
    ← size_append, ← List.append_assoc, before_size_append]

theorem slice_append_after {s : Text} {a b : Nat} (ha : s.Boundary a) (hb : s.Boundary b)
    (h : a ≤ b) : s.slice a b ++ s.after b = s.after a := by
  obtain ⟨p, m, q, rfl, rfl, rfl⟩ := ha.split hb h
  rw [slice, after_size_append, Nat.add_sub_cancel_left, before_size_append, ← size_append,
    ← List.append_assoc, after_size_append]

theorem slice_append_slice {s : Text} {a b c : Nat} (ha : s.Boundary a) (hb : s.Boundary b)
    (hc : s.Boundary c) (hab : a ≤ b) (hbc : b ≤ c) :
    s.slice a b ++ s.slice b c = s.slice a c := by
  have h : (s.before a ++ s.slice a b) ++ s.slice b c = s.before a ++ s.slice a c := by
    rw [before_append_slice ha hb hab, before_append_slice hb hc hbc,
      before_append_slice ha hc (Nat.le_trans hab hbc)]
  rw [List.append_assoc] at h
  exact List.append_cancel_left h

theorem size_slice {s : Text} {a b : Nat} (ha : s.Boundary a) (hb : s.Boundary b) (h : a ≤ b) :
    a + (s.slice a b).size = b := by
  obtain ⟨p, m, q, rfl, rfl, rfl⟩ := ha.split hb h
  rw [slice, after_size_append, Nat.add_sub_cancel_left, before_size_append]

theorem after_of_split {s front back : Text} {n : Nat} (hs : s = front ++ back)
    (hn : front.size = n) : s.after n = back := by
  rw [hs, ← hn]
  exact after_size_append front back

theorem slice_of_split {s front middle back : Text} {a b : Nat} (hs : s = front ++ (middle ++ back))
    (ha : front.size = a) (hb : a + middle.size = b) : s.slice a b = middle := by
  rw [slice, after_of_split hs ha, ← hb, Nat.add_sub_cancel_left]
  exact before_size_append middle back

@[simp] theorem slice_self (s : Text) (n : Nat) : s.slice n n = [] := by
  have := size_before_le 0 (s.after n)
  rw [slice, Nat.sub_self]
  exact eq_nil_of_size_eq_zero (by omega)

@[simp] theorem after_zero (s : Text) : s.after 0 = s := by
  simpa using after_size_append [] s

theorem slice_zero (s : Text) (n : Nat) : s.slice 0 n = s.before n := by
  rw [slice, after_zero, Nat.sub_zero]

@[simp] theorem before_size (s : Text) : s.before s.size = s := by
  simpa using before_size_append s []

@[simp] theorem after_size (s : Text) : s.after s.size = [] := by
  simpa using after_size_append s []

/-- What stands before an offset in the front part of a text does not depend on the rest. -/
theorem before_append {s : Text} {n : Nat} (h : s.Boundary n) (t : Text) :
    before n (s ++ t) = s.before n := by
  obtain ⟨p, q, rfl, rfl⟩ := h
  rw [List.append_assoc, before_size_append, before_size_append]

theorem after_append {s : Text} {n : Nat} (h : s.Boundary n) (t : Text) :
    after n (s ++ t) = s.after n ++ t := by
  obtain ⟨p, q, rfl, rfl⟩ := h
  rw [List.append_assoc, after_size_append, after_size_append]

theorem Boundary.append {s : Text} {n : Nat} (h : s.Boundary n) (t : Text) :
    Boundary (s ++ t) n := by
  obtain ⟨p, q, rfl, rfl⟩ := h
  exact ⟨p, q ++ t, List.append_assoc .., rfl⟩

/-- A boundary of a text that is not behind another one is a boundary of what stands before it. -/
theorem Boundary.before {s : Text} {a b : Nat} (ha : s.Boundary a) (hb : s.Boundary b)
    (h : a ≤ b) : (s.before b).Boundary a := by
  rw [← before_append_slice ha hb h]
  exact ⟨s.before a, s.slice a b, rfl, boundary_iff.mp ha⟩

theorem size_before {s : Text} {n : Nat} (h : s.Boundary n) : (s.before n).size = n :=
  boundary_iff.mp h

theorem before_before {s : Text} {a b : Nat} (ha : s.Boundary a) (hb : s.Boundary b)
    (h : a ≤ b) : (s.before b).before a = s.before a := by
  have h' := before_size_append (s.before a) (s.slice a b)
  rwa [before_append_slice ha hb h, size_before ha] at h'

theorem after_before {s : Text} {a b : Nat} (ha : s.Boundary a) (hb : s.Boundary b)
    (h : a ≤ b) : (s.before b).after a = s.slice a b := by
  have h' := after_size_append (s.before a) (s.slice a b)
  rwa [before_append_slice ha hb h, size_before ha] at h'

end Text

end Codemod

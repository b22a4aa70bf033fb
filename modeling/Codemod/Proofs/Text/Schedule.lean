import Codemod.Text.Edit

/-!
# Codemod.Proofs.Text.Schedule

The order in which edits are applied.

Two recorded edits may be equal as edits, so an edit goes here with the place at which it was
recorded. `Edit.Precedes` is the order: larger start first, then the longer span, then the one
recorded later. `Edit.order` is the schedule with these places kept.

* `map_order`: without the places, it is the schedule.
* `order_perm`: every recorded edit is in it, once.
* `order_pairwise`: an edit precedes all that come after it.
-/

namespace Codemod

namespace Edit

/-- An edit and the place at which it was recorded. -/
abbrev Recorded := Edit × Nat

/-- Whether `a` is applied before `b`. -/
def Precedes (a b : Recorded) : Prop :=
  b.1.span.start < a.1.span.start ∨ a.1.span.start = b.1.span.start ∧
    (b.1.span.length < a.1.span.length ∨ a.1.span.length = b.1.span.length ∧ b.2 < a.2)

instance (a b : Recorded) : Decidable (Precedes a b) :=
  inferInstanceAs (Decidable (_ ∨ _ ∧ (_ ∨ _ ∧ _)))

theorem Precedes.start_le {a b : Recorded} (h : Precedes a b) :
    b.1.span.start ≤ a.1.span.start := by
  unfold Precedes at h
  omega

theorem Precedes.irrefl (a : Recorded) : ¬ Precedes a a := by
  unfold Precedes
  omega

theorem Precedes.asymm {a b : Recorded} (h : Precedes a b) : ¬ Precedes b a := by
  unfold Precedes at *
  omega

theorem Precedes.trans {a b c : Recorded} (hab : Precedes a b) (hbc : Precedes b c) :
    Precedes a c := by
  unfold Precedes at *
  omega

/-- The spans do not decide which of the two is applied first. -/
def Tied (a b : Recorded) : Prop :=
  a.1.span.start = b.1.span.start ∧ a.1.span.length = b.1.span.length

/-- For an edit that was recorded later, if need be, the test of the schedule is the order. -/
theorem leads_iff_precedes {a b : Recorded} (h : Tied b a → b.2 < a.2) :
    a.1.leads b.1 = true ↔ Precedes a b := by
  simp only [leads, Precedes, Bool.or_eq_true, Bool.and_eq_true, decide_eq_true_eq, beq_iff_eq]
  unfold Tied at h
  omega

theorem precedes_of_not_leads {a b : Recorded} (h : ¬ a.1.leads b.1 = true) : Precedes b a := by
  simp only [leads, Bool.or_eq_true, Bool.and_eq_true, decide_eq_true_eq, beq_iff_eq] at h
  unfold Precedes
  omega

/-- `place` for an edit that goes with its place. -/
def placeRecorded (r : Recorded) : List Recorded → List Recorded
  | [] => [r]
  | x :: xs => if x.1.leads r.1 then x :: placeRecorded r xs else r :: x :: xs

/-- The recorded edits in the order in which they are applied. -/
def order (edits : List Edit) : List Recorded :=
  edits.zipIdx.foldr placeRecorded []

theorem map_placeRecorded (r : Recorded) (xs : List Recorded) :
    (placeRecorded r xs).map (·.1) = place r.1 (xs.map (·.1)) := by
  induction xs with
  | nil => rfl
  | cons x xs ih =>
    by_cases h : x.1.leads r.1 = true
    · simp [placeRecorded, place, h, ih]
    · simp [placeRecorded, place, h]

theorem map_foldr_placeRecorded (rs : List Recorded) :
    (rs.foldr placeRecorded []).map (·.1) = schedule (rs.map (·.1)) := by
  induction rs with
  | nil => rfl
  | cons r rs ih =>
    rw [List.foldr_cons, map_placeRecorded, ih]
    rfl

theorem map_order (edits : List Edit) : (order edits).map (·.1) = schedule edits := by
  rw [order, map_foldr_placeRecorded, List.zipIdx_map_fst]

theorem placeRecorded_perm (r : Recorded) (xs : List Recorded) :
    (placeRecorded r xs).Perm (r :: xs) := by
  induction xs with
  | nil => exact .refl _
  | cons x xs ih =>
    by_cases h : x.1.leads r.1 = true
    · rw [placeRecorded, if_pos h]
      exact (ih.cons x).trans (.swap r x xs)
    · rw [placeRecorded, if_neg h]

theorem foldr_placeRecorded_perm (rs : List Recorded) : (rs.foldr placeRecorded []).Perm rs := by
  induction rs with
  | nil => exact .refl _
  | cons r rs ih => exact (placeRecorded_perm r _).trans (ih.cons r)

theorem order_perm (edits : List Edit) : (order edits).Perm edits.zipIdx :=
  foldr_placeRecorded_perm _

theorem mem_order {edits : List Edit} {r : Recorded} : r ∈ order edits ↔ r ∈ edits.zipIdx :=
  (order_perm edits).mem_iff

/-- An edit recorded before all others that it is tied with finds its place in their order. -/
theorem placeRecorded_pairwise {r : Recorded} {xs : List Recorded} (hp : xs.Pairwise Precedes)
    (hr : ∀ x ∈ xs, Tied r x → r.2 < x.2) : (placeRecorded r xs).Pairwise Precedes := by
  induction xs with
  | nil => exact List.pairwise_singleton _ _
  | cons x xs ih =>
    obtain ⟨hx, hp'⟩ := List.pairwise_cons.mp hp
    have hrx : Tied r x → r.2 < x.2 := hr x (by simp)
    by_cases h : x.1.leads r.1 = true
    · rw [placeRecorded, if_pos h, List.pairwise_cons]
      refine ⟨?_, ih hp' fun y hy => hr y (by simp [hy])⟩
      intro y hy
      rcases List.mem_cons.mp ((placeRecorded_perm r xs).mem_iff.mp hy) with rfl | hy
      · exact (leads_iff_precedes hrx).mp h
      · exact hx y hy
    · rw [placeRecorded, if_neg h, List.pairwise_cons]
      refine ⟨?_, hp⟩
      have hrx' : Precedes r x := precedes_of_not_leads h
      intro y hy
      rcases List.mem_cons.mp hy with rfl | hy
      · exact hrx'
      · exact hrx'.trans (hx y hy)

theorem foldr_placeRecorded_pairwise {rs : List Recorded}
    (h : rs.Pairwise fun a b => Tied a b → a.2 < b.2) :
    (rs.foldr placeRecorded []).Pairwise Precedes := by
  induction rs with
  | nil => exact .nil
  | cons r rs ih =>
    obtain ⟨hr, hrs⟩ := List.pairwise_cons.mp h
    rw [List.foldr_cons]
    refine placeRecorded_pairwise (ih hrs) ?_
    intro x hx
    exact hr x ((foldr_placeRecorded_perm rs).mem_iff.mp hx)

theorem zipIdx_pairwise (edits : List Edit) (n : Nat) :
    (edits.zipIdx n).Pairwise fun a b => a.2 < b.2 := by
  rw [← List.pairwise_map, List.zipIdx_map_snd]
  exact List.pairwise_lt_range'

theorem order_pairwise (edits : List Edit) : (order edits).Pairwise Precedes := by
  refine foldr_placeRecorded_pairwise ((zipIdx_pairwise edits 0).imp ?_)
  intro a b hab _
  exact hab

end Edit

end Codemod

import Codemod.Version.Requirement
import Mathlib.Data.List.Basic
import Mathlib.Data.Prod.Lex

/-!
# Codemod.Proofs.Version.Order

The order of versions, and what it makes of a list of lower bounds.

* `Version.point` are the three numbers of a version, in lexicographic order. They decide unless
  they are equal (`lt_iff`). Of the versions with the same numbers the release is the last one, so a
  release is at least a version exactly when its numbers are (`atLeast_iff_le`).
* `Requirement.meets_iff`: the largest lower bound reaches a release exactly when one of the lower
  bounds does.
-/

namespace Codemod

namespace Version

/-- The numbers of a version. -/
def point (v : Version) : ℕ ×ₗ ℕ ×ₗ ℕ :=
  toLex (v.major, toLex (v.minor, v.patch))

/-- The least release. -/
def first : Version :=
  ⟨0, 0, 0, []⟩

/-- A version without a pre-release tag. -/
def IsRelease (v : Version) : Prop :=
  v.pre = []

instance (v : Version) : Decidable v.IsRelease :=
  inferInstanceAs (Decidable (v.pre = []))

/-- The numbers of the version are numbers of 64 bits. -/
structure Fits (v : Version) : Prop where
  major_lt : v.major < wordLimit
  minor_lt : v.minor < wordLimit
  patch_lt : v.patch < wordLimit

variable {v w t : Version}

theorem point_lt_iff : v.point < w.point ↔ v.major < w.major ∨ v.major = w.major ∧
    (v.minor < w.minor ∨ v.minor = w.minor ∧ v.patch < w.patch) := by
  simp [point, Prod.Lex.toLex_lt_toLex]

theorem point_le_iff : v.point ≤ w.point ↔ v.major < w.major ∨ v.major = w.major ∧
    (v.minor < w.minor ∨ v.minor = w.minor ∧ v.patch ≤ w.patch) := by
  simp [point, Prod.Lex.toLex_le_toLex]

theorem point_eq_iff : v.point = w.point ↔
    v.major = w.major ∧ v.minor = w.minor ∧ v.patch = w.patch := by
  simp [point]

theorem first_le (v : Version) : first.point ≤ v.point := by
  rw [point_le_iff]
  dsimp only [first]
  omega

theorem preLt_nil (p : List PrePart) : preLt [] p = false := by
  cases p <;> rfl

theorem preLt_nil_right {p : List PrePart} : preLt p [] = true ↔ p ≠ [] := by
  cases p <;> simp [preLt]

theorem lt_iff : v.lt w = true ↔
    v.point < w.point ∨ v.point = w.point ∧ preLt v.pre w.pre = true := by
  rw [point_lt_iff, point_eq_iff]
  simp only [lt, Bool.or_eq_true, Bool.and_eq_true, decide_eq_true_eq, beq_iff_eq]
  tauto

theorem atLeast_iff : v.atLeast w = true ↔ ¬ v.lt w = true := by
  simp [atLeast]

theorem lt_iff_point_lt (hv : v.IsRelease) : v.lt w = true ↔ v.point < w.point := by
  rw [lt_iff, hv, preLt_nil]
  simp

/-- A release is at least a version when its numbers are. -/
theorem atLeast_iff_le (hv : v.IsRelease) : v.atLeast w = true ↔ w.point ≤ v.point := by
  rw [atLeast_iff, lt_iff_point_lt hv, not_lt]

/-- Below a release are the versions with smaller numbers and its own pre-releases. -/
theorem lt_release_iff (ht : t.IsRelease) :
    v.lt t = true ↔ v.point < t.point ∨ v.point = t.point ∧ ¬ v.IsRelease := by
  rw [lt_iff, ht, preLt_nil_right]
  rfl

theorem point_le_of_atLeast (ht : t.IsRelease) (h : v.atLeast t = true) : t.point ≤ v.point := by
  rw [atLeast_iff, lt_release_iff ht, not_or] at h
  exact not_lt.mp h.1

/-- What is not below something that is at least a release is at least this release. -/
theorem atLeast_of_not_lt (ht : t.IsRelease) (hw : w.atLeast t = true) (h : ¬ v.lt w = true) :
    v.atLeast t = true := by
  rw [atLeast_iff, lt_release_iff ht] at hw ⊢
  rw [lt_iff] at h
  rintro (hlt | ⟨heq, hpre⟩)
  · exact h (.inl (lt_of_lt_of_le hlt (not_lt.mp fun hwt => hw (.inl hwt))))
  · rcases lt_trichotomy v.point w.point with hvw | hvw | hvw
    · exact h (.inl hvw)
    · have hwpre : w.IsRelease := not_not.mp fun hne => hw (.inr ⟨hvw.symm.trans heq, hne⟩)
      exact h (.inr ⟨hvw, by rw [hwpre]; exact preLt_nil_right.mpr hpre⟩)
    · exact hw (.inl (heq ▸ hvw))

/-- What is above something that is at least a release is at least this release, too. -/
theorem atLeast_of_lt (ht : t.IsRelease) (hw : w.atLeast t = true) (h : w.lt v = true) :
    v.atLeast t = true := by
  rw [atLeast_iff, lt_release_iff ht] at hw ⊢
  rw [lt_iff] at h
  rintro hvt
  have hle : v.point ≤ t.point := hvt.elim le_of_lt fun hpre => hpre.1.le
  rcases h with hlt | ⟨heq, hpre⟩
  · exact hw (.inl (lt_of_lt_of_le hlt hle))
  · -- the tag of `w` leads to a release, so `w` has a tag
    have hwpre : ¬ w.IsRelease := fun hw => by
      rw [hw, preLt_nil] at hpre
      exact Bool.false_ne_true hpre
    exact hw ((lt_or_eq_of_le (heq ▸ hle)).imp id fun hwt => ⟨hwt, hwpre⟩)

end Version

namespace Requirement

variable {t : Version}

theorem any_largest?_iff (ht : t.IsRelease) (vs : List Version) :
    (largest? vs).any (fun v => v.atLeast t) = true ↔ ∃ v ∈ vs, v.atLeast t = true := by
  induction vs with
  | nil => simp [largest?]
  | cons v vs ih =>
    rw [List.exists_mem_cons_iff, ← ih]
    cases hw : largest? vs with
    | none => simp [largest?, hw]
    | some w =>
      simp only [largest?, hw, Option.any_some]
      split
      · next hlt => exact ⟨.inl, fun h => h.elim id fun hwt => Version.atLeast_of_lt ht hwt hlt⟩
      · next hge => exact ⟨.inr, fun h => h.elim (fun hv => Version.atLeast_of_not_lt ht hv hge) id⟩

/-- The lower bounds leave only what is at least a release exactly when one of them is at least
this release. -/
theorem meets_iff (ht : t.IsRelease) {r : Requirement} (hne : r.comparators ≠ []) :
    r.meets t = true ↔
      ∃ c ∈ r.comparators, ∃ v, c.lowerBound? = some v ∧ v.atLeast t = true := by
  rw [meets, Bool.or_eq_true, List.isEmpty_iff, any_largest?_iff ht, or_iff_right hne]
  simp only [List.mem_filterMap]
  constructor
  · rintro ⟨v, ⟨c, hc, hv⟩, h⟩
    exact ⟨c, hc, v, hv, h⟩
  · rintro ⟨c, hc, v, hv, h⟩
    exact ⟨v, ⟨c, hc, hv⟩, h⟩

end Requirement

end Codemod

import Codemod.Proofs.Version.Matching

/-!
# Codemod.Proofs.Version.Bounds

What the lower bounds of a requirement say about the releases that it admits.

* `Requirement.atLeast_of_meets`: if the lower bounds reach a release, all that is admitted does.
* `Requirement.meets_iff_forall`: the other direction. Lower bounds fall short of the releases that
  are admitted in two ways. A requirement may begin at a pre-release (`Requirement.Previews`), and
  a strict comparator names a version that it does not admit (`Comparator.Skips`); the latter does
  not matter where another comparator has its lower bound high enough.
-/

namespace Codemod

namespace Version

/-- The version has the numbers of a release and a tag. -/
def IsPreReleaseOf (v t : Version) : Prop :=
  v.point = t.point ∧ ¬ v.IsRelease

end Version

namespace Comparator

variable {c : Comparator} {t : Version}

/-- A strict comparator that names a release below `t` and admits only releases from `t` on. -/
structure Skips (c : Comparator) (t : Version) : Prop where
  strict : c.op = .greater
  untagged : c.pre = []
  below : c.start.lt t = true
  atLeast : ∀ v : Version, v.IsRelease → v.Fits → c.admits v = true → v.atLeast t = true

theorem fits_start (hc : c.Sound) : c.start.Fits := by
  have hpos : 0 < wordLimit := Nat.lt_of_le_of_lt (Nat.zero_le _) hc.major_lt
  refine ⟨hc.major_lt, ?_, ?_⟩
  · cases hm : c.minor with
    | none => simpa [start, hm] using hpos
    | some n => simpa [start, hm] using hc.minor_lt n hm
  · cases hp : c.patch with
    | none => simpa [start, hp] using hpos
    | some n => simpa [start, hp] using hc.patch_lt n hp

/-- The releases behind a pre-release begin with its own. -/
theorem next_of_pre (hc : c.Sound) (hpre : c.pre ≠ []) : c.next = c.start := by
  rcases hc.cases with ⟨op, a, rfl⟩ | ⟨op, a, b, rfl⟩ | ⟨op, a, b, p, pre, rfl⟩
  · exact absurd rfl hpre
  · exact absurd rfl hpre
  · simp only [next, start, if_neg hpre, Option.getD_some]

/-- A comparator with its lower bound below `t` leaves room for a release below `t`. -/
theorem exists_below (hc : c.Sound) (hfirst : Version.first.point < t.point)
    (hbound : ∀ w, c.lowerBound? = some w → w.point < t.point) (hskips : ¬ c.Skips t) :
    ∃ u : Version, (u.IsRelease ∧ u.Fits ∧ u.point < t.point) ∧ c.floor.point ≤ u.point := by
  cases hw : c.lowerBound? with
  | none =>
    have hfloor : c.floor = .first := by
      rcases lowerBound?_eq_none hw with hop | hop <;> simp only [floor, hop]
    have hpos : 0 < wordLimit := Nat.lt_of_le_of_lt (Nat.zero_le _) hc.major_lt
    exact ⟨.first, ⟨rfl, ⟨hpos, hpos, hpos⟩, hfirst⟩, by rw [hfloor]⟩
  | some w =>
    obtain ⟨hpoint, -, hless, hlessEq⟩ := lowerBound?_eq_some hw
    have hstart : c.start.point < t.point := hpoint ▸ hbound w hw
    by_cases hstrict : c.op = .greater ∧ c.pre = []
    · -- the strict comparator admits a release below `t`, as it does not skip to `t`
      by_contra hnone
      refine hskips ⟨hstrict.1, hstrict.2, (Version.lt_iff_point_lt c.isRelease_start).mpr hstart, ?_⟩
      intro v hv hfits hadmits
      rw [Version.atLeast_iff_le hv, ← not_lt]
      exact fun hlt => hnone ⟨v, ⟨hv, hfits, hlt⟩, ((admits_iff hc hv).mp hadmits).1⟩
    · have hfloor : c.floor = c.start := by
        cases hop : c.op with
        | less => exact absurd hop hless
        | lessEq => exact absurd hop hlessEq
        | greater =>
          simp only [floor, hop]
          exact next_of_pre hc fun hpre => hstrict ⟨hop, hpre⟩
        | exact | wildcard | greaterEq | tilde | caret => simp only [floor, hop]
      exact ⟨c.start, ⟨c.isRelease_start, fits_start hc, hstart⟩, by rw [hfloor]⟩

end Comparator

namespace Requirement

variable {r : Requirement} {t : Version}

/-- The requirement begins at a pre-release of `t`: this is one of its lower bounds, and none of
them is at least `t`. -/
def Previews (r : Requirement) (t : Version) : Prop :=
  (∃ c ∈ r.comparators, ∃ v, c.lowerBound? = some v ∧ v.IsPreReleaseOf t) ∧
    ∀ c ∈ r.comparators, ∀ v, c.lowerBound? = some v → v.lt t = true

variable (hsound : ∀ c ∈ r.comparators, c.Sound)

include hsound

/-- Comparators that all have their lower bounds below `t` leave room for one release below `t`. -/
theorem exists_below (hfirst : Version.first.point < t.point)
    (hbound : ∀ c ∈ r.comparators, ∀ w, c.lowerBound? = some w → w.point < t.point)
    (hskips : ∀ c ∈ r.comparators, ¬ c.Skips t) :
    ∃ u : Version, (u.IsRelease ∧ u.Fits ∧ u.point < t.point) ∧
      ∀ c ∈ r.comparators, c.floor.point ≤ u.point := by
  obtain ⟨cs⟩ := r
  dsimp only at hsound hbound hskips ⊢
  induction cs with
  | nil => exact ⟨.first, ⟨rfl, ⟨by decide, by decide, by decide⟩, hfirst⟩, nofun⟩
  | cons c cs ih =>
    rw [List.forall_mem_cons] at hsound hbound hskips
    obtain ⟨u, hu, hfloors⟩ := ih hsound.2 hbound.2 hskips.2
    obtain ⟨u', hu', hfloor⟩ := Comparator.exists_below hsound.1 hfirst hbound.1 hskips.1
    -- the greater one of the two releases will do for all
    rcases le_total u.point u'.point with hle | hle
    · exact ⟨u', hu', List.forall_mem_cons.mpr ⟨hfloor, fun d hd => le_trans (hfloors d hd) hle⟩⟩
    · exact ⟨u, hu, List.forall_mem_cons.mpr ⟨le_trans hfloor hle, hfloors⟩⟩

variable (ht : t.IsRelease)

include ht

/-- If a lower bound is at least a release, so is every release that is admitted. -/
theorem atLeast_of_meets (hne : r.comparators ≠ []) (h : r.meets t = true) {v : Version}
    (hv : v.IsRelease) (hadmits : r.admits v = true) : v.atLeast t = true := by
  obtain ⟨c, hc, w, hw, hwt⟩ := (meets_iff ht hne).mp h
  have hfloor := (Comparator.admits_iff (hsound c hc) hv).mp
    ((admits_of_isRelease hv).mp hadmits c hc)
  rw [Version.atLeast_iff_le hv]
  calc t.point ≤ w.point := Version.point_le_of_atLeast ht hwt
    _ ≤ c.floor.point := Comparator.point_le_floor (hsound c hc) hw
    _ ≤ v.point := hfloor.1

/-- The lower bounds of a requirement that admits a release reach `t` exactly when every release
that is admitted does, except where the requirement begins at a pre-release of `t`. -/
theorem meets_iff_forall (hne : r.comparators ≠ []) (hfirst : Version.first.point < t.point)
    (hsome : ∃ v : Version, v.IsRelease ∧ v.Fits ∧ r.admits v = true)
    (hskips : (∃ c ∈ r.comparators, c.Skips t) →
      ∃ c ∈ r.comparators, ∃ w, c.lowerBound? = some w ∧ w.atLeast t = true) :
    r.meets t = true ↔
      (∀ v : Version, v.IsRelease → v.Fits → r.admits v = true → v.atLeast t = true) ∧
        ¬ r.Previews t := by
  constructor
  · intro hmeets
    refine ⟨fun v hv _ => atLeast_of_meets hsound ht hne hmeets hv, fun hpreviews => ?_⟩
    obtain ⟨c, hc, w, hw, hwt⟩ := (meets_iff ht hne).mp hmeets
    exact Version.atLeast_iff.mp hwt (hpreviews.2 c hc w hw)
  · rintro ⟨hall, hpreviews⟩
    by_contra hmeets
    -- all lower bounds are below `t`, and none of them is a pre-release of it
    have hlt : ∀ c ∈ r.comparators, ∀ w, c.lowerBound? = some w → w.lt t = true := by
      intro c hc w hw
      by_contra hge
      exact hmeets ((meets_iff ht hne).mpr ⟨c, hc, w, hw, Version.atLeast_iff.mpr hge⟩)
    have hbound : ∀ c ∈ r.comparators, ∀ w, c.lowerBound? = some w → w.point < t.point := by
      intro c hc w hw
      refine ((Version.lt_release_iff ht).mp (hlt c hc w hw)).resolve_right fun hpre => ?_
      exact hpreviews ⟨⟨c, hc, w, hw, hpre⟩, hlt⟩
    have hnone : ∀ c ∈ r.comparators, ¬ c.Skips t := fun c hc hskip =>
      hmeets ((meets_iff ht hne).mpr (hskips ⟨c, hc, hskip⟩))
    obtain ⟨u, ⟨hu, hfits, hut⟩, hfloors⟩ := exists_below hsound hfirst hbound hnone
    obtain ⟨v, hv, hvfits, hadmits⟩ := hsome
    have hvt : t.point ≤ v.point := (Version.atLeast_iff_le hv).mp (hall v hv hvfits hadmits)
    -- what is below an admitted release and above all floors is admitted, too
    have huadmits : r.admits u = true := by
      rw [admits_of_isRelease hu]
      intro c hc
      have hceiling := (Comparator.admits_iff (hsound c hc) hv).mp
        ((admits_of_isRelease hv).mp hadmits c hc)
      rw [Comparator.admits_iff (hsound c hc) hu]
      exact ⟨hfloors c hc, fun w hw => lt_trans (lt_of_lt_of_le hut hvt) (hceiling.2 w hw)⟩
    exact not_le_of_gt hut ((Version.atLeast_iff_le hu).mp (hall u hu hfits huadmits))

end Requirement

end Codemod

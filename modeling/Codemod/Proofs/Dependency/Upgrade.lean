import Codemod.Proofs.Dependency
import Codemod.Proofs.Version.Bounds
import Codemod.Proofs.Version.Requirement

/-!
# Codemod.Proofs.Dependency.Upgrade

When a declared package is upgraded and when it is left alone.

A package that is left alone without a note gets no release below its target from its range
(`DependencyPlan.noOp_admits_atLeast`). Conversely, a range that only admits releases from the
target on is left alone, unless it begins at a pre-release of the target
(`DependencyPlan.noOp_iff_admits_atLeast`).
-/

namespace Codemod

namespace Dependency

/-- The targets are releases, and not the first one. -/
theorem exists_minimum {target : String} (h : target = baseVersion ∨ target = successorVersion) :
    ∃ minimum, Version.parse? target.toList = some minimum ∧ minimum.IsRelease ∧
      Version.first.point < minimum.point := by
  rcases h with rfl | rfl
  · refine ⟨⟨16, 10, 0, []⟩, by decide +kernel, rfl, ?_⟩
    rw [Version.point_lt_iff]
    decide
  · refine ⟨⟨3, 0, 0, []⟩, by decide +kernel, rfl, ?_⟩
    rw [Version.point_lt_iff]
    decide

/-- The comparators of a declared range are sound. -/
theorem sound_of_requirement? {range : String} {r : Requirement} (h : requirement? range = some r) :
    ∀ c ∈ r.comparators, c.Sound := by
  obtain ⟨text, -, hparse⟩ := Option.bind_eq_some_iff.mp h
  exact Requirement.sound_of_parse? hparse

end Dependency

namespace DependencyPlan

open Dependency

variable {manifest : Json} {c : Change} {range target : String}

/-- What is left alone is declared and has a target. -/
theorem exists_of_noOp (hc : c ∈ (ofManifest manifest).changes) (haction : c.action = .noOp) :
    ∃ range target, c.currentRange = some range ∧ c.targetVersion = some target := by
  obtain ⟨name, rule, -, hc⟩ := mem_ofManifest.mp hc
  obtain ⟨-, hrange, htarget⟩ := change?_fields hc
  cases hdeclared : declared? manifest name with
  | none =>
    rw [hdeclared] at hc
    cases rule <;> cases hc
    cases haction
  | some range =>
    cases rule with
    | uninstall =>
      rw [hdeclared] at hc
      cases hc
      cases haction
    | install target | upgrade target => exact ⟨range, target, hrange.trans hdeclared, htarget⟩

/-- The entry of a declared package with a target compares the two. -/
theorem eq_compare (hc : c ∈ (ofManifest manifest).changes) (hrange : c.currentRange = some range)
    (htarget : c.targetVersion = some target) :
    c = compare c.name range target ∧ (target = baseVersion ∨ target = successorVersion) := by
  obtain ⟨name, rule, hentry, hc⟩ := mem_ofManifest.mp hc
  obtain ⟨hname, hdeclared, hrule⟩ := change?_fields hc
  rw [hrange] at hdeclared
  rw [htarget] at hrule
  rw [← hdeclared, change?_of_target? hrule.symm] at hc
  cases hc
  exact ⟨by rw [hname], target_mem_registry _ hentry target hrule.symm⟩

/-- A package that is left alone without a note has a range that can be read, and unless this range
asks for nothing, every release that it admits is at least the target. -/
theorem noOp_admits_atLeast (hc : c ∈ (ofManifest manifest).changes) (haction : c.action = .noOp)
    (hnote : c.note = none) :
    ∃ range target r minimum, c.currentRange = some range ∧ c.targetVersion = some target ∧
      requirement? range = some r ∧ Version.parse? target.toList = some minimum ∧
      (r.comparators ≠ [] → ∀ v : Version, v.IsRelease → r.admits v = true →
        v.atLeast minimum = true) := by
  obtain ⟨range, target, hrange, htarget⟩ := exists_of_noOp hc haction
  obtain ⟨heq, heither⟩ := eq_compare hc hrange htarget
  obtain ⟨minimum, hmin, hrelease, -⟩ := exists_minimum heither
  cases hr : requirement? range with
  | none =>
    rw [heq, compare_of_none hr] at hnote
    cases hnote
  | some r =>
    refine ⟨range, target, r, minimum, hrange, htarget, hr, hmin, fun hne v hv hadmits => ?_⟩
    have hmeets : r.meets minimum = true := by
      rw [heq, compare_of_requirement? hr hmin] at haction
      by_contra hmeets
      rw [if_neg hmeets] at haction
      cases haction
    exact Requirement.atLeast_of_meets (sound_of_requirement? hr) hrelease hne hmeets hv hadmits

/-- A manifest that declares nothing but a range for the interface package. -/
def declaring (range : String) : Json :=
  .object [(some "dependencies", .object [(some "@tarojs/taro", .string (some range))])]

/-- The entry of a package that is left alone. -/
def keptAt (range : String) : Change :=
  ⟨"@tarojs/taro", some range, .noOp, some "3.0.0", none⟩

theorem noOp_admits_atLeast_conjunction :
    keptAt ">2.9 ^3.0.1-beta <=3.5" ∈ (ofManifest (declaring ">2.9 ^3.0.1-beta <=3.5")).changes ∧
      ∃ r : Requirement, requirement? ">2.9 ^3.0.1-beta <=3.5" = some r ∧
        ∀ v : Version, v.IsRelease → r.admits v = true → v.atLeast ⟨3, 0, 0, []⟩ = true := by
  have hc : keptAt ">2.9 ^3.0.1-beta <=3.5" ∈
      (ofManifest (declaring ">2.9 ^3.0.1-beta <=3.5")).changes := by
    decide +kernel
  obtain ⟨range, target, r, minimum, hrange, htarget, hr, hmin, hall⟩ :=
    noOp_admits_atLeast hc rfl rfl
  cases hrange
  cases htarget
  obtain rfl : minimum = ⟨3, 0, 0, []⟩ :=
    Option.some.inj (hmin.symm.trans (by decide +kernel))
  have hne : r.comparators ≠ [] := by
    rintro hnil
    have hsome : (requirement? ">2.9 ^3.0.1-beta <=3.5").any (!·.comparators.isEmpty) = true := by
      decide +kernel
    rw [hr, Option.any_some, hnil] at hsome
    cases hsome
  exact ⟨hc, r, hr, hall hne⟩

/-- A range is given that asks for something and admits a release, and if a strict comparator of it
skips to the target, another one has its lower bound there. Then its package is left alone exactly
when every release that it admits is at least the target and it does not begin at a pre-release of
the target. -/
theorem noOp_iff_admits_atLeast {r : Requirement} {minimum : Version}
    (hc : c ∈ (ofManifest manifest).changes) (hrange : c.currentRange = some range)
    (htarget : c.targetVersion = some target) (hr : requirement? range = some r)
    (hmin : Version.parse? target.toList = some minimum) (hne : r.comparators ≠ [])
    (hsome : ∃ v : Version, v.IsRelease ∧ v.Fits ∧ r.admits v = true)
    (hskips : (∃ d ∈ r.comparators, d.Skips minimum) →
      ∃ d ∈ r.comparators, ∃ w, d.lowerBound? = some w ∧ w.atLeast minimum = true) :
    c.action = .noOp ↔
      (∀ v : Version, v.IsRelease → v.Fits → r.admits v = true → v.atLeast minimum = true) ∧
        ¬ r.Previews minimum := by
  obtain ⟨heq, heither⟩ := eq_compare hc hrange htarget
  obtain ⟨least, hleast, hrelease, hfirst⟩ := exists_minimum heither
  obtain rfl : minimum = least := Option.some.inj (hmin.symm.trans hleast)
  rw [← Requirement.meets_iff_forall (sound_of_requirement? hr) hrelease hne hfirst hsome hskips,
    heq, compare_of_requirement? hr hmin]
  cases r.meets minimum <;> simp

/-- Two comparators, a strict one that skips to the target and one from a version behind it on. -/
def strictBelow : Requirement :=
  ⟨[⟨.greater, 2, none, none, []⟩, ⟨.caret, 3, some 0, some 1, []⟩]⟩

theorem noOp_iff_admits_atLeast_strict :
    keptAt "> 2 ^v3.0.1" ∈ (ofManifest (declaring "> 2 ^v3.0.1")).changes ∧
      requirement? "> 2 ^v3.0.1" = some strictBelow ∧
      strictBelow.admits ⟨3, 0, 1, []⟩ = true ∧
      (∃ d ∈ strictBelow.comparators, ∃ w, d.lowerBound? = some w ∧
        w.atLeast ⟨3, 0, 0, []⟩ = true) ∧
      ((keptAt "> 2 ^v3.0.1").action = .noOp ↔
        (∀ v : Version, v.IsRelease → v.Fits → strictBelow.admits v = true →
          v.atLeast ⟨3, 0, 0, []⟩ = true) ∧ ¬ strictBelow.Previews ⟨3, 0, 0, []⟩) := by
  have hc : keptAt "> 2 ^v3.0.1" ∈ (ofManifest (declaring "> 2 ^v3.0.1")).changes := by
    decide +kernel
  have hr : requirement? "> 2 ^v3.0.1" = some strictBelow := by
    decide +kernel
  have hadmits : strictBelow.admits ⟨3, 0, 1, []⟩ = true := by
    decide
  have hbound : ∃ d ∈ strictBelow.comparators, ∃ w, d.lowerBound? = some w ∧
      w.atLeast ⟨3, 0, 0, []⟩ = true :=
    ⟨⟨.caret, 3, some 0, some 1, []⟩, by decide, ⟨3, 0, 1, []⟩, rfl, by decide⟩
  exact ⟨hc, hr, hadmits, hbound, noOp_iff_admits_atLeast hc rfl rfl hr (by decide +kernel)
    (by decide) ⟨⟨3, 0, 1, []⟩, rfl, ⟨by decide, by decide, by decide⟩, hadmits⟩ fun _ => hbound⟩

/-- A range that begins at a pre-release of the target is upgraded, although every release that it
admits is at least the target. -/
theorem preview_upgraded :
    ∃ c ∈ (ofManifest (declaring "3.0.0-beta.6")).changes, ∃ r : Requirement,
      c.currentRange = some "3.0.0-beta.6" ∧ c.targetVersion = some "3.0.0" ∧
      requirement? "3.0.0-beta.6" = some r ∧ r.comparators ≠ [] ∧
      Version.parse? "3.0.0".toList = some ⟨3, 0, 0, []⟩ ∧
      (∃ v : Version, v.IsRelease ∧ v.Fits ∧ r.admits v = true) ∧
      (∀ v : Version, v.IsRelease → v.Fits → r.admits v = true →
        v.atLeast ⟨3, 0, 0, []⟩ = true) ∧
      c.action = .upgrade := by
  let comparator : Comparator := ⟨.caret, 3, some 0, some 0, [.word "beta", .number 6]⟩
  have hr : requirement? "3.0.0-beta.6" = some ⟨[comparator]⟩ := by
    decide +kernel
  have hsound : comparator.Sound := sound_of_requirement? hr _ List.mem_cons_self
  refine ⟨⟨"@tarojs/taro", some "3.0.0-beta.6", .upgrade, some "3.0.0", none⟩, by decide +kernel,
    ⟨[comparator]⟩, rfl, rfl, hr, by simp, by decide +kernel,
    ⟨⟨3, 0, 0, []⟩, rfl, ⟨by decide, by decide, by decide⟩, by decide⟩, ?_, rfl⟩
  intro v hv _ hadmits
  have hcaret := (Requirement.admits_of_isRelease hv).mp hadmits _ List.mem_cons_self
  exact (Version.atLeast_iff_le hv).mpr ((Comparator.admits_iff hsound hv).mp hcaret).1

end DependencyPlan

end Codemod

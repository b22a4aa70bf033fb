import Codemod.Dependency
import Mathlib.Data.List.Nodup

/-!
# Codemod.Proofs.Dependency

The dependency plan, entry by entry, and what is left to do once it has been carried out.

* `DependencyPlan.get?_ofManifest`: the entry of a known package depends on nothing but the range
  that is declared for it.
* `Dependency.compare_target`: a package that is declared with its target is left alone.
* `DependencyPlan.ofManifest_carriedOut`: once a plan has been carried out, the next plan leaves
  everything alone.
-/

namespace Codemod

namespace Dependency

namespace Rule

/-- The version that a package should have, if it is to be kept. -/
def target? : Rule → Option String
  | install target | upgrade target => some target
  | uninstall => none

end Rule

theorem nodup_registry : (registry.map (·.1)).Nodup := by
  decide +kernel

theorem target_mem_registry : ∀ entry ∈ registry, ∀ target ∈ entry.2.target?,
    target = baseVersion ∨ target = successorVersion := by
  decide +kernel

variable {name range target : String} {rule : Rule} {declared : Option String} {c : Change}

/-! ## Comparing a range with a target -/

theorem compare_of_requirement? {r : Requirement} {minimum : Version}
    (hr : requirement? range = some r) (hmin : Version.parse? target.toList = some minimum) :
    compare name range target =
      ⟨name, some range, if r.meets minimum then .noOp else .upgrade, some target, none⟩ := by
  simp only [compare, hr, hmin]

theorem compare_of_none (hr : requirement? range = none) :
    compare name range target = ⟨name, some range, .noOp, some target,
      some ("unrecognised version range `" ++ range ++ "`")⟩ := by
  simp only [compare, hr]

theorem compare_fields (name range target : String) : (compare name range target).name = name ∧
    (compare name range target).currentRange = some range ∧
    (compare name range target).targetVersion = some target := by
  unfold compare
  split <;> exact ⟨rfl, rfl, rfl⟩

theorem compare_action (name range target : String) :
    (compare name range target).action = .noOp ∨
      (compare name range target).action = .upgrade := by
  unfold compare
  split
  · split <;> simp
  · exact .inl rfl

/-- A package that is declared with its target is left alone. -/
theorem compare_target (name : String) (h : target = baseVersion ∨ target = successorVersion) :
    compare name target target = ⟨name, some target, .noOp, some target, none⟩ := by
  have hmeets : (requirement? target).any (fun r =>
      (Version.parse? target.toList).any fun minimum => r.meets minimum) = true := by
    rcases h with rfl | rfl <;> decide +kernel
  obtain ⟨r, hr, hmeets⟩ := (Option.any_eq_true ..).mp hmeets
  obtain ⟨minimum, hmin, hmeets⟩ := (Option.any_eq_true ..).mp hmeets
  rw [compare_of_requirement? hr hmin, if_pos hmeets]

/-! ## Entries -/

theorem change?_fields (h : change? name rule declared = some c) :
    c.name = name ∧ c.currentRange = declared ∧ c.targetVersion = rule.target? := by
  cases rule <;> cases declared <;> cases h
  · exact ⟨rfl, rfl, rfl⟩
  · exact compare_fields ..
  · exact compare_fields ..
  · exact ⟨rfl, rfl, rfl⟩

/-- A declared package that is to be kept is compared with its target. -/
theorem change?_of_target? (h : rule.target? = some target) :
    change? name rule (some range) = some (compare name range target) := by
  cases rule <;> cases h <;> rfl

/-- The range with which an entry, once carried out, leaves its package. -/
def Change.rangeAfter (c : Change) : Option String :=
  match c.action with
  | .install | .upgrade => c.targetVersion
  | .uninstall => none
  | .noOp => c.currentRange

/-- A range that has been compared is either kept or replaced by the target, and the next
comparison leaves it alone. -/
theorem change?_compare_rangeAfter (h : rule.target? = some target)
    (htarget : target = baseVersion ∨ target = successorVersion) :
    ∃ c, change? name rule (compare name range target).rangeAfter = some c ∧ c.action = .noOp := by
  obtain ⟨-, hrange, htargetVersion⟩ := compare_fields name range target
  rcases compare_action name range target with hact | hact
  · refine ⟨compare name range target, ?_, hact⟩
    rw [Change.rangeAfter, hact]
    dsimp only
    rw [hrange, change?_of_target? h]
  · refine ⟨compare name target target, ?_, by rw [compare_target name htarget]⟩
    rw [Change.rangeAfter, hact]
    dsimp only
    rw [htargetVersion, change?_of_target? h]

/-- Once an entry has been carried out, nothing is left to do about its package: it has an entry
without an action, unless it has been removed. -/
theorem change?_rangeAfter (hmem : (name, rule) ∈ registry)
    (h : change? name rule declared = some c) :
    (c.action ≠ .uninstall ∧ ∃ c', change? name rule c.rangeAfter = some c' ∧ c'.action = .noOp) ∨
      (c.action = .uninstall ∧ change? name rule c.rangeAfter = none) := by
  cases htarget : rule.target? with
  | none =>
    cases rule <;> cases htarget
    cases declared <;> cases h
    exact .inr ⟨rfl, rfl⟩
  | some target =>
    have heither := target_mem_registry _ hmem target htarget
    refine .inl ?_
    cases declared with
    | none =>
      cases rule <;> cases htarget <;> cases h
      exact ⟨nofun, _, rfl, by rw [compare_target name heither]⟩
    | some range =>
      rw [change?_of_target? htarget] at h
      cases h
      refine ⟨fun hact => ?_, change?_compare_rangeAfter htarget heither⟩
      rcases compare_action name range target with hnoOp | hupgrade
      · rw [hnoOp] at hact
        cases hact
      · rw [hupgrade] at hact
        cases hact

/-- What the next plan says about a package: nothing is to be done, and it has an entry if it had
one and has not been removed. -/
theorem change?_next (declared : Option String) (hmem : (name, rule) ∈ registry) :
    let next := change? name rule ((change? name rule declared).bind Change.rangeAfter)
    (∀ c ∈ next, c.action = .noOp) ∧ next.map (·.name) =
      ((change? name rule declared).filter fun c => c.action != .uninstall).map (·.name) := by
  cases hc : change? name rule declared with
  | none =>
    have hnone : change? name rule none = none := by
      cases rule <;> cases declared <;> first | rfl | cases hc
    simp [hnone]
  | some c =>
    rcases change?_rangeAfter hmem hc with ⟨hkept, c', hc', hact⟩ | ⟨hgone, hnone⟩
    · simp [hc', hact, hkept, Option.filter, (change?_fields hc).1, (change?_fields hc').1]
    · simp [hnone, hgone, Option.filter]

end Dependency

namespace DependencyPlan

open Dependency

variable {manifest : Json} {name : String} {rule : Rule} {c : Change}

theorem mem_ofManifest : c ∈ (ofManifest manifest).changes ↔
    ∃ name rule, (name, rule) ∈ registry ∧ change? name rule (declared? manifest name) = some c := by
  simp only [ofManifest, List.mem_filterMap, Prod.exists]

/-- Entries are found by the names of their packages, which are all different. -/
theorem find?_filterMap_change? {entries : List (String × Rule)} (declared : String → Option String)
    (hnodup : (entries.map (·.1)).Nodup) (hmem : (name, rule) ∈ entries) :
    (entries.filterMap fun entry => change? entry.1 entry.2 (declared entry.1)).find?
      (fun c => c.name == name) = change? name rule (declared name) := by
  induction entries with
  | nil => cases hmem
  | cons entry entries ih =>
    obtain ⟨hnew, hnodup⟩ := List.nodup_cons.mp hnodup
    rw [List.filterMap_cons]
    rcases List.mem_cons.mp hmem with rfl | hmem
    · cases hc : change? name rule (declared name) with
      | none =>
        dsimp only
        rw [List.find?_eq_none]
        intro c hfound heq
        obtain ⟨entry, hentry, hc⟩ := List.mem_filterMap.mp hfound
        rw [(change?_fields hc).1, beq_iff_eq] at heq
        exact hnew (List.mem_map.mpr ⟨entry, hentry, heq⟩)
      | some c => exact List.find?_cons_of_pos (by rw [(change?_fields hc).1, beq_self_eq_true])
    · have hne : entry.1 ≠ name := fun heq => hnew (List.mem_map.mpr ⟨_, hmem, heq.symm⟩)
      cases hc : change? entry.1 entry.2 (declared entry.1) with
      | none => exact ih hnodup hmem
      | some c =>
        dsimp only
        rw [List.find?_cons_of_neg (by rw [(change?_fields hc).1, beq_iff_eq]; exact hne)]
        exact ih hnodup hmem

/-- The entry of a known package depends on nothing but its own declared range. -/
theorem get?_ofManifest (h : (name, rule) ∈ registry) :
    (ofManifest manifest).get? name = change? name rule (declared? manifest name) :=
  find?_filterMap_change? (declared? manifest) nodup_registry h

/-- The range that a package has once the plan of a manifest has been carried out: what is to be
installed or upgraded has its target, what is to be removed is gone, and all else is as it was. -/
def rangeAfter (manifest : Json) (name : String) : Option String :=
  match (ofManifest manifest).get? name with
  | none => declared? manifest name
  | some c =>
    match c.action with
    | .install | .upgrade => c.targetVersion
    | .uninstall => none
    | .noOp => declared? manifest name

/-- An entry says what becomes of its package. -/
theorem rangeAfter_eq (h : (name, rule) ∈ registry) : rangeAfter manifest name =
    ((change? name rule (declared? manifest name)).bind Change.rangeAfter) := by
  rw [rangeAfter, get?_ofManifest h]
  cases hc : change? name rule (declared? manifest name) with
  | none =>
    dsimp only
    cases hdeclared : declared? manifest name with
    | none => rfl
    | some range =>
      rw [hdeclared] at hc
      cases rule <;> cases hc
  | some c =>
    dsimp only [Option.bind_some]
    unfold Change.rangeAfter
    split <;> simp [*, (change?_fields hc).2.1]

/-- Once a plan has been carried out, the next plan leaves everything alone. It has an entry for
each package that the first one has an entry for and that has not been removed. -/
theorem ofManifest_carriedOut {manifest manifest' : Json}
    (h : ∀ entry ∈ registry, declared? manifest' entry.1 = rangeAfter manifest entry.1) :
    (∀ c ∈ (ofManifest manifest').changes, c.action = .noOp) ∧
      (ofManifest manifest').changes.map (·.name) =
        ((ofManifest manifest).changes.filter fun c => c.action != .uninstall).map (·.name) := by
  have hnext {entry : String × Rule} (hentry : entry ∈ registry) :=
    change?_next (declared? manifest entry.1) hentry
  have hdeclared {entry : String × Rule} (hentry : entry ∈ registry) :=
    (h entry hentry).trans (rangeAfter_eq hentry)
  constructor
  · intro c hc
    obtain ⟨name, rule, hentry, hc⟩ := mem_ofManifest.mp hc
    rw [hdeclared hentry] at hc
    exact (hnext hentry).1 c hc
  · simp only [ofManifest, List.map_filterMap, List.filter_filterMap]
    refine List.filterMap_congr fun entry hentry => ?_
    rw [hdeclared hentry]
    exact (hnext hentry).2

/-- A manifest with a package to upgrade, one in the second table only, one with an address and one
to remove. -/
def mixedManifest : Json :=
  .object [
    (some "dependencies", .object [
      (some "react", .string (some "^15.0.0 || ^16.0.0")),
      (some "@tarojs/taro", .number (.whole 3)),
      (some "@tarojs/cli", .string (some "github:nervjs/taro")),
      (some "nervjs", .string (some "^1.5.7"))]),
    (some "devDependencies", .object [(some "@tarojs/taro", .string (some "~3.0.2"))])]

/-- The same manifest once its plan has been carried out. -/
def migratedManifest : Json :=
  .object [
    (some "dependencies", .object [
      (some "react", .string (some "16.10.0")),
      (some "react-dom", .string (some "16.10.0")),
      (some "@tarojs/react", .string (some "3.0.0")),
      (some "@tarojs/taro", .string (some "~3.0.2")),
      (some "@tarojs/cli", .string (some "github:nervjs/taro"))]),
    (some "devDependencies", .object [
      (some "@tarojs/runtime", .string (some "3.0.0")),
      (some "babel-preset-taro", .string (some "3.0.0"))])]

theorem ofManifest_carriedOut_mixed :
    (∀ entry ∈ registry, declared? migratedManifest entry.1 = rangeAfter mixedManifest entry.1) ∧
      (∀ c ∈ (ofManifest migratedManifest).changes, c.action = .noOp) ∧
      (ofManifest migratedManifest).changes.map (·.name) =
        ((ofManifest mixedManifest).changes.filter fun c => c.action != .uninstall).map
          (·.name) := by
  have h : ∀ entry ∈ registry,
      declared? migratedManifest entry.1 = rangeAfter mixedManifest entry.1 := by
    decide +kernel
  exact ⟨h, ofManifest_carriedOut h⟩

end DependencyPlan

end Codemod

import Codemod.Proofs.Dependency.Upgrade
import Codemod.Proofs.Version.Spelling

/-!
# Codemod.Proofs.Dependency.Respelling

What the dependency plan makes of a range that is written in another way.

The blanks behind an operator and the `v` before a number do not count in a list of comparators. At
an end of a hyphen range a `v` is in the way, and the range cannot be read
(`Dependency.requirement?_of_marked`). So the plan is the same as before unless a `v` comes to such
an end or leaves it (`DependencyPlan.outcome_respelled`).
-/

namespace Codemod

namespace Requirement

theorem comparator?_greaterEq_mark (cs : Text) : comparator? ('>' :: '=' :: 'v' :: cs) = none :=
  rfl

theorem comparator?_lessEq_mark (cs : Text) : comparator? ('<' :: '=' :: 'v' :: cs) = none :=
  rfl

theorem comparators?_of_comparator? {limit : Nat} {text : Text} (h : comparator? text = none) :
    comparators? limit text = none := by
  cases limit with
  | zero => rfl
  | succ limit =>
    rw [comparators?, h]
    rfl

/-- No requirement has a `v` before the number of its first or its second comparator. -/
theorem parse?_of_marked {low high : Range.Mention} (hlow : low.Sound)
    (h : low.marked = true ∨ high.marked = true) :
    parse? (">=".toList ++ low.text ++ ", <=".toList ++ high.text) = none := by
  have hnone : comparators? 32 (">=".toList ++ low.text ++ ", <=".toList ++ high.text) = none := by
    by_cases hmarked : low.marked = true
    · rw [Range.Mention.text, if_pos hmarked]
      exact comparators?_of_comparator? (comparator?_greaterEq_mark _)
    · have hcomma : ',' ∉ ">=".toList ++ low.text := by
        rw [List.mem_append, not_or]
        exact ⟨by decide, fun hmem => absurd (hlow.isVersionChar _ hmem) (by decide)⟩
      have hback : comparators? 31 (skipSpaces (" <=".toList ++ high.text)) = none := by
        rw [Range.Mention.text, if_pos (h.resolve_left hmarked)]
        exact comparators?_of_comparator? (comparator?_lessEq_mark _)
      rw [List.append_assoc]
      exact comparators?_append hcomma hback
  have hparse : parse? (">=".toList ++ low.text ++ ", <=".toList ++ high.text) =
      (comparators? 32 (">=".toList ++ low.text ++ ", <=".toList ++ high.text)).map
        fun cs => ⟨cs⟩ := rfl
  rw [hparse, hnone]
  rfl

end Requirement

namespace Dependency

open Range (Spelling)

variable {s : Spelling}

/-- A spelled range amounts to what it says. -/
theorem requirement?_of_not_marked (hs : s.Sound) (h : ¬ s.IsMarkedSpan) :
    requirement? (String.ofList s.text) = Requirement.parse? s.content.requirement := by
  rw [requirement?, String.toList_ofList]
  cases s with
  | comparators lead first more trail => exact Spelling.requirement?_comparators hs
  | span lead low before after high trail =>
    obtain ⟨hlow, hhigh⟩ := not_or.mp h
    rw [Spelling.normalize?_span hs, Range.Mention.text, Range.Mention.text, if_neg hlow,
      if_neg hhigh]
    rfl

/-- A hyphen range with a `v` at one of its ends is no requirement. -/
theorem requirement?_of_marked (hs : s.Sound) (h : s.IsMarkedSpan) :
    requirement? (String.ofList s.text) = none := by
  rw [requirement?, String.toList_ofList]
  cases s with
  | comparators => cases h
  | span lead low before after high trail =>
    obtain ⟨-, hlow, -⟩ := id hs
    rw [Spelling.normalize?_span hs, Option.bind_some]
    exact Requirement.parse?_of_marked hlow h

/-- The planned action, and whether there is a note. -/
def Change.outcome (c : Change) : Action × Bool :=
  (c.action, c.note.isSome)

theorem outcome_compare_congr {name range range' target : String}
    (h : requirement? range = requirement? range') :
    (compare name range target).outcome = (compare name range' target).outcome := by
  unfold compare
  rw [h]
  split <;> rfl

/-- There is a note exactly where a range cannot be read. -/
theorem isSome_note_compare {name range target : String}
    (htarget : target = baseVersion ∨ target = successorVersion) :
    (compare name range target).outcome.2 = (requirement? range).isNone := by
  obtain ⟨minimum, hmin, -⟩ := exists_minimum htarget
  cases hr : requirement? range with
  | none => rw [compare_of_none hr]; rfl
  | some r => rw [compare_of_requirement? hr hmin]; rfl

theorem isDeprecated_iff : ∀ entry ∈ registry,
    isDeprecated entry.1 = true ↔ entry.2.target? = none := by
  decide +kernel

/-- Two spellings of a range lead to the same outcome exactly when both of them can be read or
neither can. -/
theorem outcome_compare_iff {name target : String} {s s' : Spelling} (hs : s.Sound)
    (hs' : s'.Sound) (hsame : s.content = s'.content)
    (htarget : target = baseVersion ∨ target = successorVersion) :
    (compare name (String.ofList s.text) target).outcome =
        (compare name (String.ofList s'.text) target).outcome ↔
      (s.IsMarkedSpan ↔ s'.IsMarkedSpan) ∨
        Requirement.parse? s.content.requirement = none := by
  have hread {u : Spelling} (hu : u.Sound) (hmarked : ¬ u.IsMarkedSpan) :=
    requirement?_of_not_marked hu hmarked
  have hblocked {u : Spelling} (hu : u.Sound) (hmarked : u.IsMarkedSpan) :=
    requirement?_of_marked hu hmarked
  constructor
  · intro heq
    have hnote : (requirement? (String.ofList s.text)).isNone =
        (requirement? (String.ofList s'.text)).isNone := by
      rw [← isSome_note_compare htarget, heq, isSome_note_compare htarget]
    by_cases hm : s.IsMarkedSpan
    · by_cases hm' : s'.IsMarkedSpan
      · exact .inl (iff_of_true hm hm')
      · rw [hblocked hs hm, hread hs' hm'] at hnote
        exact .inr (hsame ▸ Option.isNone_iff_eq_none.mp hnote.symm)
    · by_cases hm' : s'.IsMarkedSpan
      · rw [hread hs hm, hblocked hs' hm'] at hnote
        exact .inr (Option.isNone_iff_eq_none.mp hnote)
      · exact .inl (iff_of_false hm hm')
  · intro h
    refine outcome_compare_congr ?_
    by_cases hm : s.IsMarkedSpan
    · by_cases hm' : s'.IsMarkedSpan
      · rw [hblocked hs hm, hblocked hs' hm']
      · have hnone := h.resolve_left fun hiff => hm' (hiff.mp hm)
        rw [hblocked hs hm, hread hs' hm', ← hsame, hnone]
    · by_cases hm' : s'.IsMarkedSpan
      · have hnone := h.resolve_left fun hiff => hm (hiff.mpr hm')
        rw [hread hs hm, hblocked hs' hm', hnone]
      · rw [hread hs hm, hread hs' hm', hsame]

end Dependency

namespace DependencyPlan

open Dependency
open Range (Spelling)

variable {manifest manifest' : Json} {name : String} {s s' : Spelling}

/-- A known package is declared with a range and with another spelling of it. The plan is the same,
as far as the action and the presence of a note go, exactly when the package is to be removed
anyway, or a `v` stands at an end of a hyphen range in both spellings or in neither, or what the
range says is no requirement. -/
theorem outcome_respelled (hs : s.Sound) (hs' : s'.Sound) (hsame : s.content = s'.content)
    (hname : name ∈ registry.map (·.1))
    (hdeclared : declared? manifest name = some (String.ofList s.text))
    (hdeclared' : declared? manifest' name = some (String.ofList s'.text)) :
    ((ofManifest manifest).get? name).map Change.outcome =
        ((ofManifest manifest').get? name).map Change.outcome ↔
      isDeprecated name = true ∨ (s.IsMarkedSpan ↔ s'.IsMarkedSpan) ∨
        Requirement.parse? s.content.requirement = none := by
  obtain ⟨⟨_, rule⟩, hentry, rfl⟩ := List.mem_map.mp hname
  dsimp only at hdeclared hdeclared' ⊢
  rw [get?_ofManifest hentry, get?_ofManifest hentry, hdeclared, hdeclared',
    isDeprecated_iff _ hentry]
  cases htarget : rule.target? with
  | none =>
    cases rule <;> cases htarget
    exact iff_of_true rfl (.inl rfl)
  | some target =>
    rw [change?_of_target? htarget, change?_of_target? htarget, Option.map_some, Option.map_some,
      Option.some_inj,
      outcome_compare_iff hs hs' hsame (target_mem_registry _ hentry target htarget)]
    simp

/-- The list `>= 2.0.0  <v3`. -/
def spacedList : Spelling :=
  .comparators [] ⟨">=".toList, [' '], ⟨false, "2.0.0".toList⟩⟩
    [([' ', ' '], ⟨['<'], [], ⟨true, ['3']⟩⟩)] []

/-- The list `>=v2.0.0 < 3`. -/
def markedList : Spelling :=
  .comparators [] ⟨">=".toList, [], ⟨true, "2.0.0".toList⟩⟩
    [([' '], ⟨['<'], [' '], ⟨false, ['3']⟩⟩)] []

theorem outcome_respelled_lists :
    declared? (declaring ">= 2.0.0  <v3") "@tarojs/taro" = some (String.ofList spacedList.text) ∧
      declared? (declaring ">=v2.0.0 < 3") "@tarojs/taro" =
        some (String.ofList markedList.text) ∧
      ((ofManifest (declaring ">= 2.0.0  <v3")).get? "@tarojs/taro").map Change.outcome =
        ((ofManifest (declaring ">=v2.0.0 < 3")).get? "@tarojs/taro").map Change.outcome := by
  have hspaced : declared? (declaring ">= 2.0.0  <v3") "@tarojs/taro" =
      some (String.ofList spacedList.text) := by
    decide +kernel
  have hmarked : declared? (declaring ">=v2.0.0 < 3") "@tarojs/taro" =
      some (String.ofList markedList.text) := by
    decide +kernel
  exact ⟨hspaced, hmarked, (outcome_respelled (by decide) (by decide) (by decide)
    (by decide +kernel) hspaced hmarked).mpr (.inr (.inl Iff.rfl))⟩

/-- The hyphen range `1.2.0 - 2.0.0`, with a `v` before its first version or without one. -/
def hyphened (marked : Bool) : Spelling :=
  .span [] ⟨marked, "1.2.0".toList⟩ [' '] [' '] ⟨false, "2.0.0".toList⟩ []

/-- A `v` at an end of a hyphen range: the package is no longer upgraded but left alone with a
note. -/
theorem hyphen_mark_noted :
    (∀ marked, (hyphened marked).Sound) ∧
      (hyphened false).content = (hyphened true).content ∧
      "1.2.0 - 2.0.0" = String.ofList (hyphened false).text ∧
      "v1.2.0 - 2.0.0" = String.ofList (hyphened true).text ∧
      ((ofManifest (declaring "1.2.0 - 2.0.0")).get? "@tarojs/taro").map Change.outcome =
        some (.upgrade, false) ∧
      ((ofManifest (declaring "v1.2.0 - 2.0.0")).get? "@tarojs/taro").map Change.outcome =
        some (.noOp, true) := by
  decide +kernel

end DependencyPlan

end Codemod

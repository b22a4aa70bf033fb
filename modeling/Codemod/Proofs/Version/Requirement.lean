import Codemod.Proofs.Version.Matching
import Mathlib.Data.List.TakeWhile
import Mathlib.Data.Option.Basic

/-!
# Codemod.Proofs.Version.Requirement

What reading a requirement comes to.

* `comparator?_eq_some`: the parts that a comparator is read from, one after the other.
* `sound_of_parse?`: every comparator that is read is sound.
* `Requirement.Passes`: what is read leaves a rest of the text and passes over no comma. So the
  commas of a text are where its comparators end (`comparators?_append`).
-/

namespace Codemod

namespace Requirement

variable {text rest : Text}

/-! ## The parts of a comparator -/

/-- Numbers are read first, and then, after a full version, the tag and the build metadata. -/
theorem comparator?_eq_some {c : Comparator} (h : comparator? text = some (c, rest)) :
    ∃ text₁ minor text₂ patch text₃,
      number? (skipSpaces (operator text).2) = some (c.major, text₁) ∧
      part? text₁ = some (minor, text₂) ∧ part? text₂ = some (patch, text₃) ∧
      (minor = .wildcard → patch.value? = none) ∧
      c.minor = minor.value? ∧ c.patch = patch.value? ∧
      ((c.patch = none ∧ c.pre = [] ∧ rest = skipSpaces text₃) ∨
        ∃ text₄ text₅, c.patch ≠ none ∧ pre? text₃ = some (c.pre, text₄) ∧
          skipBuild? text₄ = some text₅ ∧ rest = skipSpaces text₅) := by
  simp only [comparator?, Option.bind_eq_bind, Option.bind_eq_some_iff, Option.pure_def,
    Prod.exists] at h
  obtain ⟨major, text₁, hmajor, minor, text₂, hminor, patch, text₃, hpatch, _, hwild, h⟩ := h
  have hwild : minor = .wildcard → patch.value? = none := by
    rintro rfl
    simpa [Option.guard_eq_some'] using hwild
  cases hvalue : patch.value? with
  | none =>
    simp only [hvalue, Option.isSome_none, Bool.false_eq_true, if_false, Option.bind_some,
      Option.some.injEq, Prod.mk.injEq] at h
    obtain ⟨rfl, rfl⟩ := h
    exact ⟨text₁, minor, text₂, patch, text₃, hmajor, hminor, hpatch, hwild, rfl, hvalue.symm,
      .inl ⟨rfl, rfl, rfl⟩⟩
  | some n =>
    simp only [hvalue, Option.isSome_some, if_true, Option.bind_eq_some_iff, Option.some.injEq,
      Prod.mk.injEq, Prod.exists] at h
    obtain ⟨pre, text₄, hpre, text₅, hbuild, rfl, rfl⟩ := h
    exact ⟨text₁, minor, text₂, patch, text₃, hmajor, hminor, hpatch, hwild, rfl, hvalue.symm,
      .inr ⟨text₄, text₅, Option.some_ne_none n, hpre, hbuild, rfl⟩⟩

theorem number?_eq_some {n : Nat} (h : number? text = some (n, rest)) :
    n < wordLimit ∧ rest = text.dropWhile Char.isDigit := by
  simp only [number?, Option.bind_eq_bind, Option.bind_eq_some_iff, Option.pure_def,
    Option.some.injEq, Prod.mk.injEq, Option.guard_eq_some'] at h
  obtain ⟨_, -, _, hlt, rfl, rfl⟩ := h
  exact ⟨hlt, rfl⟩

/-- A part of a version is behind its point, or it is missing and nothing is read. -/
theorem part?_eq_some {part : Part} (h : part? text = some (part, rest)) :
    (part = .missing ∧ rest = text ∧ text.head? ≠ some '.') ∨ ∃ cs, text = '.' :: cs ∧
      ((part = .wildcard ∧ wildcard? cs = some rest) ∨
        ∃ n, part = .number n ∧ number? cs = some (n, rest)) := by
  unfold part? at h
  split at h
  · next cs =>
    refine .inr ⟨cs, rfl, ?_⟩
    cases hwild : wildcard? cs with
    | some wild =>
      simp only [hwild, Option.some.injEq, Prod.mk.injEq] at h
      obtain ⟨rfl, rfl⟩ := h
      exact .inl ⟨rfl, rfl⟩
    | none =>
      simp only [hwild, Option.map_eq_some_iff, Prod.mk.injEq, Prod.exists] at h
      obtain ⟨n, _, hn, rfl, rfl⟩ := h
      exact .inr ⟨n, rfl, hn⟩
  · next hdot =>
    cases h
    refine .inl ⟨rfl, rfl, fun hhead => ?_⟩
    obtain ⟨cs, rfl⟩ := List.head?_eq_some_iff.mp hhead
    exact hdot cs rfl

theorem lt_of_part? {part : Part} (h : part? text = some (part, rest)) :
    ∀ n ∈ part.value?, n < wordLimit := by
  intro n hn
  rcases part?_eq_some h with ⟨rfl, -⟩ | ⟨cs, -, ⟨rfl, -⟩ | ⟨m, rfl, hm⟩⟩
  · cases hn
  · cases hn
  · cases hn
    exact (number?_eq_some hm).1

theorem sound_of_comparator? {c : Comparator} (h : comparator? text = some (c, rest)) :
    c.Sound := by
  obtain ⟨text₁, minor, text₂, patch, text₃, hmajor, hminor, hpatch, hwild, hm, hp, htag⟩ :=
    comparator?_eq_some h
  have hmissing : c.minor = none → c.patch = none := by
    intro hnone
    rw [hm] at hnone
    rw [hp]
    rcases part?_eq_some hminor with ⟨rfl, rfl, hhead⟩ | ⟨cs, -, ⟨rfl, -⟩ | ⟨n, rfl, -⟩⟩
    · -- without a point there is no patch number, either
      rcases part?_eq_some hpatch with ⟨rfl, -⟩ | ⟨cs, rfl, -⟩
      · rfl
      · exact absurd rfl hhead
    · exact hwild rfl
    · cases hnone
  refine ⟨hmissing, fun hnone => ?_, (number?_eq_some hmajor).1, hm ▸ lt_of_part? hminor,
    hp ▸ lt_of_part? hpatch⟩
  rcases htag with ⟨-, hpre, -⟩ | ⟨text₄, text₅, hsome, -⟩
  · exact hpre
  · exact absurd hnone hsome

theorem sound_of_comparators? {limit : Nat} {cs : List Comparator}
    (h : comparators? limit text = some cs) : ∀ c ∈ cs, c.Sound := by
  induction limit generalizing text cs with
  | zero => cases h
  | succ limit ih =>
    simp only [comparators?, Option.bind_eq_bind, Option.bind_eq_some_iff, Prod.exists] at h
    obtain ⟨c, rest, hc, h⟩ := h
    split at h
    · cases h
      exact List.forall_mem_singleton.mpr (sound_of_comparator? hc)
    · obtain ⟨ds, hds, h⟩ := Option.bind_eq_some_iff.mp h
      cases h
      exact List.forall_mem_cons.mpr ⟨sound_of_comparator? hc, ih hds⟩
    · cases h

theorem sound_of_parse? {r : Requirement} (h : parse? text = some r) :
    ∀ c ∈ r.comparators, c.Sound := by
  simp only [parse?] at h
  split at h
  · split at h
    · cases h
      nofun
    · cases h
  · obtain ⟨cs, hcs, rfl⟩ := Option.map_eq_some_iff.mp h
    exact sound_of_comparators? hcs

/-! ## Commas -/

/-- The rest is what is left of the text behind some characters, none of them a comma. -/
def Passes (text rest : Text) : Prop :=
  ∃ used, text = used ++ rest ∧ ',' ∉ used

theorem Passes.refl (text : Text) : Passes text text :=
  ⟨[], rfl, List.not_mem_nil⟩

theorem Passes.trans {middle : Text} (h : Passes text middle) (h' : Passes middle rest) :
    Passes text rest := by
  obtain ⟨used, rfl, hused⟩ := h
  obtain ⟨used', rfl, hused'⟩ := h'
  exact ⟨used ++ used', by rw [List.append_assoc], by simp [hused, hused']⟩

theorem passes_cons {c : Char} (hc : c ≠ ',') (text : Text) : Passes (c :: text) text :=
  ⟨[c], rfl, by simpa using hc.symm⟩

theorem passes_dropWhile {p : Char → Bool} (hp : p ',' = false) (text : Text) :
    Passes text (text.dropWhile p) := by
  refine ⟨text.takeWhile p, List.takeWhile_append_dropWhile.symm, fun hmem => ?_⟩
  rw [List.mem_takeWhile_imp hmem] at hp
  cases hp

theorem passes_skipSpaces (text : Text) : Passes text (skipSpaces text) :=
  passes_dropWhile rfl text

theorem passes_operator (text : Text) : Passes text (operator text).2 := by
  unfold operator
  split
  · exact (passes_cons (by decide) _).trans (passes_cons (by decide) _)
  · exact (passes_cons (by decide) _).trans (passes_cons (by decide) _)
  · exact passes_cons (by decide) _
  · exact passes_cons (by decide) _
  · exact passes_cons (by decide) _
  · exact passes_cons (by decide) _
  · exact passes_cons (by decide) _
  · exact Passes.refl _

theorem passes_number? {n : Nat} (h : number? text = some (n, rest)) : Passes text rest := by
  rw [(number?_eq_some h).2]
  exact passes_dropWhile rfl text

theorem passes_wildcard? (h : wildcard? text = some rest) : Passes text rest := by
  unfold wildcard? at h
  split at h <;> cases h
  all_goals exact passes_cons (by decide) _

theorem passes_part? {part : Part} (h : part? text = some (part, rest)) : Passes text rest := by
  rcases part?_eq_some h with ⟨-, rfl, -⟩ | ⟨cs, rfl, ⟨-, hwild⟩ | ⟨n, -, hn⟩⟩
  · exact Passes.refl _
  · exact (passes_cons (by decide) cs).trans (passes_wildcard? hwild)
  · exact (passes_cons (by decide) cs).trans (passes_number? hn)

theorem passes_tag (text : Text) : Passes text (tag text).2 :=
  passes_dropWhile rfl text

theorem passes_pre? {pre : List PrePart} (h : pre? text = some (pre, rest)) :
    Passes text rest := by
  unfold pre? at h
  split at h
  · next cs =>
    simp only [Option.bind_eq_bind, Option.bind_eq_some_iff, Option.pure_def, Option.some.injEq,
      Prod.mk.injEq] at h
    obtain ⟨_, -, -, rfl⟩ := h
    exact (passes_cons (by decide) cs).trans (passes_tag cs)
  · cases h
    exact Passes.refl _

theorem passes_skipBuild? (h : skipBuild? text = some rest) : Passes text rest := by
  unfold skipBuild? at h
  split at h
  · next cs =>
    simp only [Option.bind_eq_bind, Option.bind_eq_some_iff, Option.pure_def,
      Option.some.injEq] at h
    obtain ⟨_, -, rfl⟩ := h
    exact (passes_cons (by decide) cs).trans (passes_tag cs)
  · cases h
    exact Passes.refl _

/-- No comma is passed over by reading a comparator. -/
theorem passes_comparator? {c : Comparator} (h : comparator? text = some (c, rest)) :
    Passes text rest := by
  obtain ⟨text₁, minor, text₂, patch, text₃, hmajor, hminor, hpatch, -, -, -, htag⟩ :=
    comparator?_eq_some h
  have hnumbers : Passes text text₃ :=
    (passes_operator text).trans <| (passes_skipSpaces _).trans <| (passes_number? hmajor).trans <|
      (passes_part? hminor).trans (passes_part? hpatch)
  rcases htag with ⟨-, -, rfl⟩ | ⟨text₄, text₅, -, hpre, hbuild, rfl⟩
  · exact hnumbers.trans (passes_skipSpaces _)
  · exact hnumbers.trans <| (passes_pre? hpre).trans <| (passes_skipBuild? hbuild).trans
      (passes_skipSpaces _)

/-- What stands behind the first comma has to be read as comparators, too. -/
theorem comparators?_append {limit : Nat} {front back : Text} (hfront : ',' ∉ front)
    (h : comparators? limit (skipSpaces back) = none) :
    comparators? (limit + 1) (front ++ ',' :: back) = none := by
  rw [Option.eq_none_iff_forall_ne_some]
  intro cs hcs
  simp only [comparators?, Option.bind_eq_bind, Option.bind_eq_some_iff, Prod.exists] at hcs
  obtain ⟨c, rest, hc, hcs⟩ := hcs
  obtain ⟨used, heq, hused⟩ := passes_comparator? hc
  split at hcs
  · -- the comma would have been passed over
    rw [List.append_nil] at heq
    exact hused (heq ▸ List.mem_append_right front List.mem_cons_self)
  · next rest =>
    have hrest : rest = back := by
      rcases List.append_eq_append_iff.mp heq with ⟨more, rfl, hmore⟩ | ⟨more, rfl, hmore⟩
      · cases more with
        | nil => exact (List.cons.inj hmore).2.symm
        | cons d more => exact absurd ((List.cons.inj hmore).1 ▸ by simp) hused
      · cases more with
        | nil => exact (List.cons.inj hmore).2
        | cons d more => exact absurd ((List.cons.inj hmore).1 ▸ by simp) hfront
    rw [hrest, h] at hcs
    cases hcs
  · cases hcs

end Requirement

end Codemod

import Codemod.Proofs.Path

/-!
# Codemod.Proofs.Path.Order

The order of paths: strict, and total as far as paths are told apart by their components
(`lt_or_lt_of_same_eq_false`).
-/

namespace Codemod

namespace Path

namespace Component

theorem lt_iff {a b : Component} :
    a.lt b = true ↔ a.rank < b.rank ∨ ∃ x y, a = name x ∧ b = name y ∧ x < y := by
  cases a <;> cases b <;> simp [lt, rank]

theorem lt_irrefl (a : Component) : a.lt a = false := by
  cases a with
  | name x => exact decide_eq_false (String.lt_irrefl x)
  | root | current | parent => rfl

theorem lt_trans {a b c : Component} (h : a.lt b = true) (h' : b.lt c = true) :
    a.lt c = true := by
  rw [lt_iff] at h h' ⊢
  rcases h with h | ⟨x, y, rfl, rfl, hxy⟩
  · rcases h' with h' | ⟨y, z, rfl, rfl, -⟩
    · exact .inl (Nat.lt_trans h h')
    · exact .inl h
  · rcases h' with h' | ⟨_, z, hy, rfl, hyz⟩
    · exact .inl h'
    · cases hy
      exact .inr ⟨x, z, rfl, rfl, String.lt_trans hxy hyz⟩

theorem lt_or_eq_or_lt (a b : Component) : a.lt b = true ∨ a = b ∨ b.lt a = true := by
  rcases Nat.lt_trichotomy a.rank b.rank with h | h | h
  · exact .inl (lt_iff.mpr (.inl h))
  · have hkind : a = b ∨ ∃ x y, a = name x ∧ b = name y := by
      cases a <;> cases b <;> simp [rank] at h ⊢
    rcases hkind with rfl | ⟨x, y, rfl, rfl⟩
    · exact .inr (.inl rfl)
    · by_cases hxy : x < y
      · exact .inl (lt_iff.mpr (.inr ⟨x, y, rfl, rfl, hxy⟩))
      · by_cases hyx : y < x
        · exact .inr (.inr (lt_iff.mpr (.inr ⟨y, x, rfl, rfl, hyx⟩)))
        · rw [String.not_lt] at hxy hyx
          exact .inr (.inl (congrArg name (String.le_antisymm hyx hxy)))
  · exact .inr (.inr (lt_iff.mpr (.inl h)))

end Component

theorem componentsLt_irrefl (as : List Component) : componentsLt as as = false := by
  induction as with
  | nil => rfl
  | cons a as ih => simp [componentsLt, Component.lt_irrefl, ih]

theorem componentsLt_trans {as bs cs : List Component} (h : componentsLt as bs = true)
    (h' : componentsLt bs cs = true) : componentsLt as cs = true := by
  induction as generalizing bs cs with
  | nil =>
    cases bs with
    | nil => cases h
    | cons b bs =>
      cases cs with
      | nil => cases h'
      | cons c cs => rfl
  | cons a as ih =>
    cases bs with
    | nil => cases h
    | cons b bs =>
      cases cs with
      | nil => cases h'
      | cons c cs =>
        simp only [componentsLt, Bool.or_eq_true, Bool.and_eq_true, beq_iff_eq] at h h' ⊢
        rcases h with h | ⟨rfl, h⟩
        · rcases h' with h' | ⟨rfl, -⟩
          · exact .inl (Component.lt_trans h h')
          · exact .inl h
        · rcases h' with h' | ⟨rfl, h'⟩
          · exact .inl h'
          · exact .inr ⟨rfl, ih h h'⟩

theorem componentsLt_or_eq_or_lt (as bs : List Component) :
    componentsLt as bs = true ∨ as = bs ∨ componentsLt bs as = true := by
  induction as generalizing bs with
  | nil =>
    cases bs with
    | nil => exact .inr (.inl rfl)
    | cons b bs => exact .inl rfl
  | cons a as ih =>
    cases bs with
    | nil => exact .inr (.inr rfl)
    | cons b bs =>
      simp only [componentsLt, Bool.or_eq_true, Bool.and_eq_true, beq_iff_eq]
      rcases Component.lt_or_eq_or_lt a b with h | rfl | h
      · exact .inl (.inl h)
      · rcases ih bs with h | rfl | h
        · exact .inl (.inr ⟨rfl, h⟩)
        · exact .inr (.inl rfl)
        · exact .inr (.inr (.inr ⟨rfl, h⟩))
      · exact .inr (.inr (.inl h))

theorem lt_trans {p q r : Path} (h : p.lt q = true) (h' : q.lt r = true) : p.lt r = true :=
  componentsLt_trans h h'

theorem lt_asymm {p q : Path} (h : p.lt q = true) : q.lt p = false := by
  rw [← Bool.not_eq_true]
  intro h'
  have hself : p.lt p = true := lt_trans h h'
  rw [lt, componentsLt_irrefl] at hself
  cases hself

theorem lt_or_lt_of_same_eq_false {p q : Path} (h : p.same q = false) :
    p.lt q = true ∨ q.lt p = true := by
  rcases componentsLt_or_eq_or_lt p.components q.components with hlt | heq | hlt
  · exact .inl hlt
  · rw [same, heq, beq_self_eq_true] at h
    cases h
  · exact .inr hlt

end Path

end Codemod

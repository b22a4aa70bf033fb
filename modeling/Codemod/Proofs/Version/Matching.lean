import Codemod.Proofs.Version.Order

/-!
# Codemod.Proofs.Version.Matching

Which versions a requirement admits.

`Requirement.admits` follows the rules of semantic versions: each operator has a test of its own, a
number that is missing stands for all numbers, and a version with a tag must be asked for by a
comparator with the same numbers and a tag. A comparator admits the releases of an interval
(`Comparator.admits_iff`): they begin at its `floor` and end before its `ceiling?`, if it has one.
-/

namespace Codemod

namespace Comparator

/-- What is read as a comparator: numbers are left out from the right, a tag follows a full
version, and the numbers have 64 bits. -/
structure Sound (c : Comparator) : Prop where
  patch_eq_none : c.minor = none → c.patch = none
  pre_eq_nil : c.patch = none → c.pre = []
  major_lt : c.major < wordLimit
  minor_lt : ∀ n ∈ c.minor, n < wordLimit
  patch_lt : ∀ n ∈ c.patch, n < wordLimit

/-- The version has the numbers and the tag that the comparator gives. -/
def names (c : Comparator) (v : Version) : Bool :=
  v.major == c.major && c.minor.all (v.minor == ·) && c.patch.all (v.patch == ·) && v.pre == c.pre

/-- The version is greater than all that the comparator names. -/
def precedes (c : Comparator) (v : Version) : Bool :=
  decide (c.major < v.major) || (v.major == c.major && c.minor.any fun minor =>
    decide (minor < v.minor) || (v.minor == minor && c.patch.any fun patch =>
      decide (patch < v.patch) || (v.patch == patch && Version.preLt c.pre v.pre)))

/-- The version is less than all that the comparator names. -/
def follows (c : Comparator) (v : Version) : Bool :=
  decide (v.major < c.major) || (v.major == c.major && c.minor.any fun minor =>
    decide (v.minor < minor) || (v.minor == minor && c.patch.any fun patch =>
      decide (v.patch < patch) || (v.patch == patch && Version.preLt v.pre c.pre)))

/-- The version is at least the one named, and only its patch number may be another one. -/
def isNear (c : Comparator) (v : Version) : Bool :=
  v.major == c.major && c.minor.all (v.minor == ·) &&
    (c.patch.any (fun patch => decide (patch < v.patch)) ||
      (c.patch.all (v.patch == ·) && !Version.preLt v.pre c.pre))

/-- The version is at least the one named, and the first number that is not zero is the same. -/
def isCompatible (c : Comparator) (v : Version) : Bool :=
  v.major == c.major &&
    match c.minor, c.patch with
    | none, _ => true
    | some minor, none =>
      if 0 < c.major then decide (minor ≤ v.minor) else v.minor == minor
    | some minor, some patch =>
      if 0 < c.major then
        decide (minor < v.minor) || (v.minor == minor &&
          (decide (patch < v.patch) || (v.patch == patch && !Version.preLt v.pre c.pre)))
      else if 0 < minor then
        v.minor == minor &&
          (decide (patch < v.patch) || (v.patch == patch && !Version.preLt v.pre c.pre))
      else v.minor == minor && v.patch == patch && !Version.preLt v.pre c.pre

def admits (c : Comparator) (v : Version) : Bool :=
  match c.op with
  | .exact | .wildcard => c.names v
  | .greater => c.precedes v
  | .greaterEq => c.names v || c.precedes v
  | .less => c.follows v
  | .lessEq => c.names v || c.follows v
  | .tilde => c.isNear v
  | .caret => c.isCompatible v

/-- The comparator has a tag, and the version has its numbers. -/
def asksForTag (c : Comparator) (v : Version) : Bool :=
  c.major == v.major && c.minor == some v.minor && c.patch == some v.patch && !c.pre.isEmpty

/-- The first release that the comparator names, missing numbers being zero. -/
def start (c : Comparator) : Version :=
  ⟨c.major, c.minor.getD 0, c.patch.getD 0, []⟩

/-- The first release after all that the comparator names. -/
def next (c : Comparator) : Version :=
  match c.minor, c.patch with
  | none, _ => ⟨c.major + 1, 0, 0, []⟩
  | some minor, none => ⟨c.major, minor + 1, 0, []⟩
  | some minor, some patch =>
    ⟨c.major, minor, if c.pre = [] then patch + 1 else patch, []⟩

/-- The first release with a greater minor number, or major number where that is all there is. -/
def nextMinor (c : Comparator) : Version :=
  match c.minor with
  | none => ⟨c.major + 1, 0, 0, []⟩
  | some minor => ⟨c.major, minor + 1, 0, []⟩

/-- The first release in which the leftmost number that is not zero is a greater one. -/
def nextBreaking (c : Comparator) : Version :=
  if 0 < c.major then ⟨c.major + 1, 0, 0, []⟩
  else match c.minor, c.patch with
    | none, _ => ⟨c.major + 1, 0, 0, []⟩
    | some minor, none => ⟨c.major, minor + 1, 0, []⟩
    | some minor, some patch =>
      if 0 < minor then ⟨c.major, minor + 1, 0, []⟩ else ⟨c.major, minor, patch + 1, []⟩

/-- The least release that the comparator admits, unless it admits none. -/
def floor (c : Comparator) : Version :=
  match c.op with
  | .less | .lessEq => .first
  | .greater => c.next
  | .exact | .wildcard | .greaterEq | .tilde | .caret => c.start

/-- The first release that is too great for the comparator, if there is one. -/
def ceiling? (c : Comparator) : Option Version :=
  match c.op with
  | .greater | .greaterEq => none
  | .less => some c.start
  | .exact | .wildcard | .lessEq => some c.next
  | .tilde => some c.nextMinor
  | .caret => some c.nextBreaking

variable {c : Comparator} {v : Version}

/-- A comparator gives one number, two of them, or a full version. -/
theorem Sound.cases (hc : c.Sound) :
    (∃ op major, c = ⟨op, major, none, none, []⟩) ∨
      (∃ op major minor, c = ⟨op, major, some minor, none, []⟩) ∨
        ∃ op major minor patch pre, c = ⟨op, major, some minor, some patch, pre⟩ := by
  obtain ⟨op, major, minor, patch, pre⟩ := c
  cases minor with
  | none =>
    have hpatch : patch = none := hc.patch_eq_none rfl
    have hpre : pre = [] := hc.pre_eq_nil hpatch
    exact .inl ⟨op, major, by rw [hpatch, hpre]⟩
  | some minor =>
    cases patch with
    | none =>
      have hpre : pre = [] := hc.pre_eq_nil rfl
      exact .inr (.inl ⟨op, major, minor, by rw [hpre]⟩)
    | some patch => exact .inr (.inr ⟨op, major, minor, patch, pre, rfl⟩)

theorem isRelease_start (c : Comparator) : c.start.IsRelease :=
  rfl

theorem start_le_next (hc : c.Sound) : c.start.point ≤ c.next.point := by
  rw [Version.point_le_iff]
  rcases hc.cases with ⟨op, a, rfl⟩ | ⟨op, a, b, rfl⟩ | ⟨op, a, b, p, pre, rfl⟩
  · simp [start, next]
  · simp [start, next]
  · by_cases hpre : pre = [] <;> simp [start, next, hpre]

/-! ## The releases that pass each test -/

section Release

variable (hc : c.Sound) (hv : v.pre = [])

include hc hv

theorem names_iff : c.names v = true ↔ c.start.point ≤ v.point ∧ v.point < c.next.point := by
  rw [Version.point_le_iff, Version.point_lt_iff]
  rcases hc.cases with ⟨op, a, rfl⟩ | ⟨op, a, b, rfl⟩ | ⟨op, a, b, p, pre, rfl⟩
  · simp [names, start, next, hv]
    omega
  · simp [names, start, next, hv]
    omega
  · by_cases hpre : pre = []
    · simp [names, start, next, hv, hpre]
      omega
    · simp [names, start, next, hv, hpre]
      omega

theorem precedes_iff : c.precedes v = true ↔ c.next.point ≤ v.point := by
  rw [Version.point_le_iff]
  rcases hc.cases with ⟨op, a, rfl⟩ | ⟨op, a, b, rfl⟩ | ⟨op, a, b, p, pre, rfl⟩
  · simp [precedes, next]
    omega
  · simp [precedes, next]
    omega
  · by_cases hpre : pre = []
    · simp [precedes, next, hv, hpre, Version.preLt_nil]
      omega
    · simp [precedes, next, hv, hpre, Version.preLt_nil_right]
      omega

theorem follows_iff : c.follows v = true ↔ v.point < c.start.point := by
  rw [Version.point_lt_iff]
  rcases hc.cases with ⟨op, a, rfl⟩ | ⟨op, a, b, rfl⟩ | ⟨op, a, b, p, pre, rfl⟩
  · simp [follows, start]
  · simp [follows, start]
  · simp [follows, start, hv, Version.preLt_nil]

theorem isNear_iff :
    c.isNear v = true ↔ c.start.point ≤ v.point ∧ v.point < c.nextMinor.point := by
  rw [Version.point_le_iff, Version.point_lt_iff]
  rcases hc.cases with ⟨op, a, rfl⟩ | ⟨op, a, b, rfl⟩ | ⟨op, a, b, p, pre, rfl⟩
  · simp [isNear, start, nextMinor, hv, Version.preLt_nil]
    omega
  · simp [isNear, start, nextMinor, hv, Version.preLt_nil]
    omega
  · simp [isNear, start, nextMinor, hv, Version.preLt_nil]
    omega

theorem isCompatible_iff :
    c.isCompatible v = true ↔ c.start.point ≤ v.point ∧ v.point < c.nextBreaking.point := by
  rw [Version.point_le_iff, Version.point_lt_iff]
  rcases hc.cases with ⟨op, a, rfl⟩ | ⟨op, a, b, rfl⟩ | ⟨op, a, b, p, pre, rfl⟩
  · simp [isCompatible, start, nextBreaking]
    omega
  · by_cases ha : 0 < a
    · simp [isCompatible, start, nextBreaking, ha]
      omega
    · simp [isCompatible, start, nextBreaking, ha]
      omega
  · by_cases ha : 0 < a
    · simp [isCompatible, start, nextBreaking, hv, Version.preLt_nil, ha]
      omega
    · by_cases hb : 0 < b
      · simp [isCompatible, start, nextBreaking, hv, Version.preLt_nil, ha, hb]
        omega
      · simp [isCompatible, start, nextBreaking, hv, Version.preLt_nil, ha, hb]
        omega

end Release

/-- A comparator admits the releases from its floor up to its ceiling. -/
theorem admits_iff (hc : c.Sound) (hv : v.IsRelease) : c.admits v = true ↔
    c.floor.point ≤ v.point ∧ ∀ w ∈ c.ceiling?, v.point < w.point := by
  have hle := start_le_next hc
  cases hop : c.op with
  | exact | wildcard =>
    simp only [admits, floor, ceiling?, hop, names_iff hc hv, Option.mem_some, forall_eq']
  | greater =>
    simp only [admits, floor, ceiling?, hop, precedes_iff hc hv]
    simp
  | greaterEq =>
    simp only [admits, floor, ceiling?, hop, Bool.or_eq_true, names_iff hc hv, precedes_iff hc hv]
    constructor
    · rintro (⟨hstart, -⟩ | hnext)
      · exact ⟨hstart, nofun⟩
      · exact ⟨le_trans hle hnext, nofun⟩
    · rintro ⟨hstart, -⟩
      exact (lt_or_ge v.point c.next.point).imp (⟨hstart, ·⟩) id
  | less =>
    simp only [admits, floor, ceiling?, hop, follows_iff hc hv, Option.mem_some, forall_eq']
    exact (and_iff_right (Version.first_le v)).symm
  | lessEq =>
    simp only [admits, floor, ceiling?, hop, Bool.or_eq_true, names_iff hc hv, follows_iff hc hv,
      Option.mem_some, forall_eq']
    constructor
    · rintro (⟨-, hnext⟩ | hstart)
      · exact ⟨Version.first_le v, hnext⟩
      · exact ⟨Version.first_le v, lt_of_lt_of_le hstart hle⟩
    · rintro ⟨-, hnext⟩
      exact (le_or_gt c.start.point v.point).imp (⟨·, hnext⟩) id
  | tilde =>
    simp only [admits, floor, ceiling?, hop, isNear_iff hc hv, Option.mem_some, forall_eq']
  | caret =>
    simp only [admits, floor, ceiling?, hop, isCompatible_iff hc hv, Option.mem_some, forall_eq']

/-! ## Lower bounds -/

/-- A lower bound has the numbers with which the comparator starts. -/
theorem lowerBound?_eq_some (h : c.lowerBound? = some v) :
    v.point = c.start.point ∧ v.pre = c.pre ∧ c.op ≠ .less ∧ c.op ≠ .lessEq := by
  cases hop : c.op <;> simp only [lowerBound?, hop] at h <;> cases h <;>
    exact ⟨rfl, rfl, nofun, nofun⟩

theorem lowerBound?_eq_none (h : c.lowerBound? = none) : c.op = .less ∨ c.op = .lessEq := by
  cases hop : c.op with
  | less => exact .inl rfl
  | lessEq => exact .inr rfl
  | exact | greater | greaterEq | tilde | caret | wildcard => simp [lowerBound?, hop] at h

/-- No release below the lower bound is admitted. -/
theorem point_le_floor (hc : c.Sound) {w : Version} (h : c.lowerBound? = some w) :
    w.point ≤ c.floor.point := by
  obtain ⟨hpoint, -, hless, hlessEq⟩ := lowerBound?_eq_some h
  rw [hpoint]
  cases hop : c.op with
  | less => exact absurd hop hless
  | lessEq => exact absurd hop hlessEq
  | greater =>
    simp only [floor, hop]
    exact start_le_next hc
  | exact | wildcard | greaterEq | tilde | caret =>
    simp only [floor, hop]
    exact le_refl _

end Comparator

namespace Requirement

/-- All comparators admit the version, and if it has a tag, one of them asks for it. -/
def admits (r : Requirement) (v : Version) : Bool :=
  r.comparators.all (·.admits v) && (v.pre.isEmpty || r.comparators.any (·.asksForTag v))

theorem admits_of_isRelease {r : Requirement} {v : Version} (hv : v.IsRelease) :
    r.admits v = true ↔ ∀ c ∈ r.comparators, c.admits v = true := by
  rw [admits, hv, List.isEmpty_nil, Bool.true_or, Bool.and_true, List.all_eq_true]

end Requirement

end Codemod

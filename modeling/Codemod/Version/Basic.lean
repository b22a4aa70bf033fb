import Codemod.Text.Basic

/-!
# Codemod.Version.Basic

Semantic versions and their order.

A version with a pre-release tag comes before the release it leads to. Tags are compared part by
part: numbers as numbers and before words, words by their characters, and of two tags where one
continues the other the shorter comes first.
-/

namespace Codemod

/-- One part of a pre-release tag. -/
inductive PrePart where
  | number (n : Nat)
  | word (s : String)
  deriving DecidableEq, Repr, Inhabited

namespace PrePart

def lt : PrePart → PrePart → Bool
  | number m, number n => decide (m < n)
  | number _, word _ => true
  | word _, number _ => false
  | word a, word b => decide (a < b)

end PrePart

structure Version where
  major : Nat
  minor : Nat
  patch : Nat
  /-- The pre-release tag; a release has none. -/
  pre : List PrePart
  deriving DecidableEq, Repr, Inhabited

namespace Version

/-- The order of pre-release tags that have parts. -/
def partsLt : List PrePart → List PrePart → Bool
  | _, [] => false
  | [], _ :: _ => true
  | a :: as, b :: bs => a.lt b || (a == b && partsLt as bs)

def preLt (p q : List PrePart) : Bool :=
  match p, q with
  | [], _ => false
  | _ :: _, [] => true
  | a :: as, b :: bs => partsLt (a :: as) (b :: bs)

def lt (v w : Version) : Bool :=
  decide (v.major < w.major) || (v.major == w.major &&
    (decide (v.minor < w.minor) || (v.minor == w.minor &&
      (decide (v.patch < w.patch) || (v.patch == w.patch && preLt v.pre w.pre)))))

/-- Whether `v` is at least `w`. -/
def atLeast (v w : Version) : Bool :=
  !v.lt w

end Version

end Codemod

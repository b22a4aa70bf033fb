import Codemod.Proofs.Text.Edges
import Codemod.Proofs.Text.Splice
import Mathlib.Data.List.Nodup
import Mathlib.Data.List.Pairwise

/-!
# Codemod.Proofs.Text.Apart

When a list of edits is carried out as a whole.

* `Span.Apart`: of two spans one ends before the other begins. An insertion is apart from whatever
  it does not fall into.
* `Edit.Lossless`: every recorded edit is carried out. `lossless_iff`: that is so exactly when the
  edits are apart from each other.
-/

namespace Codemod

namespace Span

/-- One of two spans ends before the other begins. -/
def Apart (a b : Span) : Prop :=
  a.stop ≤ b.start ∨ b.stop ≤ a.start

instance (a b : Span) : Decidable (a.Apart b) :=
  inferInstanceAs (Decidable (_ ∨ _))

theorem Apart.symm {a b : Span} (h : a.Apart b) : b.Apart a :=
  Or.symm h

/-- Two insertions never meet. -/
theorem apart_insert (p q : Nat) : Apart ⟨p, p⟩ ⟨q, q⟩ :=
  Nat.le_total p q

/-- A span is part of another. -/
def Inside (a b : Span) : Prop :=
  b.start ≤ a.start ∧ a.stop ≤ b.stop

theorem Inside.refl (a : Span) : a.Inside a :=
  ⟨Nat.le_refl _, Nat.le_refl _⟩

theorem Inside.trans {a b c : Span} (h : a.Inside b) (h' : b.Inside c) : a.Inside c :=
  ⟨Nat.le_trans h'.1 h.1, Nat.le_trans h.2 h'.2⟩

theorem Apart.not_inside {a b : Span} (h : a.Apart b) (hlt : a.start < a.stop) :
    ¬ a.Inside b := by
  rintro ⟨hstart, hstop⟩
  unfold Apart at h
  omega

theorem Apart.mono {a b a' b' : Span} (h : a.Apart b) (ha : a'.Inside a) (hb : b'.Inside b) :
    a'.Apart b' :=
  h.imp (fun h => Nat.le_trans ha.2 (Nat.le_trans h hb.1))
    fun h => Nat.le_trans hb.2 (Nat.le_trans h ha.1)

end Span

namespace Edit

variable {source : Text} {edits : List Edit}

/-- The edits fit the source and every one of them is carried out: none is missing from those that
make up the result. -/
structure Lossless (source : Text) (edits : List Edit) : Prop where
  fits : ∀ e ∈ edits, e.Fits source
  kept : (kept source edits).Perm edits.zipIdx
  result : applyAll source edits = weave source 0 ((Edit.kept source edits).map (·.1))

theorem fits_of_boundary {e : Edit} (hle : e.span.start ≤ e.span.stop)
    (hstart : source.Boundary e.span.start) (hstop : source.Boundary e.span.stop) :
    e.Fits source :=
  ⟨hle, hstop.le_size, hstart, hstop⟩

theorem fits_of_insert {e : Edit} {q : Nat} (he : e.span = ⟨q, q⟩) (hq : source.Boundary q) :
    e.Fits source := by
  refine fits_of_boundary ?_ ?_ ?_ <;> rw [he]
  · exact hq
  · exact hq

/-- A recorded edit that is apart from all others is not dropped. -/
theorem mem_kept_of_apart (hfits : ∀ e ∈ edits, e.Fits source) {r : Recorded}
    (hr : r ∈ edits.zipIdx)
    (h : ∀ k ∈ edits.zipIdx, k ≠ r → k.1.span.Apart r.1.span) : r ∈ Edit.kept source edits := by
  obtain ⟨-, -, -, hmem, -, hdropped⟩ := applyAll_weaves_kept hfits
  by_contra hnot
  obtain ⟨hne, k, hk, hkr, hle, hlt⟩ := (hdropped r hr).mp hnot
  have hapart := h k (hmem k hk) fun heq => Precedes.irrefl r (heq ▸ hkr)
  have hspan := (hfits k.1 (List.fst_mem_of_mem_zipIdx (hmem k hk))).start_le_stop
  -- an edit that begins with `r` and is empty comes after it
  unfold Precedes Span.length at hkr
  unfold Span.Apart at hapart
  omega

theorem nodup_zipIdx (es : List Edit) : es.zipIdx.Nodup := by
  refine List.Nodup.of_map (·.2) ?_
  rw [List.zipIdx_map_snd]
  exact List.nodup_range' ..

theorem pairwise_zipIdx {R : Edit → Edit → Prop} {es : List Edit} :
    (es.zipIdx.Pairwise fun a b => R a.1 b.1) ↔ es.Pairwise R := by
  conv_rhs => rw [← List.zipIdx_map_fst 0 es]
  exact List.pairwise_map.symm

theorem lossless_iff (hfits : ∀ e ∈ edits, e.Fits source) :
    Lossless source edits ↔ edits.Pairwise fun a b => a.span.Apart b.span := by
  obtain ⟨-, hresult, -, hmem, hleft, -⟩ := applyAll_weaves_kept hfits
  rw [← pairwise_zipIdx]
  constructor
  · rintro ⟨-, hkept, -⟩
    exact hkept.pairwise (hleft.imp fun hab => .inl hab.1) fun hab => hab.symm
  · intro hapart
    refine ⟨hfits, ?_, hresult⟩
    have hnodup : (Edit.kept source edits).Nodup := by
      rw [Edit.kept, List.nodup_reverse]
      exact ((order_perm edits).nodup_iff.mpr (nodup_zipIdx edits)).sublist (keepFrom_sublist _ _)
    rw [List.perm_ext_iff_of_nodup hnodup (nodup_zipIdx edits)]
    refine fun r => ⟨hmem r, fun hr => mem_kept_of_apart hfits hr fun k hk hne => ?_⟩
    have : Std.Symm fun a b : Recorded => a.1.span.Apart b.1.span := ⟨fun _ _ hab => hab.symm⟩
    exact hapart.forall hk hr hne

/-- What an edit writes stands in the result. -/
theorem Lossless.exists_of_mem (h : Lossless source edits) {e : Edit} (he : e ∈ edits) :
    ∃ front back, applyAll source edits = front ++ (e.text ++ back) := by
  rw [← List.zipIdx_map_fst 0 edits] at he
  obtain ⟨r, hr, rfl⟩ := List.mem_map.mp he
  have hkept : r.1 ∈ (Edit.kept source edits).map (·.1) :=
    List.mem_map_of_mem (h.kept.mem_iff.mpr hr)
  obtain ⟨front, later, hweave⟩ := weave_of_mem source hkept 0
  exact ⟨front, weave source r.1.span.stop later, h.result.trans hweave⟩

end Edit

end Codemod

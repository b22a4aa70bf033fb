import Codemod.Proofs.Text.Splice

/-!
# Codemod.Proofs.Text.Reorder

Edits that are recorded in another order.

Unless two edits have the same span, their spans decide which one is applied first, and the order of
recording has no say in the result.

* `Edit.Reorders`: the same edits in another order, those of one span in the order they had.
* `Reorders.schedule_eq`: they are applied in the same order as before.
* `schedule_flatten_perm`: batches of edits may change places if no span occurs in two of them.
-/

namespace Codemod

namespace Edit

/-- `es'` has the edits of `es` in another order. Edits of one span are in the order they had. -/
def Reorders (es' es : List Edit) : Prop :=
  ∃ rs : List Recorded, rs.map (·.1) = es' ∧ rs.Perm es.zipIdx ∧
    rs.Pairwise fun a b => a.1.span = b.1.span → a.2 < b.2

/-- No span occurs in both lists. -/
def Independent (as bs : List Edit) : Prop :=
  ∀ a ∈ as, ∀ b ∈ bs, a.span ≠ b.span

instance (as bs : List Edit) : Decidable (Independent as bs) :=
  inferInstanceAs (Decidable (∀ a ∈ as, ∀ b ∈ bs, a.span ≠ b.span))

theorem Independent.symm {as bs : List Edit} (h : Independent as bs) : Independent bs as := by
  intro b hb a ha heq
  exact h a ha b hb heq.symm

theorem Tied.span_eq {a b : Recorded} (h : Tied a b) (ha : a.1.span.start ≤ a.1.span.stop)
    (hb : b.1.span.start ≤ b.1.span.stop) : a.1.span = b.1.span := by
  obtain ⟨⟨⟨start, stop⟩, text⟩, i⟩ := a
  obtain ⟨⟨⟨start', stop'⟩, text'⟩, j⟩ := b
  simp only [Tied, Span.length] at h ha hb
  simp only [Span.mk.injEq]
  omega

variable {source : Text} {es es' : List Edit}

theorem Reorders.schedule_eq (h : Reorders es' es)
    (hspan : ∀ e ∈ es, e.span.start ≤ e.span.stop) : schedule es' = schedule es := by
  obtain ⟨rs, rfl, hperm, hkeeps⟩ := h
  have hspan' : ∀ r ∈ rs, r.1.span.start ≤ r.1.span.stop := by
    intro r hr
    exact hspan r.1 (List.fst_mem_of_mem_zipIdx (hperm.mem_iff.mp hr))
  have hsorted : (rs.foldr placeRecorded []).Pairwise Precedes := by
    refine foldr_placeRecorded_pairwise (hkeeps.imp_of_mem ?_)
    intro a b ha hb hab htied
    exact hab (htied.span_eq (hspan' a ha) (hspan' b hb))
  have hsame : (rs.foldr placeRecorded []).Perm (order es) :=
    (foldr_placeRecorded_perm rs).trans (hperm.trans (order_perm es).symm)
  -- of two edits only one precedes the other, so there is one order at most
  have horder : rs.foldr placeRecorded [] = order es := by
    refine hsame.eq_of_pairwise ?_ hsorted (order_pairwise es)
    intro a b _ _ hab hba
    exact absurd hba hab.asymm
  rw [← map_foldr_placeRecorded, horder, map_order]

/-- Which edits are dropped does not depend on the places at which they were recorded. -/
theorem map_keepFrom_congr {rs rs' : List Recorded} (floor : Nat)
    (h : rs.map (·.1) = rs'.map (·.1)) :
    (keepFrom floor rs).map (·.1) = (keepFrom floor rs').map (·.1) := by
  induction rs generalizing rs' floor with
  | nil =>
    rw [List.map_nil, eq_comm, List.map_eq_nil_iff] at h
    rw [h]
  | cons r rs ih =>
    cases rs' with
    | nil => cases h
    | cons r' rs' =>
      obtain ⟨hr, hrs⟩ := List.cons.inj h
      simp only at hr
      rw [keepFrom, keepFrom, hr]
      split
      · exact ih floor hrs
      · rw [List.map_cons, List.map_cons, hr, ih _ hrs]

theorem map_kept_of_schedule_eq (h : schedule es' = schedule es) :
    (kept source es').map (·.1) = (kept source es).map (·.1) := by
  rw [← map_order, ← map_order] at h
  rw [kept, kept, List.map_reverse, List.map_reverse, map_keepFrom_congr source.size h]

section Batches

variable {as bs cs : List Edit}

theorem Independent.reorders (h : Independent as bs) :
    Reorders (bs ++ (as ++ cs)) (as ++ (bs ++ cs)) := by
  refine ⟨bs.zipIdx as.length ++ (as.zipIdx ++ cs.zipIdx (as.length + bs.length)), ?_, ?_, ?_⟩
  · simp only [List.map_append, List.zipIdx_map_fst]
  · rw [List.zipIdx_append, List.zipIdx_append, Nat.zero_add]
    exact List.perm_append_comm_assoc _ _ _
  · have hlast : ∀ n, n ≤ as.length + bs.length →
        ∀ r ∈ cs.zipIdx (as.length + bs.length), n ≤ r.2 := by
      intro n hn r hr
      exact Nat.le_trans hn (List.le_snd_of_mem_zipIdx hr)
    have hsorted (xs : List Edit) (n : Nat) :
        (xs.zipIdx n).Pairwise fun a b => a.1.span = b.1.span → a.2 < b.2 := by
      refine (zipIdx_pairwise xs n).imp ?_
      intro a b hab _
      exact hab
    have hbound (xs : List Edit) (n : Nat) : ∀ r ∈ xs.zipIdx n, r.2 < n + xs.length := by
      intro r hr
      exact List.snd_lt_add_of_mem_zipIdx hr
    refine List.pairwise_append.mpr ⟨hsorted bs _, List.pairwise_append.mpr
      ⟨hsorted as 0, hsorted cs _, ?_⟩, ?_⟩
    · intro a ha c hc _
      have := hbound as 0 a ha
      exact hlast (a.2 + 1) (by omega) c hc
    · intro b hb r hr heq
      rcases List.mem_append.mp hr with ha | hc
      · have hne := h r.1 (List.fst_mem_of_mem_zipIdx ha) b.1 (List.fst_mem_of_mem_zipIdx hb)
        exact absurd heq.symm hne
      · have := hbound bs as.length b hb
        exact hlast (b.2 + 1) (by omega) r hc

/-- Batches change places, by induction on the exchanges of neighbours. -/
theorem schedule_flatten_perm {batches batches' : List (List Edit)} (hperm : batches'.Perm batches)
    (hspan : ∀ e ∈ batches.flatten, e.span.start ≤ e.span.stop)
    (h : batches.Pairwise Independent) : schedule batches'.flatten = schedule batches.flatten := by
  induction hperm with
  | nil => rfl
  | @cons batch xs ys _ ih =>
    obtain ⟨-, hys⟩ := List.pairwise_cons.mp h
    have hspan' : ∀ e ∈ ys.flatten, e.span.start ≤ e.span.stop := by
      intro e he
      exact hspan e (List.mem_append_right batch he)
    rw [List.flatten_cons, List.flatten_cons, schedule, schedule, List.foldr_append,
      List.foldr_append]
    exact congrArg (fun done => batch.foldr place done) (ih hspan' hys)
  | swap as bs rest =>
    obtain ⟨has, -⟩ := List.pairwise_cons.mp h
    exact (has bs List.mem_cons_self).reorders.schedule_eq hspan
  | trans hxy hyz ihxy ihyz =>
    refine (ihxy ?_ ?_).trans (ihyz hspan h)
    · intro e he
      exact hspan e (hyz.flatten.mem_iff.mp he)
    · exact hyz.symm.pairwise h fun hab => hab.symm

end Batches

/-- Recording edits in another order that keeps those of one span in the order they had changes
neither which edits are carried out nor the text that comes out. So batches of edits may be recorded
in any order if no span occurs in two of them. -/
theorem applyAll_reordered (source : Text) (hspan : ∀ e ∈ es, e.span.start ≤ e.span.stop) :
    (∀ es', Reorders es' es → applyAll source es' = applyAll source es ∧
      (kept source es').map (·.1) = (kept source es).map (·.1)) ∧
    ∀ batches batches' : List (List Edit), batches.flatten = es → batches.Pairwise Independent →
      batches'.Perm batches → applyAll source batches'.flatten = applyAll source es := by
  constructor
  · intro es' h
    have hschedule := h.schedule_eq hspan
    exact ⟨congrArg (splice source.size source) hschedule, map_kept_of_schedule_eq hschedule⟩
  · rintro batches batches' rfl hind hperm
    exact congrArg (splice source.size source) (schedule_flatten_perm hperm hspan hind)

/-- Six edits, of which one gives way to the insertions inside it. The two insertions at 3 stay in
the order they had; the two batches that make up the list share no span. -/
theorem applyAll_reordered_overlapping :
    let source := "aébc".toList
    let first : List Edit :=
      [.replace ⟨0, 3⟩ ['x'], .insert 3 ['1'], .replace ⟨1, 4⟩ ['y'], .insert 3 ['2']]
    let second : List Edit := [.remove ⟨4, 5⟩, .insert 0 ['z']]
    let es := first ++ second
    let es' : List Edit := [.insert 3 ['1'], .insert 0 ['z'], .insert 3 ['2'],
      .replace ⟨1, 4⟩ ['y'], .remove ⟨4, 5⟩, .replace ⟨0, 3⟩ ['x']]
    (∀ e ∈ es, e.span.start ≤ e.span.stop) ∧ Reorders es' es ∧
      [first, second].Pairwise Independent ∧ applyAll source es = "zx12b".toList ∧
      applyAll source es' = applyAll source es ∧
      applyAll source [second, first].flatten = applyAll source es := by
  intro source first second es es'
  have hspan : ∀ e ∈ es, e.span.start ≤ e.span.stop := by decide
  have hre : Reorders es' es :=
    ⟨[(.insert 3 ['1'], 1), (.insert 0 ['z'], 5), (.insert 3 ['2'], 3), (.replace ⟨1, 4⟩ ['y'], 2),
      (.remove ⟨4, 5⟩, 4), (.replace ⟨0, 3⟩ ['x'], 0)], by decide, by decide, by decide⟩
  have hind : [first, second].Pairwise Independent := by decide
  obtain ⟨hall, hbatches⟩ := applyAll_reordered source hspan
  exact ⟨hspan, hre, hind, by decide, (hall es' hre).1,
    hbatches [first, second] [second, first] (by decide) hind (.swap first second [])⟩

end Edit

end Codemod

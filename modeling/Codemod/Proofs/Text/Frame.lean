import Codemod.Proofs.Text.Apart

/-!
# Codemod.Proofs.Text.Frame

What edits leave as it was.

* `applyAll_within`: edits between two places leave the text in front of them and behind them.
* `filter_sublist_applyAll`: characters of some kind are all still there, in order, if no edit takes
  one of them away from the text that it replaces.
-/

namespace Codemod

namespace Edit

variable {source : Text} {es : List Edit} {lo hi : Nat}

theorem weave_within (hlo : source.Boundary lo) (hhi : source.Boundary hi) (hle : lo ≤ hi)
    (hfits : ∀ e ∈ es, e.Fits source) (hp : es.Pairwise fun a b => a.span.stop ≤ b.span.start)
    (h : ∀ e ∈ es, lo ≤ e.span.start ∧ e.span.stop ≤ hi) :
    ∃ middle, weave source lo es = middle ++ source.after hi := by
  induction es generalizing lo with
  | nil => exact ⟨source.slice lo hi, (Text.slice_append_after hlo hhi hle).symm⟩
  | cons e es ih =>
    obtain ⟨he, hp'⟩ := List.pairwise_cons.mp hp
    have hfits' := List.forall_mem_cons.mp hfits
    have h' := List.forall_mem_cons.mp h
    obtain ⟨middle, hmiddle⟩ := ih hfits'.1.stop h'.1.2 hfits'.2 hp'
      fun x hx => ⟨he x hx, (h'.2 x hx).2⟩
    exact ⟨source.slice lo e.span.start ++ e.text ++ middle, by rw [weave, hmiddle,
      List.append_assoc _ middle]⟩

/-- Edits between two places leave what stands in front of them and behind them. -/
theorem applyAll_within (hlo : source.Boundary lo) (hhi : source.Boundary hi) (hle : lo ≤ hi)
    (hfits : ∀ e ∈ es, e.Fits source) (h : ∀ e ∈ es, lo ≤ e.span.start ∧ e.span.stop ≤ hi) :
    ∃ middle, applyAll source es = source.before lo ++ (middle ++ source.after hi) := by
  obtain ⟨-, hresult, -, hmem, hleft, -⟩ := applyAll_weaves_kept hfits
  have hsub (e : Edit) (he : e ∈ (kept source es).map (·.1)) : e ∈ es := by
    obtain ⟨k, hk, rfl⟩ := List.mem_map.mp he
    exact List.fst_mem_of_mem_zipIdx (hmem k hk)
  have hp : ((kept source es).map (·.1)).Pairwise fun a b => a.span.stop ≤ b.span.start :=
    List.pairwise_map.mpr (hleft.imp fun hab => hab.1)
  obtain ⟨middle, hmiddle⟩ := weave_within hlo hhi hle (fun e he => hfits e (hsub e he)) hp
    fun e he => h e (hsub e he)
  have hopens : OpensAt source lo ((kept source es).map (·.1)) := by
    cases hk : (kept source es).map (·.1) with
    | nil => trivial
    | cons e rest =>
      have he : e ∈ es := hsub e (by simp [hk])
      exact ⟨(h e he).1, (hfits e he).start⟩
  refine ⟨middle, ?_⟩
  rw [hresult, ← slice_append_weave (Text.boundary_zero source) hlo (Nat.zero_le _) hopens, hmiddle,
    Text.slice_zero]

theorem filter_sublist_weave {p : Char → Bool} (offset : Nat)
    (h : ∀ e ∈ es, ((e.span.text source).filter p).Sublist (e.text.filter p)) :
    ((weave source offset (es.map fun e => .replace e.span (e.span.text source))).filter p).Sublist
      ((weave source offset es).filter p) := by
  induction es generalizing offset with
  | nil => exact .refl _
  | cons e es ih =>
    obtain ⟨he, hes⟩ := List.forall_mem_cons.mp h
    rw [List.map_cons, weave, weave, List.filter_append, List.filter_append, List.filter_append,
      List.filter_append]
    exact ((List.Sublist.refl _).append he).append (ih _ hes)

/-- If no edit takes a character of some kind out of the text that it replaces, all those of the
source are left, in their order. -/
theorem filter_sublist_applyAll {p : Char → Bool} (hfits : ∀ e ∈ es, e.Fits source)
    (h : ∀ e ∈ es, ((e.span.text source).filter p).Sublist (e.text.filter p)) :
    (source.filter p).Sublist ((applyAll source es).filter p) := by
  obtain ⟨-, hresult, hsource, hmem, -, -⟩ := applyAll_weaves_kept hfits
  rw [hresult]
  conv_lhs => rw [← hsource]
  have hkept : ∀ e ∈ (kept source es).map (·.1),
      ((e.span.text source).filter p).Sublist (e.text.filter p) := by
    intro e he
    obtain ⟨k, hk, rfl⟩ := List.mem_map.mp he
    exact h _ (List.fst_mem_of_mem_zipIdx (hmem k hk))
  have key := filter_sublist_weave 0 hkept
  rw [List.map_map] at key
  exact key

end Edit

end Codemod

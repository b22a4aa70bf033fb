import Codemod.Proofs.Text.Boundary
import Codemod.Proofs.Text.Schedule

/-!
# Codemod.Proofs.Text.Splice

What a list of edits does to a source, edits that overlap included.

`Edit.applyAll` works on one text from back to front and remembers nothing but the place where
the last edit began. Here its result is given from left to right: `Edit.kept` lists the edits that
are carried out, in the order of the text, and `Edit.weave` writes their texts between the
untouched pieces of the source.

* `Edit.applyAll?` is the same work with checked cuts. `applyAll?_eq_weave` carries the loop
  invariant: in front of the last edit the text is still that of the source, so no cut ever fails.
* `not_mem_keepFrom_iff`: an edit is dropped exactly when its span is not empty and an edit kept
  before it begins inside.
* `kept_pairwise`: spans of kept edits do not overlap, and what stands at one offset is in order.
-/

namespace Codemod

namespace Text

/-- Puts `text` in the place of a span. Fails unless the span lies within the text, with both ends
at character boundaries. -/
def replaceRange? (s : Text) (span : Span) (text : Text) : Option Text :=
  if span.start ≤ span.stop ∧ s.Boundary span.start ∧ s.Boundary span.stop then
    some (s.before span.start ++ text ++ s.after span.stop)
  else none

end Text

namespace Edit

/-- The span of an edit lies within the source, with both ends at character boundaries. -/
structure Fits (e : Edit) (source : Text) : Prop where
  start_le_stop : e.span.start ≤ e.span.stop
  stop_le_size : e.span.stop ≤ source.size
  start : source.Boundary e.span.start
  stop : source.Boundary e.span.stop

instance (e : Edit) (source : Text) : Decidable (e.Fits source) :=
  decidable_of_iff
    (e.span.start ≤ e.span.stop ∧ e.span.stop ≤ source.size ∧ source.Boundary e.span.start ∧
      source.Boundary e.span.stop)
    ⟨fun ⟨h₁, h₂, h₃, h₄⟩ => ⟨h₁, h₂, h₃, h₄⟩, fun ⟨h₁, h₂, h₃, h₄⟩ => ⟨h₁, h₂, h₃, h₄⟩⟩

theorem applyAll_singleton {e : Edit} {source : Text} (h : e.Fits source) :
    applyAll source [e] = source.before e.span.start ++ (e.text ++ source.after e.span.stop) := by
  have hfloor : ¬ source.size < e.span.stop := Nat.not_lt.mpr h.stop_le_size
  simp [applyAll, schedule, place, splice, apply, hfloor]

/-- `splice` with checked cuts. -/
def splice? (floor : Nat) (source : Text) : List Edit → Option Text
  | [] => some source
  | e :: es =>
    if floor < e.span.stop && e.span.start != e.span.stop then splice? floor source es
    else (source.replaceRange? e.span e.text).bind fun next => splice? e.span.start next es

/-- `applyAll` with checked cuts. -/
def applyAll? (source : Text) (edits : List Edit) : Option Text :=
  splice? source.size source (schedule edits)

theorem splice_of_splice? {floor : Nat} {source result : Text} {es : List Edit}
    (h : splice? floor source es = some result) : splice floor source es = result := by
  induction es generalizing floor source with
  | nil => simpa [splice?, splice] using h
  | cons e es ih =>
    rw [splice?] at h
    rw [splice]
    split at h
    · rename_i hdrop
      rw [if_pos hdrop]
      exact ih h
    · rename_i hkeep
      rw [if_neg hkeep]
      obtain ⟨next, hnext, hrest⟩ := Option.bind_eq_some_iff.mp h
      rw [Text.replaceRange?] at hnext
      split at hnext
      · cases hnext
        exact ih hrest
      · cases hnext

/-- The edits that are carried out, in the order in which that is done. -/
def keepFrom (floor : Nat) : List Recorded → List Recorded
  | [] => []
  | r :: rs =>
    if floor < r.1.span.stop && r.1.span.start != r.1.span.stop then keepFrom floor rs
    else r :: keepFrom r.1.span.start rs

/-- The edits that are carried out, from left to right. -/
def kept (source : Text) (edits : List Edit) : List Recorded :=
  (keepFrom source.size (order edits)).reverse

/-- The source from `offset` on with edits carried out, each of which begins where the one before
it ends or later. -/
def weave (source : Text) (offset : Nat) : List Edit → Text
  | [] => source.after offset
  | e :: es => source.slice offset e.span.start ++ e.text ++ weave source e.span.stop es

/-- Nothing in the list begins in front of `offset`, and the first edit begins at a boundary. -/
def OpensAt (source : Text) (offset : Nat) : List Edit → Prop
  | [] => True
  | e :: _ => offset ≤ e.span.start ∧ source.Boundary e.span.start

theorem slice_append_weave {source : Text} {a b : Nat} {es : List Edit} (ha : source.Boundary a)
    (hb : source.Boundary b) (h : a ≤ b) (hes : OpensAt source b es) :
    source.slice a b ++ weave source b es = weave source a es := by
  cases es with
  | nil => exact Text.slice_append_after ha hb h
  | cons e es =>
    obtain ⟨hbe, he⟩ := hes
    rw [weave, weave, ← Text.slice_append_slice ha hb he h hbe]
    simp only [List.append_assoc]

/-- The text of an edit is part of the result, and behind it the source goes on where the edit
ends. -/
theorem weave_of_mem (source : Text) {es : List Edit} {e : Edit} (he : e ∈ es) (offset : Nat) :
    ∃ front later, weave source offset es = front ++ (e.text ++ weave source e.span.stop later) := by
  induction es generalizing offset with
  | nil => cases he
  | cons k es ih =>
    rcases List.mem_cons.mp he with rfl | he
    · exact ⟨source.slice offset e.span.start, es, by rw [weave, List.append_assoc]⟩
    · obtain ⟨front, later, hweave⟩ := ih he k.span.stop
      refine ⟨source.slice offset k.span.start ++ k.text ++ front, later, ?_⟩
      rw [weave, hweave, List.append_assoc _ front]

section Loop

variable {source : Text} {floor : Nat} {rs : List Recorded} {done : List Edit}

/-- One edit that is carried out. The text behind `floor` is finished, the text in front of it is
that of the source; afterwards the same holds at the start of the edit. -/
theorem replaceRange?_step {e : Edit} (he : e.Fits source) (hfloor : source.Boundary floor)
    (hstop : e.span.stop ≤ floor) (hdone : OpensAt source floor done) :
    (source.before floor ++ weave source floor done).replaceRange? e.span e.text =
      some (source.before e.span.start ++ weave source e.span.start (e :: done)) := by
  have hstart : e.span.start ≤ floor := Nat.le_trans he.start_le_stop hstop
  have hs : (source.before floor).Boundary e.span.start := he.start.before hfloor hstart
  have ht : (source.before floor).Boundary e.span.stop := he.stop.before hfloor hstop
  rw [Text.replaceRange?, if_pos ⟨he.start_le_stop, hs.append _, ht.append _⟩,
    Text.before_append hs, Text.before_before he.start hfloor hstart, Text.after_append ht,
    Text.after_before he.stop hfloor hstop, slice_append_weave he.stop hfloor hstop hdone, weave,
    Text.slice_self, List.nil_append, List.append_assoc]

/-- The loop, by induction on the edits that are left. -/
theorem splice?_eq_weave (hp : rs.Pairwise Precedes) (hfits : ∀ r ∈ rs, r.1.Fits source)
    (hle : ∀ r ∈ rs, r.1.span.start ≤ floor) (hfloor : source.Boundary floor)
    (hdone : OpensAt source floor done) :
    splice? floor (source.before floor ++ weave source floor done) (rs.map (·.1)) =
      some (weave source 0 ((keepFrom floor rs).reverse.map (·.1) ++ done)) := by
  induction rs generalizing floor done with
  | nil =>
    rw [List.map_nil, splice?, ← Text.slice_zero,
      slice_append_weave (Text.boundary_zero source) hfloor (Nat.zero_le _) hdone]
    rfl
  | cons r rs ih =>
    obtain ⟨hr, hp'⟩ := List.pairwise_cons.mp hp
    have hfits' : ∀ x ∈ rs, x.1.Fits source := fun x hx => hfits x (by simp [hx])
    have he : r.1.Fits source := hfits r (by simp)
    have hrf : r.1.span.start ≤ floor := hle r (by simp)
    rw [List.map_cons, splice?, keepFrom]
    by_cases hdrop : (decide (floor < r.1.span.stop) && r.1.span.start != r.1.span.stop) = true
    · rw [if_pos hdrop, if_pos hdrop]
      exact ih hp' hfits' (fun x hx => hle x (by simp [hx])) hfloor hdone
    · rw [if_neg hdrop, if_neg hdrop]
      -- an empty span ends where it starts, so it does not run past `floor` either
      have hstop : r.1.span.stop ≤ floor := by
        simp only [Bool.and_eq_true, decide_eq_true_eq, bne_iff_ne] at hdrop
        omega
      have hopens : OpensAt source r.1.span.start (r.1 :: done) := ⟨Nat.le_refl _, he.start⟩
      rw [replaceRange?_step he hfloor hstop hdone, Option.bind_some,
        ih hp' hfits' (fun x hx => (hr x hx).start_le) he.start hopens,
        List.reverse_cons, List.map_append, List.append_assoc]
      rfl

theorem keepFrom_sublist (floor : Nat) (rs : List Recorded) : (keepFrom floor rs).Sublist rs := by
  induction rs generalizing floor with
  | nil => exact .slnil
  | cons r rs ih =>
    rw [keepFrom]
    split
    · exact (ih floor).cons r
    · exact (ih r.1.span.start).cons_cons r

theorem stop_le_of_mem_keepFrom (hp : rs.Pairwise Precedes)
    (hle : ∀ r ∈ rs, r.1.span.start ≤ floor) :
    ∀ k ∈ keepFrom floor rs, k.1.span.stop ≤ floor := by
  induction rs generalizing floor with
  | nil => simp [keepFrom]
  | cons r rs ih =>
    obtain ⟨hr, hp'⟩ := List.pairwise_cons.mp hp
    have hrf : r.1.span.start ≤ floor := hle r (by simp)
    intro k hk
    rw [keepFrom] at hk
    split at hk
    · exact ih hp' (fun x hx => hle x (by simp [hx])) k hk
    · rename_i hkeep
      rcases List.mem_cons.mp hk with rfl | hk
      · simp only [Bool.and_eq_true, decide_eq_true_eq, bne_iff_ne] at hkeep
        omega
      · exact Nat.le_trans (ih hp' (fun x hx => (hr x hx).start_le) k hk) hrf

theorem keepFrom_pairwise (hp : rs.Pairwise Precedes) (floor : Nat) :
    (keepFrom floor rs).Pairwise fun b a => a.1.span.stop ≤ b.1.span.start := by
  induction rs generalizing floor with
  | nil => exact .nil
  | cons r rs ih =>
    obtain ⟨hr, hp'⟩ := List.pairwise_cons.mp hp
    rw [keepFrom]
    split
    · exact ih hp' floor
    · refine List.pairwise_cons.mpr ⟨?_, ih hp' _⟩
      exact stop_le_of_mem_keepFrom hp' fun x hx => (hr x hx).start_le

/-- Which edits are dropped, by induction on the edits that are left. Whatever was kept before
them begins at `floor` or behind it. -/
theorem not_mem_keepFrom_iff (hp : rs.Pairwise Precedes)
    (hle : ∀ r ∈ rs, r.1.span.start ≤ floor) (hspan : ∀ r ∈ rs, r.1.span.start ≤ r.1.span.stop)
    {r : Recorded} (hr : r ∈ rs) :
    r ∉ keepFrom floor rs ↔ r.1.span.start < r.1.span.stop ∧
      (floor < r.1.span.stop ∨
        ∃ k ∈ keepFrom floor rs, Precedes k r ∧ k.1.span.start < r.1.span.stop) := by
  induction rs generalizing floor with
  | nil => cases hr
  | cons x xs ih =>
    obtain ⟨hx, hp'⟩ := List.pairwise_cons.mp hp
    have hxf : x.1.span.start ≤ floor := hle x (by simp)
    have hxs : x.1.span.start ≤ x.1.span.stop := hspan x (by simp)
    have hspan' : ∀ y ∈ xs, y.1.span.start ≤ y.1.span.stop := fun y hy => hspan y (by simp [hy])
    have hxn : x ∉ xs := fun h => Precedes.irrefl x (hx x h)
    rw [keepFrom]
    split
    · rename_i hdrop
      simp only [Bool.and_eq_true, decide_eq_true_eq, bne_iff_ne] at hdrop
      rcases List.mem_cons.mp hr with rfl | hr
      · refine iff_of_true (fun h => hxn ((keepFrom_sublist floor xs).subset h)) ⟨?_, .inl hdrop.1⟩
        omega
      · exact ih hp' (fun y hy => hle y (by simp [hy])) hspan' hr
    · rename_i hkeep
      simp only [Bool.and_eq_true, decide_eq_true_eq, bne_iff_ne] at hkeep
      rcases List.mem_cons.mp hr with rfl | hr
      · -- it is kept, it does not reach beyond `floor`, and nothing kept later precedes it
        refine iff_of_false (by simp) ?_
        rintro ⟨hne, hlt | ⟨k, hk, hkr, -⟩⟩
        · omega
        · rcases List.mem_cons.mp hk with rfl | hk
          · exact Precedes.irrefl _ hkr
          · exact hkr.asymm (hx k ((keepFrom_sublist _ xs).subset hk))
      · have hne : r ≠ x := fun h => hxn (h ▸ hr)
        have hxr : Precedes x r := hx r hr
        rw [List.mem_cons, not_or, and_iff_right hne,
          ih hp' (fun y hy => (hx y hy).start_le) hspan' hr]
        refine and_congr_right fun _ => ?_
        simp only [List.mem_cons, exists_eq_or_imp]
        constructor
        · rintro (h | h)
          · exact .inr (.inl ⟨hxr, h⟩)
          · exact .inr (.inr h)
        · rintro (h | ⟨-, h⟩ | h)
          · exact .inl (by omega)
          · exact .inl h
          · exact .inr h

end Loop

section Source

variable {source : Text} {edits : List Edit}

theorem fits_of_mem_order (h : ∀ e ∈ edits, e.Fits source) :
    ∀ r ∈ order edits, r.1.Fits source :=
  fun _ hr => h _ (List.fst_mem_of_mem_zipIdx (mem_order.mp hr))

theorem start_le_of_mem_order (h : ∀ e ∈ edits, e.Fits source) :
    ∀ r ∈ order edits, r.1.span.start ≤ source.size :=
  fun r hr => (fits_of_mem_order h r hr).start.le_size

theorem mem_kept {r : Recorded} : r ∈ kept source edits ↔ r ∈ keepFrom source.size (order edits) :=
  List.mem_reverse

theorem mem_zipIdx_of_mem_kept {r : Recorded} (hr : r ∈ kept source edits) : r ∈ edits.zipIdx :=
  mem_order.mp ((keepFrom_sublist _ _).subset (mem_kept.mp hr))

theorem applyAll?_eq_weave (h : ∀ e ∈ edits, e.Fits source) :
    applyAll? source edits = some (weave source 0 ((kept source edits).map (·.1))) := by
  have key := splice?_eq_weave (order_pairwise edits) (fits_of_mem_order h)
    (start_le_of_mem_order h) (Text.boundary_size source) (show OpensAt source _ [] from trivial)
  rw [map_order, Text.before_size, weave, Text.after_size, List.append_nil, List.append_nil] at key
  exact key

/-- The place of `a` in the text is in front of that of `b`. At one offset, insertions are in the
order of recording and a replacement is last. -/
def LeftOf (a b : Recorded) : Prop :=
  a.1.span.stop ≤ b.1.span.start ∧
    (a.1.span.start = b.1.span.start →
      a.1.span.start = a.1.span.stop ∧ (b.1.span.start = b.1.span.stop → a.2 < b.2))

theorem kept_pairwise (h : ∀ e ∈ edits, e.Fits source) :
    (kept source edits).Pairwise LeftOf := by
  have hp := order_pairwise edits
  rw [kept, List.pairwise_reverse]
  refine (List.pairwise_and_iff.mpr
    ⟨hp.sublist (keepFrom_sublist source.size _), keepFrom_pairwise hp source.size⟩).imp_of_mem ?_
  rintro b a hb ha ⟨hba, hstop⟩
  have hspan := (fits_of_mem_order h a ((keepFrom_sublist _ _).subset ha)).start_le_stop
  refine ⟨hstop, fun heq => ⟨by omega, fun hempty => ?_⟩⟩
  unfold Precedes Span.length at hba
  omega

/-- A kept edit that puts back what the source has there changes nothing. -/
theorem weave_source {es : List Edit} {offset : Nat} (hoff : source.Boundary offset)
    (hfits : ∀ e ∈ es, e.Fits source) (hopens : ∀ e ∈ es, offset ≤ e.span.start)
    (hp : es.Pairwise fun a b => a.span.stop ≤ b.span.start) :
    weave source offset (es.map fun e => .replace e.span (e.span.text source)) =
      source.after offset := by
  induction es generalizing offset with
  | nil => rfl
  | cons e es ih =>
    obtain ⟨he, hp'⟩ := List.pairwise_cons.mp hp
    have hfit : e.Fits source := hfits e (by simp)
    have hrest := ih hfit.stop (fun x hx => hfits x (by simp [hx])) he hp'
    show source.slice offset e.span.start ++ source.slice e.span.start e.span.stop ++
      weave source e.span.stop _ = source.after offset
    rw [hrest, List.append_assoc,
      Text.slice_append_after hfit.start hfit.stop hfit.start_le_stop,
      Text.slice_append_after hoff hfit.start (hopens e (by simp))]

end Source

/-- Every list of edits whose spans fit the source can be applied: no cut fails, and the result is
the source with the kept edits woven in from left to right. The kept edits are recorded edits that
do not overlap; between them the source is untouched, for with its own text in the place of each
kept span it comes out as it was. An edit is dropped exactly when its span is not empty and an
edit kept before it begins inside. -/
theorem applyAll_weaves_kept {source : Text} {edits : List Edit}
    (h : ∀ e ∈ edits, e.Fits source) :
    applyAll? source edits = some (applyAll source edits) ∧
      applyAll source edits = weave source 0 ((kept source edits).map (·.1)) ∧
      weave source 0 ((kept source edits).map fun k => .replace k.1.span (k.1.span.text source)) =
        source ∧
      (∀ k ∈ kept source edits, k ∈ edits.zipIdx) ∧
      (kept source edits).Pairwise LeftOf ∧
      ∀ r ∈ edits.zipIdx, r ∉ kept source edits ↔
        r.1.span.start < r.1.span.stop ∧
          ∃ k ∈ kept source edits, Precedes k r ∧ r.1.span.start ≤ k.1.span.start ∧
            k.1.span.start < r.1.span.stop := by
  have hw := applyAll?_eq_weave h
  have ha : applyAll source edits = _ := splice_of_splice? hw
  refine ⟨by rw [hw, ha], ha, ?_, fun k => mem_zipIdx_of_mem_kept, kept_pairwise h, ?_⟩
  · have hp : ((kept source edits).map (·.1)).Pairwise fun a b => a.span.stop ≤ b.span.start :=
      List.pairwise_map.mpr ((kept_pairwise h).imp fun hab => hab.1)
    have hfits : ∀ e ∈ (kept source edits).map (·.1), e.Fits source := by
      intro e he
      obtain ⟨k, hk, rfl⟩ := List.mem_map.mp he
      exact h _ (List.fst_mem_of_mem_zipIdx (mem_zipIdx_of_mem_kept hk))
    have key := weave_source (Text.boundary_zero source) hfits (fun _ _ => Nat.zero_le _) hp
    rw [List.map_map, Text.after_zero] at key
    exact key
  · intro r hr
    have hfit : ∀ x ∈ order edits, x.1.span.start ≤ x.1.span.stop :=
      fun x hx => (fits_of_mem_order h x hx).start_le_stop
    rw [mem_kept, not_mem_keepFrom_iff (order_pairwise edits) (start_le_of_mem_order h) hfit
      (mem_order.mpr hr)]
    have hsize : ¬ source.size < r.1.span.stop :=
      Nat.not_lt.mpr (h _ (List.fst_mem_of_mem_zipIdx hr)).stop_le_size
    refine and_congr_right fun _ => ?_
    rw [or_iff_right hsize]
    simp only [mem_kept]
    constructor
    · rintro ⟨k, hk, hkr, hlt⟩
      exact ⟨k, hk, hkr, hkr.start_le, hlt⟩
    · rintro ⟨k, hk, hkr, -, hlt⟩
      exact ⟨k, hk, hkr, hlt⟩

/-- Six edits against four characters, the second of which takes two bytes. The replacement of
`[1, 4)` gives way to the insertion inside it; of the two spans that begin at 0, the longer one is
kept, behind both insertions there. -/
theorem applyAll_weaves_kept_overlapping :
    let source := "aébc".toList
    let edits : List Edit := [.insert 0 ['1'], .replace ⟨0, 1⟩ ['x'], .replace ⟨1, 4⟩ ['y'],
      .insert 3 ['z'], .insert 0 ['2'], .remove ⟨0, 3⟩]
    (∀ e ∈ edits, e.Fits source) ∧ applyAll source edits = "12zbc".toList ∧
      ∀ r ∈ edits.zipIdx, r ∉ kept source edits ↔
        r.1.span.start < r.1.span.stop ∧
          ∃ k ∈ kept source edits, Precedes k r ∧ r.1.span.start ≤ k.1.span.start ∧
            k.1.span.start < r.1.span.stop := by
  intro source edits
  have hfits : ∀ e ∈ edits, e.Fits source := by decide
  obtain ⟨-, -, -, -, -, hdropped⟩ := applyAll_weaves_kept hfits
  exact ⟨hfits, by decide, hdropped⟩

end Edit

end Codemod

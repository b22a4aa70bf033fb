import Codemod.Pass
import Codemod.Proofs.Disk
import Codemod.Proofs.Module.ImportEdit
import Codemod.Proofs.Pass.Router.Scan
import Codemod.Proofs.Pass.UiImports
import Codemod.Proofs.Project.BuildConfig
import Codemod.Proofs.Syntax.Parser

/-!
# Codemod.Proofs.Pass.Lossless

No pass records edits that get in each other's way, nor does the update of the build configuration:
every recorded edit is carried out.

Edits of nodes that a walk finds stand in the order of the text. The field that a class gets goes to
a place that is inside no part of the class, and an edit of an import keeps off everything that is
not an import. The new import of the base package has a place of its own only where no import of the
API package is rewritten.
-/

namespace Codemod

namespace Router

variable {source : Text} {p : Program} {x y : Node} {c : ClassShape}

/-- The field of a class goes behind the opening brace. -/
theorem lt_anchor (h : y.Tidy source) (hc : y.class? = some c) : c.body.start < anchor c := by
  cases y with
  | classDef span name head body members =>
    cases hc
    obtain ⟨-, -, -, -, -, -, -, hrow, -⟩ := h.arranged
    cases members with
    | nil => exact Nat.lt_succ_self _
    | cons m rest => exact (hrow.within m (by simp) m (Node.mem_postorder_self m)).1
  | _ => cases hc

theorem anchor_inside (h : y.Tidy source) (hc : y.class? = some c) :
    Span.Inside ⟨anchor c, anchor c⟩ y.span := by
  have hanchor := lt_anchor h hc
  cases y with
  | classDef span name head body members =>
    cases hc
    obtain ⟨hle, hlt, hstop, -, -, -, -, hrow, -⟩ := h.arranged
    refine ⟨Nat.le_trans hle hanchor.le, ?_⟩
    cases members with
    | nil => exact show body.start + 1 ≤ span.stop by omega
    | cons m rest =>
      have hhi := (hrow.within m (by simp) m (Node.mem_postorder_self m)).2
      have hm := ((Node.tidy_iff.mp h).2 m (by simp [Node.children])).sharp.lt
      exact show m.span.start ≤ span.stop by omega
  | _ => cases hc

/-- The place where the field of a class goes is inside none of its parts. -/
theorem anchor_apart (h : y.Tidy source) (hc : y.class? = some c) (hx : x ∈ y.postorder)
    (hne : x ≠ y) : Span.Apart ⟨anchor c, anchor c⟩ x.span := by
  have hanchor := lt_anchor h hc
  obtain ⟨k, hk, hxk⟩ := (Node.mem_postorder.mp hx).resolve_left hne
  cases y with
  | classDef span name head body members =>
    cases hc
    have htidy := (Node.tidy_iff.mp h).2 k hk
    obtain ⟨-, -, -, -, -, ⟨lo, hhead⟩, -, hrow, -⟩ := h.arranged
    rcases List.mem_append.mp hk with hk | hk
    · exact .inr (Nat.le_trans (hhead.within k hk x hxk).2 hanchor.le)
    · cases members with
      | nil => cases hk
      | cons m rest =>
        rcases List.mem_cons.mp hk with rfl | hk
        · exact (htidy.clear x hxk).symm
        · have hm := ((Node.tidy_iff.mp h).2 m (by simp [Node.children])).sharp.lt
          have hle := (List.pairwise_cons.mp hrow.ordered).1 k hk m (Node.mem_postorder_self m) x hxk
          exact .inl (Nat.le_trans hm.le hle)
  | _ => cases hc

theorem boundary_anchor (h : y.Tidy source) (hc : y.class? = some c) :
    source.Boundary (anchor c) := by
  cases y with
  | classDef span name head body members =>
    cases hc
    cases members with
    | nil => exact h.arranged.2.2.2.1.boundary
    | cons m rest =>
      exact ((Node.tidy_iff.mp h).2 m (by simp [Node.children])).sharp.opens.boundary
  | _ => cases hc

theorem has_of_mem_reads {r : Read} (h : r ∈ reads p) :
    ∃ x, p.Has x ∧ x.isThisMember "$router" = true ∧ x.span = r.span := by
  obtain ⟨host, x, hx, hr⟩ := Program.exists_of_mem_gather h
  unfold visitReads at hr
  split at hr
  · cases hr
  · split at hr
    · rename_i hthis
      rw [List.mem_singleton.mp hr]
      exact ⟨x, hx, hthis, rfl⟩
    · cases hr

theorem has_of_mem_readers (h : c ∈ readers p) : ∃ y, p.Has y ∧ y.class? = some c := by
  obtain ⟨y, hy, hc⟩ := List.mem_filterMap.mp h
  exact ⟨y, List.mem_flatMap.mp hy, (reader?_eq_some_iff.mp hc).1⟩

theorem reads_pairwise (h : p.Laid source) :
    (reads p).Pairwise fun a b => a.span.Apart b.span := by
  refine (h.gather_pairwise (fun r : Read => some r.span) none ?_ ?_).imp
    fun hab => .inl (hab _ rfl _ rfl)
  · intro host m r hr a ha
    cases ha
    unfold visitReads at hr
    split at hr
    · cases hr
    · split at hr
      · rw [List.mem_singleton.mp hr]
      · cases hr
  · intro host m
    unfold visitReads
    split
    · exact .inl rfl
    · split
      · exact .inr ⟨rfl, Nat.le_refl _⟩
      · exact .inl rfl

/-- The field of a class does not go inside of a read. -/
theorem anchor_apart_read (h : p.Laid source) (hx : p.Has x)
    (hthis : x.isThisMember "$router" = true) (hy : p.Has y) (hc : y.class? = some c) :
    Span.Apart ⟨anchor c, anchor c⟩ x.span := by
  have htidy := h.tidy_of_has hy
  obtain ⟨s, t, rfl⟩ := isThisMember_iff.mp hthis
  rcases h.nested_or_apart hx hy with hmem | hmem | hapart
  · refine anchor_apart htidy hc hmem ?_
    rintro rfl
    cases hc
  · -- a read has no class in it
    simp only [Node.postorder, List.mem_append, List.mem_singleton] at hmem
    rcases hmem with rfl | rfl <;> cases hc
  · exact hapart.symm.mono (anchor_inside htidy hc) (.refl _)

/-- The edits that add the fields. -/
def fieldEdits (script : Script) : List Edit :=
  ((readers script.program).filter fun c => !c.has instanceField).map
    (addField script.source script.style)

/-- The edits of the reads. -/
def readEdits (script : Script) : List Edit :=
  ((reads script.program).filter fun r => r.host.isSome).map
    fun r => .replace r.span "this.$instance.router".toList

theorem patch_edits (script : Script) : (patch script).edits = [] ∨
    (patch script).edits = fieldEdits script ++ readEdits script ++
      (script.ensureImport? apiPackage instanceFactory).toList := by
  simp only [patch]
  split
  · exact .inl rfl
  · exact .inr rfl

section Edits

variable {script : Script} {e : Edit}

theorem has_of_mem_fieldEdits (h : e ∈ fieldEdits script) :
    ∃ y c, script.program.Has y ∧ y.class? = some c ∧ e.span = ⟨anchor c, anchor c⟩ := by
  obtain ⟨c, hc, rfl⟩ := List.mem_map.mp h
  obtain ⟨y, hy, hyc⟩ := has_of_mem_readers (List.mem_filter.mp hc).1
  exact ⟨y, c, hy, hyc, rfl⟩

theorem has_of_mem_readEdits (h : e ∈ readEdits script) :
    ∃ x, script.program.Has x ∧ x.isThisMember "$router" = true ∧ e.span = x.span := by
  obtain ⟨r, hr, rfl⟩ := List.mem_map.mp h
  obtain ⟨x, hx, hthis, hspan⟩ := has_of_mem_reads (List.mem_filter.mp hr).1
  exact ⟨x, hx, hthis, hspan.symm⟩

theorem patch_fits (h : script.program.Laid script.source) (he : e ∈ (patch script).edits) :
    e.Fits script.source := by
  rcases patch_edits script with heq | heq
  · rw [heq] at he
    cases he
  rw [heq, List.mem_append, List.mem_append] at he
  rcases he with (he | he) | he
  · obtain ⟨y, c, hy, hc, hspan⟩ := has_of_mem_fieldEdits he
    exact Edit.fits_of_insert hspan (boundary_anchor (h.tidy_of_has hy) hc)
  · obtain ⟨x, hx, -, hspan⟩ := has_of_mem_readEdits he
    exact Span.Sharp.fits (hspan ▸ h.sharp_of_has hx)
  · exact (Script.ensureImport?_bindsAt (Option.mem_toList.mp he)).fits h

theorem patch_lossless (h : script.program.Laid script.source) :
    Edit.Lossless script.source (patch script).edits := by
  rw [Edit.lossless_iff fun e => patch_fits h]
  rcases patch_edits script with heq | heq
  · rw [heq]
    exact .nil
  rw [heq, List.pairwise_append, List.pairwise_append]
  refine ⟨⟨?_, ?_, ?_⟩, ?_, ?_⟩
  · refine List.pairwise_of_forall_mem_list fun a ha b hb => ?_
    obtain ⟨_, _, -, -, hspan⟩ := has_of_mem_fieldEdits ha
    obtain ⟨_, _, -, -, hspan'⟩ := has_of_mem_fieldEdits hb
    rw [hspan, hspan']
    exact Span.apart_insert _ _
  · exact List.pairwise_map.mpr ((reads_pairwise h).sublist List.filter_sublist)
  · intro a ha b hb
    obtain ⟨y, c, hy, hc, hspan⟩ := has_of_mem_fieldEdits ha
    obtain ⟨x, hx, hthis, hspan'⟩ := has_of_mem_readEdits hb
    rw [hspan, hspan']
    exact anchor_apart_read h hx hthis hy hc
  · cases script.ensureImport? apiPackage instanceFactory with
    | none => exact .nil
    | some e => exact List.pairwise_singleton _ _
  · intro a ha e he
    have hbinds := Script.ensureImport?_bindsAt (Option.mem_toList.mp he)
    rcases List.mem_append.mp ha with ha | ha
    · obtain ⟨y, c, hy, hc, hspan⟩ := has_of_mem_fieldEdits ha
      have hproper : y.isProper = true := by
        cases y with
        | classDef => rfl
        | _ => cases hc
      rw [hspan]
      exact (hbinds.apart h hy hproper).symm.mono (anchor_inside (h.tidy_of_has hy) hc) (.refl _)
    · obtain ⟨x, hx, hthis, hspan⟩ := has_of_mem_readEdits ha
      obtain ⟨s, t, rfl⟩ := isThisMember_iff.mp hthis
      rw [hspan]
      exact (hbinds.apart h hx rfl).symm

end Edits

end Router

namespace UiImports

section Uses

variable {main : String} {n : Node} {u : Use} {source : Text} {p : Program}

/-- Where a use stands that is rewritten. -/
def Use.place : Use → Option Span
  | symbol span _ => some span
  | kept => none

/-- A use that is rewritten is the whole node it was found at. -/
theorem place_of_mem_visitUses (h : u ∈ (visitUses main () n).1) {a : Span} (ha : a ∈ u.place) :
    a = n.span ∧ n.isProper = true := by
  unfold visitUses at h
  split at h
  · split at h
    · rw [List.mem_singleton.mp h] at ha
      cases ha
      exact ⟨rfl, rfl⟩
    · cases h
  · split at h
    · rw [List.mem_singleton.mp h] at ha
      cases ha
      exact ⟨rfl, rfl⟩
    · cases h
  · split at h
    · rw [List.mem_singleton.mp h] at ha
      cases ha
    · cases h
  · cases h

theorem visitUses_stops (main : String) (n : Node) : (visitUses main () n).1 = [] ∨
    (visitUses main () n).2 = none ∧ (visitUses main () n).1.length ≤ 1 := by
  unfold visitUses
  split
  · split
    · exact .inr ⟨rfl, Nat.le_refl _⟩
    · exact .inl rfl
  · split
    · exact .inr ⟨rfl, Nat.le_refl _⟩
    · exact .inl rfl
  · split
    · exact .inr ⟨rfl, Nat.le_refl _⟩
    · exact .inl rfl
  · exact .inl rfl

variable {script : Script} {e : Edit}

theorem has_of_mem_memberEdits (he : e ∈ memberEdits (uses script)) :
    ∃ n, script.program.Has n ∧ n.isProper = true ∧ e.span = n.span := by
  obtain ⟨u, hu, hedit⟩ := List.mem_filterMap.mp he
  rw [uses] at hu
  split at hu
  · cases hu
  · obtain ⟨_, n, hn, hu⟩ := Program.exists_of_mem_gather hu
    cases u with
    | symbol span name =>
      cases hedit
      obtain ⟨hspan, hproper⟩ := place_of_mem_visitUses hu rfl
      exact ⟨n, hn, hproper, hspan⟩
    | kept => cases hedit

theorem memberEdits_pairwise (h : script.program.Laid script.source) :
    (memberEdits (uses script)).Pairwise fun a b => a.span.Apart b.span := by
  rw [uses]
  split
  · exact .nil
  · rename_i main _
    have hordered := h.gather_pairwise Use.place ()
      (fun _ _ _ hu _ ha => (place_of_mem_visitUses hu ha).1) fun _ => visitUses_stops main
    refine List.pairwise_filterMap.mpr (hordered.imp fun {u v} huv a ha b hb => ?_)
    cases u <;> cases ha
    cases v <;> cases hb
    exact .inl (huv _ rfl _ rfl)

end Uses

section ApiEdits

variable {source : Text} {style : Style} {added : Option Text}
  {changes : List (Span × ImportClause)} {e : Edit}

theorem apiEdits_cons (source : Text) (style : Style) (added : Option Text)
    (change : Span × ImportClause) (rest : List (Span × ImportClause)) :
    ∃ e, source.Widens change.1 e.span ∧ apiEdits source style added (change :: rest) =
      (e :: (apiEdits source style none rest).1, (apiEdits source style none rest).2) := by
  obtain ⟨span, clause⟩ := change
  cases added with
  | none =>
    cases hrender : clause.render? style with
    | none => exact ⟨.remove (source.removalSpan span), .inr rfl, by simp only [apiEdits, hrender]⟩
    | some old =>
      exact ⟨.replace (source.statementSpan span) old, .inl rfl, by simp only [apiEdits, hrender]⟩
  | some new =>
    cases hrender : clause.render? style with
    | none =>
      exact ⟨.replace (source.statementSpan span) new, .inl rfl, by simp only [apiEdits, hrender]⟩
    | some old =>
      exact ⟨.replace (source.statementSpan span) (new ++ '\n' :: old), .inl rfl,
        by simp only [apiEdits, hrender]⟩

theorem widens_of_mem_apiEdits (h : e ∈ (apiEdits source style added changes).1) :
    ∃ change ∈ changes, source.Widens change.1 e.span := by
  induction changes generalizing added with
  | nil => cases h
  | cons change rest ih =>
    obtain ⟨first, hfirst, heq⟩ := apiEdits_cons source style added change rest
    rw [heq] at h
    rcases List.mem_cons.mp h with rfl | h
    · exact ⟨change, List.mem_cons_self, hfirst⟩
    · obtain ⟨change', hmem, hwidens⟩ := ih h
      exact ⟨change', List.mem_cons_of_mem _ hmem, hwidens⟩

theorem apiEdits_pairwise (h : changes.Pairwise fun a b => ∀ outA outB,
      source.Widens a.1 outA → source.Widens b.1 outB → outA.Apart outB) :
    (apiEdits source style added changes).1.Pairwise fun a b => a.span.Apart b.span := by
  induction changes generalizing added with
  | nil => exact .nil
  | cons change rest ih =>
    obtain ⟨hall, hrest⟩ := List.pairwise_cons.mp h
    obtain ⟨first, hfirst, heq⟩ := apiEdits_cons source style added change rest
    rw [heq]
    refine List.pairwise_cons.mpr ⟨fun b hb => ?_, ih hrest⟩
    obtain ⟨change', hmem, hwidens⟩ := widens_of_mem_apiEdits hb
    exact hall change' hmem _ _ hfirst hwidens

/-- A new import is left over only where no import changes. -/
theorem apiEdits_left {new : Text} (h : (apiEdits source style added changes).2 = some new) :
    changes = [] ∧ added = some new := by
  have hnone (rest : List (Span × ImportClause)) : (apiEdits source style none rest).2 = none := by
    induction rest with
    | nil => rfl
    | cons change rest ih =>
      obtain ⟨_, -, heq⟩ := apiEdits_cons source style none change rest
      rw [heq, ih]
  cases changes with
  | nil => exact ⟨rfl, h⟩
  | cons change rest =>
    obtain ⟨_, -, heq⟩ := apiEdits_cons source style added change rest
    rw [heq, hnone rest] at h
    cases h

end ApiEdits

section Patch

variable {script : Script} {e : Edit}

/-- The imports of the API package that change, with what they are left with. -/
def changes (script : Script) : List (Span × ImportClause) :=
  (apiImports script.program).filterMap fun i =>
    if remaining (keepsMain (uses script)) i.clause == i.clause then none
    else some (i.span, remaining (keepsMain (uses script)) i.clause)

/-- A change is one of an import of the API package. -/
theorem mem_changes {change : Span × ImportClause} :
    change ∈ changes script → ∃ decl ∈ script.program.importsFrom apiPackage,
      change.1 = decl.span := by
  intro h
  obtain ⟨i, hi, hchange⟩ := List.mem_filterMap.mp h
  obtain ⟨decl, hdecl, hclause⟩ := List.mem_filterMap.mp hi
  obtain ⟨clause, -, rfl⟩ := Option.map_eq_some_iff.mp hclause
  split at hchange
  · cases hchange
  · cases hchange
    exact ⟨decl, hdecl, rfl⟩

theorem changes_pairwise (h : script.program.Laid script.source) :
    (changes script).Pairwise fun a b => ∀ outA outB,
      script.source.Widens a.1 outA → script.source.Widens b.1 outB → outA.Apart outB := by
  have hdecls : (script.program.importsFrom apiPackage).Pairwise _ :=
    h.imports_pairwise.sublist List.filter_sublist
  have himports : (apiImports script.program).Pairwise fun a b => ∀ outA outB,
      script.source.Widens a.span outA → script.source.Widens b.span outB → outA.Apart outB := by
    refine List.pairwise_filterMap.mpr (hdecls.imp fun {a b} hab i hi j hj => ?_)
    obtain ⟨_, -, rfl⟩ := Option.map_eq_some_iff.mp hi
    obtain ⟨_, -, rfl⟩ := Option.map_eq_some_iff.mp hj
    exact hab
  refine List.pairwise_filterMap.mpr (himports.imp fun {i j} hij a ha b hb => ?_)
  split at ha <;> cases ha
  split at hb <;> cases hb
  exact hij

/-- The edit that puts a new import above the imports of the API package. -/
def aboveEdits (script : Script) (left : Option Text) : List Edit :=
  match left with
  | none => []
  | some new =>
    let offset := ((script.program.importsFrom apiPackage).head?.map (·.span.start)).getD 0
    [.insert offset (new ++ ['\n'])]

/-- The groups of edits that a patch consists of, given the one of the base package and an import
that is new. -/
def grouped (script : Script) (base : List Edit) (added : Option Text) : List Edit :=
  let api := apiEdits script.source script.style added (changes script)
  base ++ api.1 ++ aboveEdits script api.2 ++ memberEdits (uses script)

/-- Either an import of the base package is rewritten, or a new one is added. -/
theorem patch_edits (script : Script) : ∃ base added,
    (patch script).edits = grouped script base added ∧
      (base = [] ∨ added = none ∧ ∃ decl ∈ script.program.importsFrom basePackage, ∃ text,
        base = [.replace (script.source.statementSpan decl.span) text]) := by
  simp only [patch]
  split
  · rename_i span clause hmerge
    split
    · exact ⟨[], none, rfl, .inl rfl⟩
    · refine ⟨_, none, rfl, ?_⟩
      obtain ⟨decl, hdecl, hclause⟩ := List.exists_of_findSome?_eq_some hmerge
      obtain ⟨_, -, heq⟩ := Option.map_eq_some_iff.mp hclause
      cases heq
      cases (ImportClause.bindAll _ _).render? script.style with
      | none => exact .inl rfl
      | some text => exact .inr ⟨rfl, decl, hdecl, text, rfl⟩
  · exact ⟨[], _, rfl, .inl rfl⟩

theorem mem_aboveEdits {left : Option Text} (h : e ∈ aboveEdits script left) :
    left.isSome ∧ ∃ q, e.span = ⟨q, q⟩ ∧
      (q = 0 ∨ ∃ decl ∈ script.program.imports, q = decl.span.start) := by
  cases left with
  | none => cases h
  | some new =>
    rw [List.mem_singleton.mp h]
    refine ⟨rfl, _, rfl, ?_⟩
    cases hhead : (script.program.importsFrom apiPackage).head? with
    | none => exact .inl rfl
    | some decl =>
      exact .inr ⟨decl, (List.mem_filter.mp (List.mem_of_mem_head? hhead)).1, rfl⟩

section Grouped

variable {base : List Edit} {added : Option Text}

/-- An import of one package is not one of the other. -/
theorem base_apart_api (h : script.program.Laid script.source) {a b : ImportDeclaration}
    (ha : a ∈ script.program.importsFrom basePackage)
    (hb : b ∈ script.program.importsFrom apiPackage) {outA outB : Span}
    (hA : script.source.Widens a.span outA) (hB : script.source.Widens b.span outB) :
    outA.Apart outB := by
  rw [Program.importsFrom, List.mem_filter, Bool.and_eq_true, beq_iff_eq] at ha hb
  refine h.imports_apart ha.1 hb.1 ?_ hA hB
  rintro rfl
  exact absurd (ha.2.1.symm.trans hb.2.1) (by decide)

variable (hbase : base = [] ∨ added = none ∧
  ∃ decl ∈ script.program.importsFrom basePackage, ∃ text,
    base = [.replace (script.source.statementSpan decl.span) text])

include hbase

/-- The edits of imports. -/
theorem widens_of_mem_base (he : e ∈ base) :
    ∃ decl ∈ script.program.importsFrom basePackage, script.source.Widens decl.span e.span := by
  rcases hbase with rfl | ⟨-, decl, hdecl, text, rfl⟩
  · cases he
  · rw [List.mem_singleton.mp he]
    exact ⟨decl, hdecl, .inl rfl⟩

theorem grouped_fits (h : script.program.Laid script.source) (he : e ∈ grouped script base added) :
    e.Fits script.source := by
  have hdecl {decl : ImportDeclaration} {source : String}
      (hmem : decl ∈ script.program.importsFrom source) : decl.span.Sharp script.source :=
    h.sharp_of_import (List.mem_filter.mp hmem).1
  simp only [grouped, List.mem_append] at he
  rcases he with ((he | he) | he) | he
  · obtain ⟨decl, hmem, hwidens⟩ := widens_of_mem_base hbase he
    exact hwidens.fits (hdecl hmem)
  · obtain ⟨change, hchange, hwidens⟩ := widens_of_mem_apiEdits he
    obtain ⟨decl, hmem, hspan⟩ := mem_changes hchange
    rw [hspan] at hwidens
    exact hwidens.fits (hdecl hmem)
  · obtain ⟨-, q, hspan, rfl | ⟨decl, hmem, rfl⟩⟩ := mem_aboveEdits he
    · exact Edit.fits_of_insert hspan (Text.boundary_zero _)
    · exact Edit.fits_of_insert hspan (h.sharp_of_import hmem).opens.boundary
  · obtain ⟨n, hn, -, hspan⟩ := has_of_mem_memberEdits he
    exact Span.Sharp.fits (hspan ▸ h.sharp_of_has hn)

theorem grouped_pairwise (h : script.program.Laid script.source) :
    (grouped script base added).Pairwise fun a b => a.span.Apart b.span := by
  have happ {a : Edit}
      (ha : a ∈ (apiEdits script.source script.style added (changes script)).1) :
      ∃ decl ∈ script.program.importsFrom apiPackage, script.source.Widens decl.span a.span := by
    obtain ⟨change, hchange, hwidens⟩ := widens_of_mem_apiEdits ha
    obtain ⟨decl, hmem, hspan⟩ := mem_changes hchange
    exact ⟨decl, hmem, hspan ▸ hwidens⟩
  simp only [grouped, List.pairwise_append]
  refine ⟨⟨⟨?_, apiEdits_pairwise (changes_pairwise h), ?_⟩, ?_, ?_⟩, memberEdits_pairwise h, ?_⟩
  · rcases hbase with rfl | ⟨-, _, -, _, rfl⟩
    · exact .nil
    · exact List.pairwise_singleton _ _
  · intro a ha b hb
    obtain ⟨declA, hdeclA, hA⟩ := widens_of_mem_base hbase ha
    obtain ⟨declB, hdeclB, hB⟩ := happ hb
    exact base_apart_api h hdeclA hdeclB hA hB
  · unfold aboveEdits
    split
    · exact .nil
    · exact List.pairwise_singleton _ _
  · -- a new import goes above only if no import is rewritten
    intro a ha b hb
    obtain ⟨new, hleft⟩ := Option.isSome_iff_exists.mp (mem_aboveEdits hb).1
    obtain ⟨hchanges, hadded⟩ := apiEdits_left hleft
    rw [hchanges] at ha
    rcases hbase with rfl | ⟨hnone, -⟩
    · cases (List.mem_append.mp ha).elim id id
    · rw [hnone] at hadded
      cases hadded
  · intro a ha b hb
    obtain ⟨n, hn, hproper, hspan⟩ := has_of_mem_memberEdits hb
    rw [hspan]
    rcases List.mem_append.mp ha with ha | ha
    · have hdecl : ∃ decl ∈ script.program.imports, script.source.Widens decl.span a.span := by
        rcases List.mem_append.mp ha with ha | ha
        · obtain ⟨decl, hmem, hwidens⟩ := widens_of_mem_base hbase ha
          exact ⟨decl, (List.mem_filter.mp hmem).1, hwidens⟩
        · obtain ⟨decl, hmem, hwidens⟩ := happ ha
          exact ⟨decl, (List.mem_filter.mp hmem).1, hwidens⟩
      obtain ⟨decl, hmem, hwidens⟩ := hdecl
      exact h.apart_import hmem hwidens hn hproper
    · obtain ⟨-, q, hspan', rfl | ⟨decl, hmem, rfl⟩⟩ := mem_aboveEdits ha
      · rw [hspan']
        exact .inl (Nat.zero_le _)
      · obtain ⟨parts, hbody⟩ := Program.mem_imports.mp hmem
        rw [hspan']
        exact h.apart_start (Program.mem_nodes_of_mem_body hbody) hn

end Grouped

theorem patch_lossless (h : script.program.Laid script.source) :
    Edit.Lossless script.source (patch script).edits := by
  obtain ⟨base, added, heq, hbase⟩ := patch_edits script
  rw [heq, Edit.lossless_iff fun e => grouped_fits hbase h]
  exact grouped_pairwise hbase h

end Patch

end UiImports

namespace PageConfig

variable {script : Script}

theorem sharp_of_mem_sites (h : script.program.Laid script.source) {c : Component}
    (hexport : script.program.defaultExport = .component c) {site : Site}
    (hsite : site ∈ sites script.program c) : site.remove.Sharp script.source := by
  rcases List.mem_append.mp hsite with hsite | hsite
  · cases c with
    | ofClass shape =>
      obtain ⟨⟨span, object⟩, hconfig, rfl⟩ := List.mem_map.mp hsite
      obtain ⟨name, head, init, hfield⟩ := Program.mem_configs hconfig
      obtain ⟨n, hn, -, _, hclass⟩ := (Program.declares_of_defaultExport hexport).classDef
      have htidy := (h.tidy n hn).of_mem hclass
      exact ((Node.tidy_iff.mp htidy).2 _ (List.mem_append_right _ hfield)).sharp
    | ofFunction => cases hsite
  · split at hsite
    · cases hsite
    · obtain ⟨⟨owner, span, object⟩, hassigned, hsite⟩ := List.mem_filterMap.mp hsite
      dsimp only at hsite
      split at hsite
      · cases hsite
        obtain ⟨_, _, _, hn⟩ := Program.mem_assignedConfigs hassigned
        exact (h.tidy _ (Program.mem_nodes_of_mem_body hn)).sharp
      · cases hsite

theorem patch_lossless (h : script.program.Laid script.source) {entry : Path} {patch : Patch}
    (hpatch : PageConfig.patch entry script = .ok patch) :
    Edit.Lossless script.source patch.edits := by
  have hnone : Edit.Lossless script.source [] :=
    (Edit.lossless_iff (by simp)).mpr .nil
  unfold PageConfig.patch at hpatch
  split at hpatch
  · cases hpatch
    exact hnone
  · split at hpatch
    · cases hpatch
    · cases hpatch
    · cases hpatch
    · rename_i c hexport
      split at hpatch
      · cases hpatch
        exact hnone
      · rename_i site hsites
        cases hpatch
        have hsharp := sharp_of_mem_sites h hexport (hsites ▸ List.mem_singleton_self site)
        refine (Edit.lossless_iff fun e he => ?_).mpr (List.pairwise_singleton _ _)
        rw [List.mem_singleton.mp he]
        exact Text.Widens.fits (.inr rfl) hsharp
      · cases hpatch

end PageConfig

/-- In a module that can be parsed, the edits of each pass are all carried out, and so are those of
the build configuration. -/
theorem parse_lossless {path : Path} {source : Text} {script : Script}
    (hparse : Script.parse path source = .ok script) :
    (∀ pass ∈ Pass.standard, ∀ entry patch, pass.patch entry script = .ok patch →
      Edit.Lossless script.source patch.edits) ∧
    ∀ options config root, BuildConfig.find? script.program = some (config, root) →
      Edit.Lossless script.source
        (BuildConfig.edits script.source script.style options config) := by
  obtain ⟨-, hlaid⟩ := Script.parse_laid hparse
  refine ⟨fun pass hpass entry patch hpatch => ?_, fun options config root hfind => ?_⟩
  · simp only [Pass.standard, List.mem_cons, List.not_mem_nil, or_false] at hpass
    rcases hpass with rfl | rfl | rfl
    · cases hpatch
      exact Router.patch_lossless hlaid
    · cases hpatch
      exact UiImports.patch_lossless hlaid
    · exact PageConfig.patch_lossless hlaid hpatch
  · exact BuildConfig.edits_lossless hlaid hfind script.style options

/-- A module in which every pass has something to do, and which holds a build configuration, too. -/
def crowdedText : Text :=
  ("import Api, \x7b memo \x7d from '@tarojs/taro'\nimport 'react';\nx = \x7b sourceRoot: 's', " ++
    "defineConstants: \x7b\x7d \x7d\nexport default class A extends Api.Component \x7b\n  " ++
    "config = \x7b\x7d;\n  f() \x7b return this.$router \x7d\n\x7d").toList

/-- How many edits each pass records, and how many go with the build configuration. -/
def editCounts (entry : Path) (script : Script) : List Nat :=
  Pass.standard.map (fun pass => ((pass.patch entry script).toOption.map (·.edits.length)).getD 0) ++
    ((BuildConfig.find? script.program).map fun (config, _) =>
      (BuildConfig.edits script.source script.style .standard config).length).toList

set_option maxRecDepth 100000 in
theorem parse_lossless_crowded :
    let entry : Path := ⟨"src/app.js"⟩
    ∃ script, Script.parse ⟨"src/a.js"⟩ crowdedText = .ok script ∧
      editCounts entry script = [3, 2, 1, 2] ∧
      (∀ pass ∈ Pass.standard, ∀ entry patch, pass.patch entry script = .ok patch →
        Edit.Lossless script.source patch.edits) ∧
      ∀ options config root, BuildConfig.find? script.program = some (config, root) →
        Edit.Lossless script.source
          (BuildConfig.edits script.source script.style options config) := by
  intro entry
  have hcounts : (Script.parse ⟨"src/a.js"⟩ crowdedText).toOption.any
      (fun script => editCounts entry script == [3, 2, 1, 2]) = true := by
    unfold crowdedText
    repeat rw [String.toList_append]
    repeat rw [String.toList_ofList]
    decide +kernel
  obtain ⟨script, hparse, hcounts⟩ := exists_ok_of_any hcounts
  exact ⟨script, hparse, eq_of_beq hcounts, parse_lossless hparse⟩

end Codemod

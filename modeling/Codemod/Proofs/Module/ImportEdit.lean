import Codemod.Module.Import
import Codemod.Proofs.Syntax.Neighbors

/-!
# Codemod.Proofs.Module.ImportEdit

Where the edits of imports stand.

An import holds nothing but strings, so an edit of one meets no other node (`Laid.apart_import`),
and the edits of two imports do not meet (`Laid.imports_pairwise`). The edit that binds one more name
rewrites an import, or is an insertion behind the last import or before the first statement
(`Script.ensureImport?_cases`); in each case it keeps off every node that is not part of an import
(`Script.ensureImport?_apart`).
-/

namespace Codemod

namespace Node

/-- Neither an import nor a string in it, and more than a `;`. -/
def isProper : Node → Bool
  | .string .. | .importDecl .. | .other .. => false
  | _ => true

variable {source : Text} {y : Node}

theorem solid_of_isProper (h : y.isProper = true) : y.Solid := by
  rintro span rfl
  cases h

theorem solid_importDecl (decl : ImportDeclaration) (parts : List Node) :
    (importDecl decl parts).Solid := by
  intro span h
  cases h

theorem Tidy.isProper_of_import {decl : ImportDeclaration} {parts : List Node}
    (h : (importDecl decl parts).Tidy source) (hy : y ∈ (importDecl decl parts).postorder) :
    y.isProper = false := by
  rcases mem_postorder.mp hy with rfl | ⟨c, hc, hy⟩
  · rfl
  · obtain ⟨span, value, rfl⟩ := h.arranged.2 c hc
    rcases mem_postorder.mp hy with rfl | ⟨d, hd, -⟩
    · rfl
    · cases hd

end Node

namespace Program

variable {source : Text} {p : Program} {a b : ImportDeclaration} {out outA outB : Span}

theorem mem_imports : a ∈ p.imports ↔ ∃ parts, .importDecl a parts ∈ p.body := by
  rw [imports, List.mem_filterMap]
  constructor
  · rintro ⟨n, hn, heq⟩
    split at heq
    · cases heq
      exact ⟨_, hn⟩
    · cases heq
  · rintro ⟨parts, hn⟩
    exact ⟨_, hn, rfl⟩

theorem mem_nodes_of_mem_body {n : Node} (h : n ∈ p.body) : n ∈ p.nodes :=
  List.mem_append_right _ h

namespace Laid

theorem sharp_of_import (h : p.Laid source) (ha : a ∈ p.imports) : a.span.Sharp source := by
  obtain ⟨parts, hn⟩ := mem_imports.mp ha
  exact (h.tidy _ (mem_nodes_of_mem_body hn)).sharp

/-- An edit of an import meets no other node. -/
theorem apart_import (h : p.Laid source) (ha : a ∈ p.imports)
    (hout : source.Widens a.span out) {y : Node} (hy : p.Has y) (hproper : y.isProper = true) :
    out.Apart y.span := by
  obtain ⟨parts, hn⟩ := mem_imports.mp ha
  obtain ⟨b, hb, hy⟩ := hy
  rcases h.apart_widened (mem_nodes_of_mem_body hn) hb hout hy (Node.solid_of_isProper hproper) with
    rfl | hapart
  · rw [(h.tidy _ hb).isProper_of_import hy] at hproper
    cases hproper
  · exact hapart

/-- Nor does it meet an edit of another statement. -/
theorem widened_apart_import (h : p.Laid source) (ha : a ∈ p.imports)
    (hA : source.Widens a.span outA) {n : Node} (hn : n ∈ p.nodes) (hsolid : n.Solid)
    (hB : source.Widens n.span outB) (hne : ∀ parts, n ≠ .importDecl a parts) :
    outA.Apart outB := by
  obtain ⟨parts, hmem⟩ := mem_imports.mp ha
  rcases h.widened_apart_widened (mem_nodes_of_mem_body hmem) hn (Node.solid_importDecl a parts)
    hsolid hA hB with heq | hapart
  · exact absurd heq.symm (hne parts)
  · exact hapart

theorem imports_apart (h : p.Laid source) (ha : a ∈ p.imports) (hb : b ∈ p.imports) (hne : a ≠ b)
    (hA : source.Widens a.span outA) (hB : source.Widens b.span outB) : outA.Apart outB := by
  obtain ⟨parts, hn⟩ := mem_imports.mp hb
  refine h.widened_apart_import ha hA (mem_nodes_of_mem_body hn) (Node.solid_importDecl b parts)
    hB ?_
  rintro parts' heq
  cases heq
  exact hne rfl

theorem nodup_imports (h : p.Laid source) : p.imports.Nodup := by
  have hbody : p.body.Pairwise Node.Before := h.row.ordered.sublist (List.sublist_append_right _ _)
  have hspans : p.body.Pairwise fun m n => m.span ≠ n.span := by
    refine hbody.imp_of_mem fun {m n} hm _ hmn heq => ?_
    have hle := hmn m (Node.mem_postorder_self m) n (Node.mem_postorder_self n)
    have hlt := (h.tidy m (mem_nodes_of_mem_body hm)).sharp.lt
    rw [← heq] at hle
    omega
  refine List.pairwise_filterMap.mpr (hspans.imp fun {m n} hne a ha b hb => ?_)
  rintro rfl
  split at ha <;> cases ha
  split at hb <;> cases hb
  exact hne rfl

/-- The edits of the imports do not meet. -/
theorem imports_pairwise (h : p.Laid source) : p.imports.Pairwise fun a b =>
    ∀ outA outB, source.Widens a.span outA → source.Widens b.span outB → outA.Apart outB :=
  h.nodup_imports.imp_of_mem fun ha hb hne _ _ hA hB => h.imports_apart ha hb hne hA hB

end Laid

end Program

namespace Script

variable {script : Script} {source name : String} {e : Edit}

/-- Where the edit that binds one more name goes. -/
inductive BindsAt (script : Script) : Span → Prop
  /-- In the place of an import that has a clause. -/
  | extended (decl : ImportDeclaration) (hmem : decl ∈ script.program.imports)
      (hclause : decl.specifiers.isSome) : BindsAt script (script.source.statementSpan decl.span)
  /-- Behind the last import. -/
  | last (decl : ImportDeclaration) (hlast : script.program.imports.getLast? = some decl) :
      BindsAt script ⟨(script.source.statementSpan decl.span).stop,
        (script.source.statementSpan decl.span).stop⟩
  /-- Before the first statement. -/
  | first (n : Node) (hnone : script.program.imports = [])
      (hfirst : script.program.body.head? = some n) :
      BindsAt script ⟨n.span.start, n.span.start⟩
  /-- At the beginning of a module without statements. -/
  | alone (hnone : script.program.body = []) : BindsAt script ⟨0, 0⟩

theorem insertImport_bindsAt (script : Script) (text : Text) :
    script.BindsAt (script.insertImport text).span := by
  rw [insertImport]
  split
  · rename_i decl hlast
    exact .last decl hlast
  · rename_i hnone
    cases hbody : script.program.body with
    | nil => exact .alone hbody
    | cons n ns =>
      exact .first n (List.getLast?_eq_none_iff.mp hnone) (by rw [hbody]; rfl)

theorem ensureImport?_bindsAt (h : script.ensureImport? source name = some e) :
    script.BindsAt e.span := by
  simp only [ensureImport?] at h
  split at h
  · cases h
  · split at h
    · rename_i span clause hhead
      obtain ⟨text, -, rfl⟩ := Option.map_eq_some_iff.mp h
      obtain ⟨decl, hdecl, hclause⟩ := List.mem_filterMap.mp (List.mem_of_mem_head? hhead)
      obtain ⟨clause', hclause', heq⟩ := Option.map_eq_some_iff.mp hclause
      cases heq
      refine .extended decl (List.mem_filter.mp hdecl).1 ?_
      rw [ImportClause.ofDeclaration?] at hclause'
      cases hspecifiers : decl.specifiers with
      | none => rw [hspecifiers] at hclause'; cases hclause'
      | some specifiers => rfl
    · obtain ⟨text, -, rfl⟩ := Option.map_eq_some_iff.mp h
      exact insertImport_bindsAt script text

namespace BindsAt

variable {span : Span}

theorem fits (h : script.BindsAt e.span) (hlaid : script.program.Laid script.source) :
    e.Fits script.source := by
  generalize hspan : e.span = span at h
  cases h with
  | extended decl hmem =>
    exact Text.Widens.fits (.inl hspan) (hlaid.sharp_of_import hmem)
  | last decl hlast =>
    have hsharp := hlaid.sharp_of_import (List.mem_of_getLast? hlast)
    exact Edit.fits_of_insert hspan (Text.closes_statementSpan hsharp.closes).boundary
  | first n hnone hfirst =>
    have hn := Program.mem_nodes_of_mem_body (List.mem_of_mem_head? hfirst)
    exact Edit.fits_of_insert hspan (hlaid.tidy n hn).sharp.opens.boundary
  | alone => exact Edit.fits_of_insert hspan (Text.boundary_zero _)

/-- The edit keeps off every node that is not part of an import. -/
theorem apart (h : script.BindsAt span) (hlaid : script.program.Laid script.source) {y : Node}
    (hy : script.program.Has y) (hproper : y.isProper = true) : span.Apart y.span := by
  cases h with
  | extended decl hmem => exact hlaid.apart_import hmem (.inl rfl) hy hproper
  | last decl hlast =>
    have hmem := List.mem_of_getLast? hlast
    have hapart := hlaid.apart_import hmem (.inl rfl) hy hproper
    refine hapart.mono ⟨?_, Nat.le_refl _⟩ (.refl _)
    rw [Text.statementSpan_start]
    exact Nat.le_trans (hlaid.sharp_of_import hmem).lt.le (Text.stop_le_statementSpan _ _)
  | first n hnone hfirst =>
    exact hlaid.apart_start (Program.mem_nodes_of_mem_body (List.mem_of_mem_head? hfirst)) hy
  | alone => exact .inl (Nat.zero_le _)

end BindsAt

end Script

end Codemod

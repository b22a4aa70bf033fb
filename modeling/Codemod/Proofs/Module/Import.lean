import Codemod.Module.Import
import Codemod.Proofs.Syntax.Amend

/-!
# Codemod.Proofs.Module.Import

Imports as nodes of a tree.

`ImportClause.node` is the declaration that a clause is written as, and `Node.clause?` reads it
back. `ensured` is what the top of a module comes to once a name is bound from a package.
-/

namespace Codemod

namespace ImportClause

def specifiers (c : ImportClause) : List ImportSpecifier :=
  c.main.toList.map (.main .nowhere) ++ c.named.map fun n => .named n.imported n.name n.typeOnly

/-- The declaration that a clause is written as. -/
def node (c : ImportClause) : Node :=
  .importDecl ⟨.nowhere, false, some c.specifiers, c.source, .nowhere⟩ [.string .nowhere c.source]

theorem foldlM_add?_mapSpans (g : Span → Span) (specifiers : List ImportSpecifier)
    (c : ImportClause) :
    (specifiers.map (ImportSpecifier.mapSpans g)).foldlM add? c = specifiers.foldlM add? c := by
  rw [List.foldlM_map]
  congr
  funext c specifier
  cases specifier <;> rfl

theorem ofDeclaration?_mapSpans (g : Span → Span) (d : ImportDeclaration) :
    ofDeclaration? (d.mapSpans g) = ofDeclaration? d := by
  obtain ⟨span, typeOnly, specifiers, source, sourceSpan⟩ := d
  cases specifiers with
  | none => rfl
  | some specifiers => exact foldlM_add?_mapSpans g specifiers (none source)

theorem foldlM_add?_named (named : List NamedImport) (c : ImportClause) :
    (named.map fun n => ImportSpecifier.named n.imported n.name n.typeOnly).foldlM add? c =
      some { c with named := c.named ++ named } := by
  induction named generalizing c with
  | nil => simp
  | cons n named ih =>
    rw [List.map_cons, List.foldlM_cons, add?, Option.bind_eq_bind, Option.bind_some, ih]
    simp

theorem ofDeclaration?_specifiers (c : ImportClause) (span sourceSpan : Span) (typeOnly : Bool) :
    ofDeclaration? ⟨span, typeOnly, some c.specifiers, c.source, sourceSpan⟩ = some c := by
  obtain ⟨main, named, source⟩ := c
  rw [ofDeclaration?, Option.bind_eq_bind, Option.bind_some, specifiers, List.foldlM_append]
  cases main with
  | none => exact foldlM_add?_named named (none source)
  | some name => exact foldlM_add?_named named _

theorem source_of_foldlM_add? {specifiers : List ImportSpecifier} {c c' : ImportClause}
    (h : specifiers.foldlM add? c = some c') : c'.source = c.source := by
  induction specifiers generalizing c with
  | nil =>
    cases h
    rfl
  | cons specifier specifiers ih =>
    rw [List.foldlM_cons, Option.bind_eq_bind, Option.bind_eq_some_iff] at h
    obtain ⟨next, hnext, h⟩ := h
    rw [ih h]
    cases specifier with
    | main span name | named imported name typeOnly =>
      cases hnext
      rfl
    | all name => cases hnext

theorem source_of_ofDeclaration? {d : ImportDeclaration} {c : ImportClause}
    (h : ofDeclaration? d = some c) : c.source = d.source := by
  rw [ofDeclaration?, Option.bind_eq_bind, Option.bind_eq_some_iff] at h
  obtain ⟨specifiers, -, h⟩ := h
  exact source_of_foldlM_add? h

theorem isSome_render? {c : ImportClause} (style : Style) (h : c.main.isSome ∨ c.named ≠ []) :
    ∃ text, c.render? style = some text := by
  rw [render?, if_neg]
  · exact ⟨_, rfl⟩
  · rw [List.isEmpty_iff, List.append_eq_nil_iff]
    rintro ⟨hmain, hnamed⟩
    rcases h with h | h
    · obtain ⟨name, hname⟩ := Option.isSome_iff_exists.mp h
      simp [hname] at hmain
    · simp [h] at hnamed

end ImportClause

namespace Node

/-- What an import of a package binds. -/
def clause? (source : String) : Node → Option ImportClause
  | importDecl d _ =>
    if d.source == source && !d.typeOnly then ImportClause.ofDeclaration? d else none
  | _ => none

theorem source_of_clause? {source : String} {n : Node} {c : ImportClause}
    (h : n.clause? source = some c) : c.source = source := by
  cases n with
  | importDecl d parts =>
    rw [clause?] at h
    split at h
    · rename_i hsource
      rw [Bool.and_eq_true, beq_iff_eq] at hsource
      rw [ImportClause.source_of_ofDeclaration? h, hsource.1]
    · cases h
  | _ => cases h

theorem clause?_erase (source : String) (n : Node) : n.erase.clause? source = n.clause? source := by
  rw [erase_eq]
  cases n with
  | importDecl d ps =>
    rw [mapParts, clause?, clause?, ImportClause.ofDeclaration?_mapSpans]
    rfl
  | _ => rfl

def isImport : Node → Bool
  | importDecl .. => true
  | _ => false

end Node

/-- Puts something else in the place of the first node that has a replacement. -/
def replaceFirst? (f : Node → Option Node) : List Node → Option (List Node)
  | [] => none
  | n :: ns =>
    match f n with
    | some m => some (m :: ns)
    | none => (replaceFirst? f ns).map (n :: ·)

theorem replaceFirst?_append {f : Node → Option Node} {pre post : List Node} {n m : Node}
    (hpre : ∀ k ∈ pre, f k = none) (hn : f n = some m) :
    replaceFirst? f (pre ++ n :: post) = some (pre ++ m :: post) := by
  induction pre with
  | nil => simp [replaceFirst?, hn]
  | cons k pre ih =>
    obtain ⟨hk, hpre⟩ := List.forall_mem_cons.mp hpre
    simp [replaceFirst?, hk, ih hpre]

theorem replaceFirst?_eq_none_iff {f : Node → Option Node} {ns : List Node} :
    replaceFirst? f ns = none ↔ ∀ n ∈ ns, f n = none := by
  induction ns with
  | nil => simp [replaceFirst?]
  | cons n ns ih =>
    rw [List.forall_mem_cons, ← ih, replaceFirst?]
    cases f n <;> simp

theorem exists_of_replaceFirst? {f : Node → Option Node} {ns ms : List Node}
    (h : replaceFirst? f ns = some ms) :
    ∃ pre n m post, ns = pre ++ n :: post ∧ f n = some m ∧ ms = pre ++ m :: post := by
  induction ns generalizing ms with
  | nil => cases h
  | cons n ns ih =>
    rw [replaceFirst?] at h
    cases hf : f n with
    | some m =>
      simp only [hf, Option.some.injEq] at h
      exact ⟨[], n, m, ns, rfl, hf, h.symm⟩
    | none =>
      simp only [hf, Option.map_eq_some_iff] at h
      obtain ⟨rest, hrest, rfl⟩ := h
      obtain ⟨pre, k, m, post, rfl, hk, rfl⟩ := ih hrest
      exact ⟨n :: pre, k, m, post, rfl, hk, rfl⟩

theorem mem_of_replaceFirst? {f : Node → Option Node} {ns ms : List Node} {m : Node}
    (h : replaceFirst? f ns = some ms) (hm : m ∈ ms) : m ∈ ns ∨ ∃ n ∈ ns, f n = some m := by
  obtain ⟨pre, n, m', post, rfl, hn, rfl⟩ := exists_of_replaceFirst? h
  rcases List.mem_append.mp hm with hm | hm
  · exact .inl (List.mem_append_left _ hm)
  · rcases List.mem_cons.mp hm with rfl | hm
    · exact .inr ⟨n, by simp, hn⟩
    · exact .inl (by simp [hm])

/-- Puts an import after the last one, or at the top. -/
def insertImport (new : Node) (body : List Node) : List Node :=
  let front := (body.reverse.dropWhile fun n => !n.isImport).reverse
  front ++ new :: body.drop front.length

theorem mem_of_mem_insertImport {new n : Node} {body : List Node}
    (h : n ∈ insertImport new body) : n = new ∨ n ∈ body := by
  rw [insertImport] at h
  rcases List.mem_append.mp h with h | h
  · have hmem := (List.dropWhile_sublist _).mem (List.mem_reverse.mp h)
    exact .inr (List.mem_reverse.mp hmem)
  · rcases List.mem_cons.mp h with h | h
    · exact .inl h
    · exact .inr (List.mem_of_mem_drop h)

/-- The statements of a module once `name` is bound from `source`. -/
def ensured (source name : String) (body : List Node) : List Node :=
  let bound := body.any fun n => (n.clause? source).any (·.binds name)
  let extended := replaceFirst?
    (fun n => (n.clause? source).map fun c => (c.bind (.plain name)).node) body
  if bound then body
  else extended.getD (insertImport ((ImportClause.none source).bind (.plain name)).node body)

theorem mem_of_mem_ensured {source name : String} {n : Node} {body : List Node}
    (h : n ∈ ensured source name body) : n ∈ body ∨ ∃ c : ImportClause, n = c.node := by
  simp only [ensured] at h
  split at h
  · exact .inl h
  · cases hext : replaceFirst?
        (fun n => (n.clause? source).map fun c => (c.bind (.plain name)).node) body with
    | none =>
      rw [hext, Option.getD_none] at h
      rcases mem_of_mem_insertImport h with h | h
      · exact .inr ⟨_, h⟩
      · exact .inl h
    | some ms =>
      rw [hext, Option.getD_some] at h
      rcases mem_of_replaceFirst? hext h with h | ⟨k, -, hk⟩
      · exact .inl h
      · obtain ⟨c, -, rfl⟩ := Option.map_eq_some_iff.mp hk
        exact .inr ⟨_, rfl⟩

end Codemod

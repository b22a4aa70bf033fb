import Codemod.Pass.UiImports
import Codemod.Proofs.Module.Import

/-!
# Codemod.Proofs.Pass.UiImports

What the import pass means to do to a tree.

`UiImports.meant` is the tree that a patched module should have: `Api.symbol` has become `symbol`
everywhere, the imports of the API package are left with what does not move, and the names that
move are bound from the base package. In a module that has this tree, wherever everything stands,
the pass finds nothing to do (`not_applies_of_meant`), as long as the name of the API package is
spelled as it was.
-/

namespace Codemod

namespace UiImports

def Use.symbol? : Use → Option String
  | symbol _ name => some name
  | kept => none

/-- Uses of the API package, whatever their spans. -/
def visitSymbols (main : String) (u : Unit) (n : Node) : List (Option String) × Option Unit :=
  ((visitUses main u n).1.map Use.symbol?, (visitUses main u n).2)

theorem gather_visitSymbols (main : String) (program : Program) :
    program.gather (visitSymbols main) () =
      (program.gather (visitUses main) ()).map Use.symbol? := by
  rw [Program.gather, Program.gather, List.map_flatMap]
  refine List.flatMap_congr fun n _ => ?_
  refine Node.gather_map id Use.symbol? ?_ () n
  intro u n
  rw [visitSymbols, Option.map_id, id, id]

theorem visitSymbols_erase (main : String) (u : Unit) (n : Node) :
    visitSymbols main u n.erase = visitSymbols main u n := by
  rw [visitSymbols, visitSymbols, Node.erase_eq]
  cases n with
  | member s object name =>
    rw [Node.mapParts, Node.erase_eq object]
    cases object <;> simp only [Node.mapParts, visitUses]
    split <;> rfl
  | qualified s left name =>
    rw [Node.mapParts, Node.erase_eq left]
    cases left <;> simp only [Node.mapParts, visitUses]
    split <;> rfl
  | _ => rfl

theorem memberEdits_eq_nil {us : List Use} (h : ∀ u ∈ us, u.symbol? = none) :
    memberEdits us = [] := by
  rw [memberEdits, List.filterMap_eq_nil_iff]
  intro u hu
  cases u with
  | kept => rfl
  | symbol span name => cases h _ hu

/-- `Api.symbol` as `symbol`. -/
def simplify (main : String) (n : Node) : Node :=
  match n with
  | .member s (.reference _ x) name | .qualified s (.reference _ x) name =>
    if x == main && uiSymbols.contains name then .reference s name else n
  | n => n

theorem visitSymbols_simplify (main : String) (n : Node) :
    ∀ found ∈ (visitSymbols main () (simplify main n)).1, found = none := by
  have hreference : ∀ s name, ∀ found ∈ (visitSymbols main () (.reference s name)).1,
      found = none := by
    intro s name
    simp only [visitSymbols, visitUses]
    split <;> simp [Use.symbol?]
  cases n with
  | reference s x => exact hreference s x
  | member s object name =>
    cases object with
    | reference t x =>
      rw [simplify]
      split
      · exact hreference s name
      · rename_i hother
        simp only [visitSymbols, visitUses, if_neg hother]
        nofun
    | _ => simp [simplify, visitSymbols, visitUses]
  | qualified s left name =>
    cases left with
    | reference t x =>
      rw [simplify]
      split
      · exact hreference s name
      · rename_i hother
        simp only [visitSymbols, visitUses, if_neg hother]
        nofun
    | _ => simp [simplify, visitSymbols, visitUses]
  | _ => simp [simplify, visitSymbols, visitUses]

theorem mem_children_simplify {main : String} {n c : Node}
    (h : c ∈ (simplify main n).children) : c ∈ n.children := by
  unfold simplify at h
  split at h
  · split at h
    · cases h
    · exact h
  · split at h
    · cases h
    · exact h
  · exact h

theorem gather_simplify (main : String) (n : Node) :
    ∀ found ∈ Node.gather (visitSymbols main) () (n.amend id (simplify main)), found = none := by
  induction n using Node.inductionOn with
  | step n ih =>
    intro found hfound
    rw [Node.amend_eq] at hfound
    rcases Node.mem_gather hfound with hhere | ⟨_, -, c, hc, hfound⟩
    · exact visitSymbols_simplify main _ found hhere
    · have hpart := mem_children_simplify hc
      rw [Node.children_mapParts] at hpart
      obtain ⟨part, hmem, rfl⟩ := List.mem_map.mp hpart
      exact ih part hmem found hfound

theorem gather_visitSymbols_node (main : String) (c : ImportClause) :
    Node.gather (visitSymbols main) () c.node = [] :=
  rfl

def keepsMain (us : List Use) : Bool :=
  us.any fun
    | .kept => true
    | .symbol .. => false

/-- What an import of the API package comes to. -/
def reduced (keepMain : Bool) (n : Node) : List Node :=
  match n.clause? apiPackage with
  | none => [n]
  | some clause =>
    let rest := remaining keepMain clause
    if rest == clause then [n]
    else if rest.main.isNone && rest.named.isEmpty then []
    else [rest.node]

def isImportFrom (source : String) : Node → Bool
  | .importDecl d _ => d.source == source && !d.typeOnly
  | _ => false

/-- Puts a node before the first of those that it may stand before. -/
def place (new : Option Node) (target : Node → Bool) : List Node → List Node
  | [] => []
  | n :: ns => if target n then new.toList ++ n :: ns else n :: place new target ns

/-- The import of the base package with all names that move, if there is one to take them. -/
def extended? (moved : List NamedImport) (body : List Node) : Option (List Node) :=
  replaceFirst? (fun n => (n.clause? basePackage).map fun clause =>
    let full := { clause with main := clause.main <|> some baseName }.bindAll moved
    if full == clause then n else full.node) body

/-- What a new import of the base package binds. -/
def newBase (moved : List NamedImport) (body : List Node) : ImportClause :=
  let empty := ImportClause.none basePackage
  (if body.any (isImportFrom basePackage) then empty
    else { empty with main := some baseName }).bindAll moved

/-- A new import of the base package for the names that move. -/
def added? (moved : List NamedImport) (body : List Node) : Option Node :=
  let clause := newBase moved body
  if clause.main.isNone && clause.named.isEmpty then none else some clause.node

/-- What becomes of a statement that is no import. -/
def simplified (script : Script) (n : Node) : Node :=
  match mainName? script with
  | some main => n.amend id (simplify main)
  | none => n

/-- The module that the pass means to leave. -/
def meant (script : Script) : Program :=
  let us := uses script
  let body := script.program.body.map (simplified script)
  let clauses := body.filterMap (Node.clause? apiPackage)
  let moved := clauses.flatMap (fun c => c.named.filter isUi) ++ (memberSymbols us).map .plain
  let changes (n : Node) : Bool :=
    (n.clause? apiPackage).any fun c => remaining (keepsMain us) c != c
  let target := if body.any changes then changes else isImportFrom apiPackage
  let based := (extended? moved body).getD (place (added? moved body) target body)
  ⟨script.program.directives.map (simplified script), based.flatMap (reduced (keepsMain us))⟩

/-- What an import is left with does not name the user interface layer. -/
theorem named_remaining (keepMain : Bool) (c : ImportClause) :
    (remaining keepMain c).named.any isUi = false := by
  simp [remaining]

theorem mem_reduced {keepMain : Bool} {n m : Node} (h : m ∈ reduced keepMain n) :
    (m = n ∨ ∃ c : ImportClause, m = c.node) ∧
      ∀ c, m.clause? apiPackage = some c → c.named.any isUi = false := by
  rw [reduced] at h
  cases hclause : n.clause? apiPackage with
  | none =>
    rw [hclause, List.mem_singleton] at h
    subst h
    exact ⟨.inl rfl, by rw [hclause]; nofun⟩
  | some clause =>
    simp only [hclause] at h
    split at h
    · rename_i hsame
      rw [List.mem_singleton] at h
      subst h
      refine ⟨.inl rfl, fun c hc => ?_⟩
      rw [hclause] at hc
      cases hc
      rw [← beq_iff_eq.mp hsame]
      exact named_remaining keepMain clause
    · split at h
      · cases h
      · rw [List.mem_singleton] at h
        subst h
        refine ⟨.inr ⟨_, rfl⟩, fun c hc => ?_⟩
        rw [ImportClause.node, Node.clause?] at hc
        split at hc
        · rw [ImportClause.ofDeclaration?_specifiers] at hc
          cases hc
          exact named_remaining keepMain clause
        · cases hc

theorem mem_place {new : Option Node} {target : Node → Bool} {ns : List Node} {n : Node}
    (h : n ∈ place new target ns) : n ∈ ns ∨ new = some n := by
  induction ns with
  | nil => cases h
  | cons m ns ih =>
    rw [place] at h
    split at h
    · rcases List.mem_append.mp h with h | h
      · exact .inr (Option.mem_toList.mp h)
      · exact .inl h
    · rcases List.mem_cons.mp h with rfl | h
      · exact .inl List.mem_cons_self
      · exact (ih h).imp_left (List.mem_cons_of_mem m)

theorem mem_extended? {moved : List NamedImport} {body ns : List Node} {n : Node}
    (h : extended? moved body = some ns) (hn : n ∈ ns) :
    n ∈ body ∨ ∃ c : ImportClause, n = c.node := by
  rcases mem_of_replaceFirst? h hn with hn | ⟨m, hm, hmap⟩
  · exact .inl hn
  · obtain ⟨clause, -, rfl⟩ := Option.map_eq_some_iff.mp hmap
    dsimp only
    split
    · exact .inl hm
    · exact .inr ⟨_, rfl⟩

theorem mem_added? {moved : List NamedImport} {body : List Node} {n : Node}
    (h : added? moved body = some n) : ∃ c : ImportClause, n = c.node := by
  simp only [added?] at h
  split at h
  · cases h
  · cases h
    exact ⟨_, rfl⟩

/-- The statements of the module that is meant: each of them was there and has been simplified, or
it is an import that was written anew. -/
theorem mem_body_meant {script : Script} {m : Node} (h : m ∈ (meant script).body) :
    ((∃ n ∈ script.program.body, m = simplified script n) ∨ ∃ c : ImportClause, m = c.node) ∧
      ∀ c, m.clause? apiPackage = some c → c.named.any isUi = false := by
  simp only [meant] at h
  generalize (script.program.body.map (simplified script)).filterMap (Node.clause? apiPackage) =
    clauses at h
  generalize clauses.flatMap (fun c => c.named.filter isUi) ++
    (memberSymbols (uses script)).map .plain = moved at h
  obtain ⟨n, hn, hm⟩ := List.mem_flatMap.mp h
  obtain ⟨hm, hclause⟩ := mem_reduced hm
  refine ⟨?_, hclause⟩
  rcases hm with rfl | hm
  · have hold : m ∈ script.program.body.map (simplified script) ∨
        ∃ c : ImportClause, m = c.node := by
      cases hext : extended? moved (script.program.body.map (simplified script)) with
      | some ns =>
        rw [hext, Option.getD_some] at hn
        exact mem_extended? hext hn
      | none =>
        rw [hext, Option.getD_none] at hn
        exact (mem_place hn).imp_right mem_added?
    refine hold.imp_left fun hmem => ?_
    obtain ⟨k, hk, rfl⟩ := List.mem_map.mp hmem
    exact ⟨k, hk, rfl⟩
  · exact .inr hm

/-- Every tree of the module that is meant was there and has been simplified, or it is an import
that was written anew. -/
theorem mem_nodes_meant {script : Script} {m : Node} (h : m ∈ (meant script).nodes) :
    (∃ n ∈ script.program.nodes, m = simplified script n) ∨ ∃ c : ImportClause, m = c.node := by
  rcases List.mem_append.mp h with h | h
  · obtain ⟨n, hn, rfl⟩ := List.mem_map.mp h
    exact .inl ⟨n, List.mem_append_left _ hn, rfl⟩
  · exact (mem_body_meant h).1.imp_left fun ⟨n, hn, heq⟩ => ⟨n, List.mem_append_right _ hn, heq⟩

/-- No use of a symbol is left, under the name that the API package had. -/
theorem gather_meant {script : Script} {main : String} (hmain : mainName? script = some main) :
    ∀ found ∈ (meant script).gather (visitSymbols main) (), found = none := by
  intro found hfound
  rw [Program.gather, List.mem_flatMap] at hfound
  obtain ⟨m, hm, hfound⟩ := hfound
  rcases mem_nodes_meant hm with ⟨n, -, rfl⟩ | ⟨c, rfl⟩
  · rw [simplified, hmain] at hfound
    exact gather_simplify main n found hfound
  · rw [gather_visitSymbols_node] at hfound
    cases hfound

theorem clause?_of_mem_apiImports {program : Program} {i : ApiImport}
    (h : i ∈ apiImports program) : ∃ n ∈ program.body, n.clause? apiPackage = some i.clause := by
  obtain ⟨decl, hdecl, hi⟩ := List.mem_filterMap.mp h
  obtain ⟨clause, hclause, rfl⟩ := Option.map_eq_some_iff.mp hi
  obtain ⟨hdecl, hsource⟩ := List.mem_filter.mp hdecl
  obtain ⟨n, hn, hdecl⟩ := List.mem_filterMap.mp hdecl
  refine ⟨n, hn, ?_⟩
  cases n with
  | importDecl d ps =>
    cases hdecl
    rw [Node.clause?, if_pos hsource, hclause]
  | _ => cases hdecl

/-- In a module that has the tree that was meant, and where the API package is bound under the same
name as before, the pass finds nothing to do. -/
theorem not_applies_of_meant {script script' : Script}
    (h : script'.program.Same (meant script))
    (hmain : ∀ main, mainName? script' = some main → mainName? script = some main) :
    applies script' = false := by
  have hmembers : memberEdits (uses script') = [] := by
    rw [uses]
    cases hname : mainName? script' with
    | none => rfl
    | some main =>
      refine memberEdits_eq_nil fun u hu => ?_
      refine gather_meant (hmain main hname) _ ?_
      rw [← h.gather_eq (visitSymbols_erase main) (), gather_visitSymbols]
      exact List.mem_map.mpr ⟨u, hu, rfl⟩
  have himports : ((apiImports script'.program).any fun i => i.clause.named.any isUi) = false := by
    rw [List.any_eq_false]
    intro i hi
    obtain ⟨n, hn, hclause⟩ := clause?_of_mem_apiImports hi
    obtain ⟨m, hm, hsame⟩ := h.exists_mem_body hn
    rw [← Node.clause?_erase, ← hsame, Node.clause?_erase] at hclause
    rw [(mem_body_meant hm).2 i.clause hclause]
    nofun
  rw [applies, hmembers, himports]
  simp

end UiImports

end Codemod

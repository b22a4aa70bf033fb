import Codemod.Proofs.Pass.UiImports.Distribution
import Codemod.Proofs.Syntax.Parser.Shape

/-!
# Codemod.Proofs.Pass.UiImports.Bindings

What the imports of a module bind, before and after names have moved to the base package.

An import of the API package gives the names that move away and may lose its default; the import of
the base package takes those names and binds the package as a whole. Everything else stays
(`locals_perm`, `locals_meant_perm`). So a name is bound twice only if the base package brings in one
that something else binds (`Clashes`), and a name is lost only as the default of a second import of
the API package (`Orphaned`); `meant_binds` says that these are exactly the cases.
-/

namespace Codemod

/-- The name that a specifier binds. -/
def ImportSpecifier.local : ImportSpecifier → String
  | main _ name | all name | named _ name _ => name

namespace ImportClause

def locals (c : ImportClause) : List String :=
  c.main.toList ++ c.named.map (·.name)

theorem binds_iff (c : ImportClause) (x : String) : c.binds x = true ↔ x ∈ c.locals := by
  rw [binds, locals, Bool.or_eq_true, List.mem_append, List.any_eq_true, List.mem_map, beq_iff_eq,
    Option.mem_toList]
  simp only [beq_iff_eq]

theorem locals_of_foldlM {specifiers : List ImportSpecifier} {c c' : ImportClause}
    (hplain : ∀ specifier ∈ specifiers, specifier.isMain = false)
    (h : specifiers.foldlM add? c = some c') :
    c'.locals = c.locals ++ specifiers.map ImportSpecifier.local := by
  induction specifiers generalizing c with
  | nil =>
    cases h
    simp
  | cons specifier specifiers ih =>
    obtain ⟨hfirst, hrest⟩ := List.forall_mem_cons.mp hplain
    rw [List.foldlM_cons, Option.bind_eq_bind, Option.bind_eq_some_iff] at h
    obtain ⟨next, hnext, h⟩ := h
    rw [ih hrest h]
    cases specifier with
    | main span name => cases hfirst
    | all name => cases hnext
    | named imported name typeOnly =>
      cases hnext
      simp [locals, ImportSpecifier.local]

end ImportClause

namespace Node

/-- The names that an import binds. -/
def locals : Node → List String
  | .importDecl decl _ => (decl.specifiers.getD []).map ImportSpecifier.local
  | _ => []

theorem locals_node (c : ImportClause) : c.node.locals = c.locals := by
  simp [ImportClause.node, locals, ImportClause.specifiers, ImportClause.locals,
    ImportSpecifier.local, Function.comp_def]

theorem locals_of_clause? {n : Node} {source : String} {c : ImportClause} (hshaped : n.Shaped)
    (h : n.clause? source = some c) : n.locals = c.locals := by
  cases n with
  | importDecl decl parts =>
    rw [clause?] at h
    split at h
    · rw [ImportClause.ofDeclaration?, Option.bind_eq_bind, Option.bind_eq_some_iff] at h
      obtain ⟨specifiers, hspecifiers, h⟩ := h
      rw [Shaped, hspecifiers, Option.getD_some] at hshaped
      rw [locals, hspecifiers, Option.getD_some]
      -- only the first specifier can be a default
      cases specifiers with
      | nil =>
        cases h
        rfl
      | cons first rest =>
        rw [List.foldlM_cons, Option.bind_eq_bind, Option.bind_eq_some_iff] at h
        obtain ⟨next, hnext, h⟩ := h
        rw [ImportClause.locals_of_foldlM hshaped h]
        cases first with
        | all name => cases hnext
        | main span name | named imported name typeOnly =>
          cases hnext
          rfl
    · cases h
  | _ => cases h

theorem locals_erase (n : Node) : n.erase.locals = n.locals := by
  rw [erase_eq]
  cases n with
  | importDecl decl parts =>
    obtain ⟨span, typeOnly, specifiers, source, sourceSpan⟩ := decl
    have hspecifier : ImportSpecifier.local ∘ ImportSpecifier.mapSpans (fun _ => .nowhere) =
        ImportSpecifier.local := by
      funext specifier
      cases specifier <;> rfl
    cases specifiers <;> simp [mapParts, locals, ImportDeclaration.mapSpans, hspecifier]
  | _ => rfl

/-- Noted are the names that refer to something. -/
def visitReferences (_ : Unit) : Node → List String × Option Unit
  | .reference _ x => ([x], none)
  | _ => ([], some ())

theorem visitReferences_erase (u : Unit) (n : Node) :
    visitReferences u n.erase = visitReferences u n := by
  rw [erase_eq]
  cases n <;> rfl

end Node

namespace Program

/-- The names that the imports of a module bind. -/
def locals (p : Program) : List String :=
  p.body.flatMap Node.locals

/-- The names that a module refers to. -/
def references (p : Program) : List String :=
  p.gather Node.visitReferences ()

variable {p q : Program}

theorem Same.locals_eq (h : p.Same q) : p.locals = q.locals := by
  rw [locals, locals, List.flatMap_def, List.flatMap_def, h.map_eq Node.locals_erase]

theorem Same.references_eq (h : p.Same q) : p.references = q.references :=
  h.gather_eq Node.visitReferences_erase ()

end Program

namespace UiImports

section Parts

variable {script : Script} {n : Node} {ns : List Node} {keep : Bool} {source : String}

/-- An import stays as it is, and nothing becomes one. -/
theorem simplified_cases (script : Script) (n : Node) :
    (∃ decl parts parts', n = .importDecl decl parts ∧
      simplified script n = .importDecl decl parts') ∨
    n.isImport = false ∧ (simplified script n).isImport = false := by
  unfold simplified
  cases mainName? script with
  | none =>
    cases n with
    | importDecl decl parts => exact .inl ⟨decl, parts, parts, rfl, rfl⟩
    | _ => exact .inr ⟨rfl, rfl⟩
  | some main =>
    simp only [Node.amend_eq]
    cases n with
    | importDecl decl parts =>
      refine .inl ⟨decl, parts, parts.map (Node.amend id (simplify main)), rfl, ?_⟩
      rw [Node.mapParts, ImportDeclaration.mapSpans_id, simplify]
      · intro _ _ _ _ h
        cases h
      · intro _ _ _ _ h
        cases h
    | _ =>
      refine .inr ⟨rfl, ?_⟩
      rw [Node.mapParts]
      unfold simplify
      split
      · split <;> rfl
      · split <;> rfl
      · rfl

theorem locals_simplified (script : Script) (n : Node) :
    (simplified script n).locals = n.locals := by
  rcases simplified_cases script n with ⟨decl, parts, parts', rfl, h⟩ | ⟨h, h'⟩
  · rw [h]
    rfl
  · have hnone {m : Node} (hm : m.isImport = false) : m.locals = [] := by
      cases m with
      | importDecl => cases hm
      | _ => rfl
    rw [hnone h, hnone h']

theorem clause?_simplified (script : Script) (source : String) (n : Node) :
    (simplified script n).clause? source = n.clause? source := by
  rcases simplified_cases script n with ⟨decl, parts, parts', rfl, h⟩ | ⟨h, h'⟩
  · rw [h]
    rfl
  · have hnone {m : Node} (hm : m.isImport = false) : m.clause? source = none := by
      cases m with
      | importDecl => cases hm
      | _ => rfl
    rw [hnone h, hnone h']

theorem isImportFrom_simplified (script : Script) (source : String) (n : Node) :
    isImportFrom source (simplified script n) = isImportFrom source n := by
  rcases simplified_cases script n with ⟨decl, parts, parts', rfl, h⟩ | ⟨h, h'⟩
  · rw [h]
    rfl
  · have hnone {m : Node} (hm : m.isImport = false) : isImportFrom source m = false := by
      cases m with
      | importDecl => cases hm
      | _ => rfl
    rw [hnone h, hnone h']

/-- The names that are bound where an import of the API package was reduced. -/
def keptLocals (keep : Bool) (n : Node) : List String :=
  (reduced keep n).flatMap Node.locals

/-- The names that an import of the API package gives away. -/
def givenNames (n : Node) : List NamedImport :=
  (n.clause? apiPackage).toList.flatMap fun c => c.named.filter isUi

/-- The default that an import of the API package loses. -/
def droppedNames (keep : Bool) (n : Node) : List String :=
  if keep then [] else (n.clause? apiPackage).toList.flatMap fun c => c.main.toList

theorem keptLocals_of_none (h : n.clause? apiPackage = none) : keptLocals keep n = n.locals := by
  rw [keptLocals, reduced, h]
  exact List.append_nil _

theorem keptLocals_of_some {c : ImportClause} (h : n.clause? apiPackage = some c)
    (hlocals : n.locals = c.locals) : keptLocals keep n = (remaining keep c).locals := by
  simp only [keptLocals, reduced, h]
  split
  · rename_i hsame
    rw [List.flatMap_singleton, hlocals, beq_iff_eq.mp hsame]
  · split
    · rename_i hempty
      rw [Bool.and_eq_true, Option.isNone_iff_eq_none, List.isEmpty_iff] at hempty
      rw [ImportClause.locals, hempty.1, hempty.2]
      rfl
    · rw [List.flatMap_singleton, Node.locals_node]

/-- An import keeps what it does not give away or lose. -/
theorem locals_perm_node (keep : Bool) (hshaped : n.Shaped) : n.locals.Perm
    (keptLocals keep n ++ ((givenNames n).map (·.name) ++ droppedNames keep n)) := by
  cases hclause : n.clause? apiPackage with
  | none =>
    rw [keptLocals_of_none hclause, givenNames, droppedNames, hclause]
    simp
  | some c =>
    have hlocals := Node.locals_of_clause? hshaped hclause
    have hnamed : (c.named.map (·.name)).Perm
        ((c.named.filter fun n => !isUi n).map (·.name) ++ (c.named.filter isUi).map (·.name)) := by
      rw [← List.map_append]
      exact ((List.perm_append_comm.trans (List.filter_append_perm isUi c.named)).map _).symm
    rw [keptLocals_of_some hclause hlocals, hlocals, givenNames, droppedNames, hclause,
      ImportClause.locals, ImportClause.locals, remaining]
    simp only [Option.toList_some, List.flatMap_cons, List.flatMap_nil, List.append_nil]
    cases keep with
    | true =>
      simp only [if_pos, List.append_nil, List.append_assoc]
      exact hnamed.append_left _
    | false =>
      simp only [Bool.false_eq_true, if_false, Option.toList_none, List.nil_append]
      exact List.perm_append_comm.trans ((hnamed.append_right _).trans (by simp))

/-- A node that is put before another one. -/
theorem flatMap_place_perm {α : Type} (f : Node → List α) (new : Option Node)
    {target : Node → Bool} (h : ns.any target = true) :
    ((place new target ns).flatMap f).Perm (ns.flatMap f ++ new.toList.flatMap f) := by
  induction ns with
  | nil => cases h
  | cons n ns ih =>
    rw [place]
    split
    · rw [List.flatMap_append]
      exact List.perm_append_comm
    · rename_i hn
      have hn : target n = false := by simpa using hn
      rw [List.any_cons, hn, Bool.false_or] at h
      rw [List.flatMap_cons, List.flatMap_cons, List.append_assoc]
      exact (ih h).append_left _

end Parts

section Module

/-- The clause of the import that names move into. -/
def base? (p : Program) : Option ImportClause :=
  p.body.findSome? (Node.clause? basePackage)

/-- Whether the base package is bound as a whole only now. -/
def bringsBase (p : Program) : Bool :=
  match base? p with
  | some c => c.main.isNone
  | none => !p.body.any (isImportFrom basePackage)

/-- The clause that takes the names that move. -/
def taking (p : Program) : ImportClause :=
  match base? p with
  | some c => { c with main := c.main <|> some baseName }
  | none => ⟨if p.body.any (isImportFrom basePackage) then none else some baseName, [], basePackage⟩

/-- The names that move. -/
def moving (script : Script) : List NamedImport :=
  script.program.body.flatMap givenNames ++ (memberSymbols (uses script)).map .plain

/-- The defaults that are lost. -/
def dropped (script : Script) : List String :=
  script.program.body.flatMap (droppedNames (keepsMain (uses script)))

/-- The names that the import binds that names move into, before they do. -/
def keptNames (p : Program) : List String :=
  (base? p).elim [] (·.locals)

/-- The names that the imports of the API package give away. -/
def given (p : Program) : List String :=
  (p.body.flatMap givenNames).map (·.name)

/-- The names that the import of the base package binds afterwards. -/
def full (script : Script) : List String :=
  ((taking script.program).bindAll (moving script)).locals

/-- The names that are still bound, other than by the import that names move into. -/
def others (script : Script) : List String :=
  (script.program.body.eraseP fun n => (n.clause? basePackage).isSome).flatMap
    (keptLocals (keepsMain (uses script)))

variable {script : Script}

theorem clause?_api_of_base {n : Node} {c : ImportClause} (h : n.clause? basePackage = some c) :
    n.clause? apiPackage = none := by
  cases n with
  | importDecl decl parts =>
    rw [Node.clause?] at h ⊢
    split at h
    · rename_i hbase
      rw [Bool.and_eq_true, beq_iff_eq] at hbase
      rw [if_neg]
      rw [Bool.and_eq_true, beq_iff_eq, hbase.1]
      exact fun habsurd => absurd habsurd.1 (by decide)
    · cases h
  | _ => cases h

/-- The import that names move into, and what stands around it. -/
theorem exists_of_base? {p : Program} {c : ImportClause} (h : base? p = some c) :
    ∃ front n back, p.body = front ++ n :: back ∧ n.clause? basePackage = some c ∧
      (∀ k ∈ front, k.clause? basePackage = none) ∧
      (p.body.eraseP fun n => (n.clause? basePackage).isSome) = front ++ back := by
  obtain ⟨front, n, back, hbody, hn, hfront⟩ := List.findSome?_eq_some_iff.mp h
  refine ⟨front, n, back, hbody, hn, hfront, ?_⟩
  rw [hbody, List.eraseP_append_right, List.eraseP_cons_of_pos]
  · rw [hn]
    rfl
  · intro k hk
    rw [hfront k hk]
    exact Bool.false_ne_true

theorem eraseP_of_base?_eq_none {p : Program} (h : base? p = none) :
    (p.body.eraseP fun n => (n.clause? basePackage).isSome) = p.body := by
  refine List.eraseP_of_forall_not fun n hn => ?_
  rw [List.findSome?_eq_none_iff.mp h n hn]
  exact Bool.false_ne_true

/-- What is bound before: what stays bound, what the base package binds, and what moves or is
lost. -/
theorem locals_perm (hshaped : ∀ n ∈ script.program.body, n.Shaped) :
    script.program.locals.Perm ((others script ++ keptNames script.program) ++
      (given script.program ++ dropped script)) := by
  have hnodes : script.program.locals.Perm
      (script.program.body.flatMap (keptLocals (keepsMain (uses script))) ++
        (given script.program ++ dropped script)) := by
    rw [given, List.map_flatMap]
    refine (List.Perm.flatMap_left _ fun n hn =>
      locals_perm_node (keepsMain (uses script)) (hshaped n hn)).trans ?_
    exact (List.flatMap_append_perm ..).symm.trans
      ((List.flatMap_append_perm ..).symm.append_left _)
  refine hnodes.trans (List.Perm.append_right _ ?_)
  rw [others, keptNames]
  cases hbase : base? script.program with
  | none =>
    rw [eraseP_of_base?_eq_none hbase, Option.elim_none, List.append_nil]
  | some c =>
    obtain ⟨front, n, back, hbody, hn, -, herase⟩ := exists_of_base? hbase
    have hlocals : n.locals = c.locals :=
      Node.locals_of_clause? (hshaped n (by simp [hbody])) hn
    rw [herase, hbody, List.flatMap_append, List.flatMap_append, List.flatMap_cons,
      keptLocals_of_none (clause?_api_of_base hn), hlocals, Option.elim_some, List.append_assoc]
    exact List.perm_append_comm.append_left _

/-- A module that the pass applies to has an import of the API package. -/
theorem exists_import_of_applies (h : applies script = true) :
    ∃ n ∈ script.program.body, isImportFrom apiPackage n = true := by
  obtain ⟨decl, hdecl⟩ : ∃ decl, decl ∈ script.program.importsFrom apiPackage := by
    rw [applies, Bool.and_eq_true, Bool.or_eq_true] at h
    rcases h.2 with hmember | himport
    · cases hmain : mainName? script with
      | none =>
        rw [uses, hmain] at hmember
        cases hmember
      | some main =>
        obtain ⟨decl, hdecl, -⟩ := List.exists_of_findSome?_eq_some hmain
        exact ⟨decl, hdecl⟩
    · obtain ⟨i, hi, -⟩ := List.any_eq_true.mp himport
      obtain ⟨decl, hdecl, -⟩ := List.mem_filterMap.mp hi
      exact ⟨decl, hdecl⟩
  obtain ⟨hdecl, hfrom⟩ := List.mem_filter.mp hdecl
  obtain ⟨n, hn, himport⟩ := List.mem_filterMap.mp hdecl
  refine ⟨n, hn, ?_⟩
  cases n with
  | importDecl d parts =>
    cases himport
    exact hfrom
  | _ => cases himport

theorem keptLocals_simplified (keep : Bool) {n : Node} (hshaped : n.Shaped) :
    keptLocals keep (simplified script n) = keptLocals keep n := by
  have hclause := clause?_simplified script apiPackage n
  cases hn : n.clause? apiPackage with
  | none =>
    rw [keptLocals_of_none hn, keptLocals_of_none (hclause.trans hn), locals_simplified]
  | some c =>
    have hlocals := Node.locals_of_clause? hshaped hn
    rw [keptLocals_of_some hn hlocals,
      keptLocals_of_some (hclause.trans hn) ((locals_simplified script n).trans hlocals)]

theorem keptLocals_node (keep : Bool) {c : ImportClause} (h : c.source = basePackage) :
    keptLocals keep c.node = c.locals := by
  have hclause : c.node.clause? basePackage = some c := by
    rw [ImportClause.node, Node.clause?, ImportClause.ofDeclaration?_specifiers, if_pos]
    rw [h]
    rfl
  rw [keptLocals_of_none (clause?_api_of_base hclause), Node.locals_node]

/-- What is bound afterwards. -/
theorem locals_meant_perm (hshaped : ∀ n ∈ script.program.body, n.Shaped)
    (happlies : applies script = true) :
    (meant script).locals.Perm (others script ++ full script) := by
  have hmoving : ((script.program.body.map (simplified script)).filterMap
      (Node.clause? apiPackage)).flatMap (fun c => c.named.filter isUi) ++
        (memberSymbols (uses script)).map .plain = moving script := by
    rw [moving, List.filterMap_map, List.filterMap_eq_flatMap_toList, List.flatMap_assoc]
    congr 1
    refine List.flatMap_congr fun n _ => ?_
    rw [givenNames, Function.comp_apply, clause?_simplified]
  have hkept {ns : List Node} (hns : ∀ n ∈ ns, n ∈ script.program.body) :
      (ns.map (simplified script)).flatMap (keptLocals (keepsMain (uses script))) =
        ns.flatMap (keptLocals (keepsMain (uses script))) := by
    rw [List.flatMap_map]
    exact List.flatMap_congr fun n hn => keptLocals_simplified _ (hshaped n (hns n hn))
  have hflat (ns : List Node) : (ns.flatMap (reduced (keepsMain (uses script)))).flatMap
      Node.locals = ns.flatMap (keptLocals (keepsMain (uses script))) := List.flatMap_assoc
  simp only [Program.locals, meant, hmoving, hflat, others, full]
  cases hbase : base? script.program with
  | some c =>
    obtain ⟨front, n, back, hbody, hn, hfront, herase⟩ := exists_of_base? hbase
    have hlocals : n.locals = c.locals :=
      Node.locals_of_clause? (hshaped n (by simp [hbody])) hn
    have htaking : taking script.program = { c with main := c.main <|> some baseName } := by
      rw [taking, hbase]
    have hsource : ((taking script.program).bindAll (moving script)).source = basePackage := by
      rw [(takes_bindAll ..).source, htaking]
      show c.source = basePackage
      exact Node.source_of_clause? hn
    obtain ⟨m, hm, hmlocals⟩ : ∃ m, extended? (moving script)
        (script.program.body.map (simplified script)) = some (front.map (simplified script) ++
          m :: back.map (simplified script)) ∧ keptLocals (keepsMain (uses script)) m =
            ((taking script.program).bindAll (moving script)).locals := by
      refine ⟨if (taking script.program).bindAll (moving script) == c then simplified script n
        else ((taking script.program).bindAll (moving script)).node, ?_, ?_⟩
      · rw [extended?, hbody, List.map_append, List.map_cons, replaceFirst?_append]
        · intro k hk
          obtain ⟨k', hk', rfl⟩ := List.mem_map.mp hk
          rw [clause?_simplified, hfront k' hk']
          rfl
        · rw [clause?_simplified, hn, htaking]
          rfl
      · split
        · rename_i hsame
          rw [keptLocals_of_none ((clause?_simplified ..).trans (clause?_api_of_base hn)),
            locals_simplified, hlocals, beq_iff_eq.mp hsame]
        · exact keptLocals_node _ hsource
    rw [hm, Option.getD_some, List.flatMap_append, List.flatMap_cons, hmlocals, herase,
      hkept (by simp +contextual [hbody]), hkept (by simp +contextual [hbody]), List.flatMap_append,
      List.append_assoc]
    exact List.perm_append_comm.append_left _
  | none =>
    have hnone := List.findSome?_eq_none_iff.mp hbase
    have hextended : extended? (moving script)
        (script.program.body.map (simplified script)) = none := by
      refine replaceFirst?_eq_none_iff.mpr fun k hk => ?_
      obtain ⟨k', hk', rfl⟩ := List.mem_map.mp hk
      rw [clause?_simplified, hnone k' hk']
      rfl
    have hany (source : String) : (script.program.body.map (simplified script)).any
        (isImportFrom source) = script.program.body.any (isImportFrom source) := by
      rw [List.any_map]
      exact congrArg (List.any _) (funext (isImportFrom_simplified script source))
    have htaking : taking script.program = ⟨if script.program.body.any (isImportFrom basePackage)
        then none else some baseName, [], basePackage⟩ := by
      rw [taking, hbase]
    have hnew : newBase (moving script) (script.program.body.map (simplified script)) =
        (taking script.program).bindAll (moving script) := by
      rw [newBase, hany, htaking]
      split <;> rfl
    have hadded : (added? (moving script) (script.program.body.map (simplified script))).toList.flatMap
        (keptLocals (keepsMain (uses script))) =
          ((taking script.program).bindAll (moving script)).locals := by
      rw [added?, hnew]
      split
      · rename_i hempty
        rw [Bool.and_eq_true, Option.isNone_iff_eq_none, List.isEmpty_iff] at hempty
        rw [ImportClause.locals, hempty.1, hempty.2]
        rfl
      · rw [Option.toList_some, List.flatMap_singleton, keptLocals_node]
        rw [(takes_bindAll ..).source, htaking]
    rw [hextended, Option.getD_none, eraseP_of_base?_eq_none hbase, ← hadded,
      ← hkept fun n hn => hn]
    refine flatMap_place_perm _ _ ?_
    -- the new import stands above the first that changes, or above the first of all
    split
    · assumption
    · rw [hany]
      obtain ⟨n, hn, himport⟩ := exists_import_of_applies happlies
      exact List.any_eq_true.mpr ⟨n, hn, himport⟩

/-- A clause that takes names binds those that it did not bind before. -/
theorem locals_bindAll (c : ImportClause) (moved : List NamedImport) :
    ∃ fresh, (c.bindAll moved).locals = c.locals ++ fresh ∧ fresh.Nodup ∧
      (∀ x ∈ fresh, x ∈ moved.map (·.name) ∧ x ∉ c.locals) ∧
      ∀ x ∈ moved.map (·.name), x ∈ (c.bindAll moved).locals := by
  obtain ⟨hmain, -, ⟨fresh, hnamed, hsub, hnodup, hnew⟩, hbinds⟩ := takes_bindAll c moved
  have hlocals : (c.bindAll moved).locals = c.locals ++ fresh.map (·.name) := by
    rw [ImportClause.locals, hmain, hnamed, ImportClause.locals, List.map_append,
      List.append_assoc]
  refine ⟨fresh.map (·.name), hlocals, hnodup, ?_, ?_⟩
  · intro x hx
    obtain ⟨n, hn, rfl⟩ := List.mem_map.mp hx
    refine ⟨List.mem_map_of_mem (hsub.subset hn), ?_⟩
    rw [← ImportClause.binds_iff, hnew n hn]
    exact Bool.false_ne_true
  · intro x hx
    obtain ⟨n, hn, rfl⟩ := List.mem_map.mp hx
    -- the first of those that move under this name is bound
    obtain ⟨front, k, back, hmoved, hk, hfront⟩ : ∃ front k back, moved = front ++ k :: back ∧
        k.name = n.name ∧ ∀ m ∈ front, m.name ≠ n.name := by
      have hfound : (moved.find? fun k => k.name == n.name).isSome := by
        rw [List.find?_isSome]
        exact ⟨n, hn, beq_self_eq_true _⟩
      obtain ⟨k, hk⟩ := Option.isSome_iff_exists.mp hfound
      obtain ⟨hname, front, back, heq, hfront⟩ := List.find?_eq_some_iff_append.mp hk
      exact ⟨front, k, back, heq, beq_iff_eq.mp hname, by simpa using hfront⟩
    rw [← hk]
    rcases hbinds front k back hmoved with hmem | hbound | ⟨m, hm, hname⟩
    · exact List.mem_append_right _ (List.mem_map_of_mem hmem)
    · rw [hlocals]
      exact List.mem_append_left _ ((ImportClause.binds_iff ..).mp hbound)
    · exact absurd (hname.trans hk) (hfront m hm)

theorem locals_taking (p : Program) :
    (taking p).locals = (if bringsBase p then [baseName] else []) ++ keptNames p := by
  rw [taking, bringsBase, keptNames]
  cases base? p with
  | none => cases p.body.any (isImportFrom basePackage) <;> rfl
  | some c =>
    obtain ⟨main, named, source⟩ := c
    cases main <;> rfl

/-- Afterwards the import of the base package binds what it bound, the package as a whole, and what
moved. -/
theorem mem_full_iff {x : String} : x ∈ full script ↔
    (bringsBase script.program = true ∧ x = baseName) ∨ x ∈ keptNames script.program ∨
      x ∈ given script.program ∨ x ∈ memberSymbols (uses script) := by
  obtain ⟨fresh, hlocals, -, hnew, hbinds⟩ :=
    locals_bindAll (taking script.program) (moving script)
  have hmoving : (moving script).map (·.name) =
      given script.program ++ memberSymbols (uses script) := by
    rw [moving, List.map_append, List.map_map]
    exact congrArg (_ ++ ·) (List.map_id _)
  have htaking : x ∈ (taking script.program).locals ↔
      (bringsBase script.program = true ∧ x = baseName) ∨ x ∈ keptNames script.program := by
    rw [locals_taking]
    cases bringsBase script.program <;> simp
  rw [hmoving] at hnew hbinds
  simp only [List.mem_append] at hnew hbinds
  rw [← or_assoc, ← htaking]
  constructor
  · intro hx
    rw [full, hlocals, List.mem_append] at hx
    exact hx.imp_right fun hfresh => (hnew x hfresh).1
  · rintro (hx | hx)
    · rw [full, hlocals]
      exact List.mem_append_left _ hx
    · exact hbinds x hx

/-- It binds no name twice, unless one that it bound is that of the package as a whole. -/
theorem nodup_full_iff (h : (keptNames script.program).Nodup) : (full script).Nodup ↔
    (bringsBase script.program = true → baseName ∉ keptNames script.program) := by
  obtain ⟨fresh, hlocals, hfresh, hnew, -⟩ :=
    locals_bindAll (taking script.program) (moving script)
  have hapart : ∀ a ∈ (taking script.program).locals, ∀ b ∈ fresh, a ≠ b := by
    rintro a ha b hb rfl
    exact (hnew a hb).2 ha
  rw [full, hlocals, List.nodup_append, and_iff_left ⟨hfresh, hapart⟩, locals_taking]
  cases bringsBase script.program <;> simp [h]

/-- Nothing that the base package brings in is bound by something else. -/
structure Unclashing (script : Script) : Prop where
  base : bringsBase script.program = true →
    baseName ∉ others script ∧ baseName ∉ keptNames script.program
  symbols : ∀ name ∈ memberSymbols (uses script), name ∉ others script

instance (script : Script) : Decidable (Unclashing script) :=
  decidable_of_iff (_ ∧ _) ⟨fun h => ⟨h.1, h.2⟩, fun h => ⟨h.base, h.symbols⟩⟩

/-- A default of the API package that is lost, other than the first, with no name that comes in
to take its place. -/
structure Orphaned (script : Script) (name : String) : Prop where
  dropped : name ∈ dropped script
  second : mainName? script ≠ some name
  base : bringsBase script.program = true → name ≠ baseName
  symbol : name ∉ memberSymbols (uses script)

instance (script : Script) (name : String) : Decidable (Orphaned script name) :=
  decidable_of_iff (_ ∧ _ ∧ _ ∧ _)
    ⟨fun h => ⟨h.1, h.2.1, h.2.2.1, h.2.2.2⟩, fun h => ⟨h.dropped, h.second, h.base, h.symbol⟩⟩

theorem mem_references_simplify {main : String} {n : Node} (hn : ∀ s x, n ≠ .reference s x)
    (h : main ∈ Node.gather Node.visitReferences () (simplify main n)) :
    ∃ c ∈ n.children, main ∈ Node.gather Node.visitReferences () c := by
  have hself (h : main ∈ Node.gather Node.visitReferences () n) :
      ∃ c ∈ n.children, main ∈ Node.gather Node.visitReferences () c := by
    rcases Node.mem_gather h with hhere | ⟨_, -, c, hc, hbelow⟩
    · cases n with
      | reference s x => exact absurd rfl (hn s x)
      | _ => cases hhere
    · exact ⟨c, hc, hbelow⟩
  unfold simplify at h
  split at h
  · split at h
    · rename_i t x name hfires
      rw [Bool.and_eq_true, beq_iff_eq] at hfires
      exact ⟨_, List.mem_singleton_self _, by rw [hfires.1]; exact List.mem_singleton_self _⟩
    · exact hself h
  · split at h
    · rename_i t x name hfires
      rw [Bool.and_eq_true, beq_iff_eq] at hfires
      exact ⟨_, List.mem_singleton_self _, by rw [hfires.1]; exact List.mem_singleton_self _⟩
    · exact hself h
  · exact hself h

/-- What refers to the name of the API package afterwards is a reference that was there, or a name
of the user interface layer that is the same. -/
theorem mem_visitUses_of_refers {main : String} {n : Node}
    (h : main ∈ Node.gather Node.visitReferences () (n.amend id (simplify main))) :
    .kept ∈ Node.gather (visitUses main) () n ∨
      ∃ s, .symbol s main ∈ Node.gather (visitUses main) () n := by
  induction n using Node.inductionOn with
  | step n ih =>
    rw [Node.amend_eq] at h
    rw [Node.gather_eq]
    rcases visitUses_cases main n with ⟨name, ⟨hname, s, t, rfl | rfl⟩, heq⟩ | ⟨s, x, rfl, heq⟩ |
      ⟨-, hreference, heq⟩
    · rw [heq]
      have hsimplified : simplify main ((Node.member s (.reference t main) name).mapParts id
          (Node.amend id (simplify main))) = .reference s name := by
        simp [Node.mapParts, Node.amend_eq, simplify, hname]
      rw [hsimplified] at h
      cases List.mem_singleton.mp h
      exact .inr ⟨_, List.mem_singleton_self _⟩
    · rw [heq]
      have hsimplified : simplify main ((Node.qualified s (.reference t main) name).mapParts id
          (Node.amend id (simplify main))) = .reference s name := by
        simp [Node.mapParts, Node.amend_eq, simplify, hname]
      rw [hsimplified] at h
      cases List.mem_singleton.mp h
      exact .inr ⟨_, List.mem_singleton_self _⟩
    · rw [heq]
      cases List.mem_singleton.mp h
      simp
    · rw [heq]
      have hparts : ∀ s x, n.mapParts id (Node.amend id (simplify main)) ≠ .reference s x := by
        intro s x
        cases n with
        | reference s x => exact absurd rfl (hreference s x)
        | _ =>
          intro h
          cases h
      obtain ⟨c, hc, hrefers⟩ := mem_references_simplify hparts h
      rw [Node.children_mapParts] at hc
      obtain ⟨part, hpart, rfl⟩ := List.mem_map.mp hc
      rcases ih part hpart hrefers with hfound | ⟨s, hfound⟩
      · exact .inl (List.mem_flatMap.mpr ⟨part, hpart, hfound⟩)
      · exact .inr ⟨s, List.mem_flatMap.mpr ⟨part, hpart, hfound⟩⟩

/-- Where the first default is lost, nothing refers to it but names that come in. -/
theorem mem_memberSymbols_of_dropped {x : String} (hmain : mainName? script = some x)
    (hdropped : x ∈ dropped script) (hrefers : x ∈ (meant script).references) :
    x ∈ memberSymbols (uses script) := by
  have hkept : Use.kept ∉ uses script := by
    intro hmem
    have hkeeps : keepsMain (uses script) = true := List.any_eq_true.mpr ⟨.kept, hmem, rfl⟩
    rw [dropped, hkeeps] at hdropped
    simp [droppedNames] at hdropped
  have huses : uses script = script.program.gather (visitUses x) () := by
    rw [uses, hmain]
  obtain ⟨m, hm, hrefers⟩ := List.mem_flatMap.mp hrefers
  rcases mem_nodes_meant hm with ⟨n, hn, rfl⟩ | ⟨c, rfl⟩
  · rw [simplified, hmain] at hrefers
    rcases mem_visitUses_of_refers hrefers with hfound | ⟨s, hfound⟩
    · exact absurd (huses ▸ List.mem_flatMap.mpr ⟨n, hn, hfound⟩) hkept
    · refine ((memberSymbols_spec _).2 x).mpr ⟨s, ?_⟩
      rw [huses]
      exact List.mem_flatMap.mpr ⟨n, hn, hfound⟩
  · cases hrefers

/-- Nothing that was bound once is bound in two of these places. -/
structure Distinct (script : Script) : Prop where
  others : (others script).Nodup
  kept : (keptNames script.program).Nodup
  others_kept : ∀ x ∈ UiImports.others script, x ∉ keptNames script.program
  given : ∀ x ∈ UiImports.given script.program,
    x ∉ UiImports.others script ∧ x ∉ keptNames script.program
  dropped : ∀ x ∈ UiImports.dropped script, x ∉ UiImports.others script ∧
    x ∉ keptNames script.program ∧ x ∉ UiImports.given script.program

theorem distinct_of_nodup (hshaped : ∀ n ∈ script.program.body, n.Shaped)
    (h : script.program.locals.Nodup) : Distinct script := by
  rw [(locals_perm hshaped).nodup_iff] at h
  simp only [List.nodup_append, List.mem_append] at h
  obtain ⟨⟨hothers, hkept, hapart⟩, ⟨-, -, hmoved⟩, hrest⟩ := h
  exact
    { others := hothers
      kept := hkept
      others_kept := fun x hx hx' => hapart x hx x hx' rfl
      given := fun x hx =>
        ⟨fun hx' => hrest x (.inl hx') x (.inl hx) rfl, fun hx' => hrest x (.inr hx') x (.inl hx) rfl⟩
      dropped := fun x hx =>
        ⟨fun hx' => hrest x (.inl hx') x (.inr hx) rfl, fun hx' => hrest x (.inr hx') x (.inr hx) rfl,
          fun hx' => hmoved x hx' x hx rfl⟩ }

/-- No name is bound twice exactly if nothing clashes. -/
theorem nodup_iff_unclashing (h : Distinct script) :
    (others script ++ full script).Nodup ↔ Unclashing script := by
  rw [List.nodup_append, and_iff_right h.others, nodup_full_iff h.kept]
  constructor
  · rintro ⟨hbase, hdisjoint⟩
    refine ⟨fun hbrings => ⟨fun hother => ?_, hbase hbrings⟩, fun name hname hother => ?_⟩
    · exact hdisjoint _ hother _ (mem_full_iff.mpr (.inl ⟨hbrings, rfl⟩)) rfl
    · exact hdisjoint _ hother _ (mem_full_iff.mpr (.inr (.inr (.inr hname)))) rfl
  · rintro ⟨hbase, hsymbols⟩
    refine ⟨fun hbrings => (hbase hbrings).2, ?_⟩
    rintro x hother _ hfull rfl
    rcases mem_full_iff.mp hfull with ⟨hbrings, rfl⟩ | hkept | hgiven | hsymbol
    · exact (hbase hbrings).1 hother
    · exact h.others_kept x hother hkept
    · exact (h.given x hgiven).1 hother
    · exact hsymbols x hsymbol hother

/-- Of the names that were bound and are referred to exactly the orphaned ones are lost. -/
theorem bound_iff_not_orphaned (hshaped : ∀ n ∈ script.program.body, n.Shaped)
    (h : Distinct script) {x : String} (hx : x ∈ script.program.locals)
    (hrefers : x ∈ (meant script).references) :
    x ∈ others script ++ full script ↔ ¬ Orphaned script x := by
  rw [List.mem_append, mem_full_iff]
  constructor
  · rintro hbound ⟨hdropped, -, hbase, hsymbol⟩
    obtain ⟨hother, hkept, hgiven⟩ := h.dropped x hdropped
    rcases hbound with hbound | ⟨hbrings, heq⟩ | hbound | hbound | hbound
    · exact hother hbound
    · exact hbase hbrings heq
    · exact hkept hbound
    · exact hgiven hbound
    · exact hsymbol hbound
  · intro hnot
    simp only [(locals_perm hshaped).mem_iff, List.mem_append] at hx
    rcases hx with (hother | hkept) | hgiven | hdropped
    · exact .inl hother
    · exact .inr (.inr (.inl hkept))
    · exact .inr (.inr (.inr (.inl hgiven)))
    · -- a default that is lost is bound again, or it is orphaned
      by_contra hunbound
      simp only [not_or, not_and] at hunbound
      obtain ⟨-, hbase, -, -, hsymbol⟩ := hunbound
      exact hnot ⟨hdropped, fun hmain => hsymbol (mem_memberSymbols_of_dropped hmain hdropped hrefers),
        hbase, hsymbol⟩

/-- The imports of a module that reads as the one that is meant bind no name twice exactly if nothing
clashes, and of the names that were bound and are referred to exactly the orphaned ones are lost. -/
theorem meant_binds {path : Path} {source : Text} {p' : Program}
    (hparse : Script.parse path source = .ok script) (happlies : applies script = true)
    (hnodup : script.program.locals.Nodup) (hsame : p'.Same (meant script)) :
    (p'.locals.Nodup ↔ Unclashing script) ∧
      ∀ x ∈ script.program.locals, x ∈ p'.references → (x ∈ p'.locals ↔ ¬ Orphaned script x) := by
  have hshaped := Script.parse_shaped hparse
  have hafter := locals_meant_perm hshaped happlies
  have hdistinct := distinct_of_nodup hshaped hnodup
  rw [hsame.locals_eq, hsame.references_eq, hafter.nodup_iff]
  refine ⟨nodup_iff_unclashing hdistinct, fun x hx hrefers => ?_⟩
  rw [hafter.mem_iff]
  exact bound_iff_not_orphaned hshaped hdistinct hx hrefers

/-- The default of the API package gives way to names of the base package, one of which was imported
under another name. -/
def givingText : Text :=
  ("import \x7b useState as state \x7d from 'react'\n" ++
    "import Api, \x7b Component, request as ask \x7d from '@tarojs/taro'\n" ++
    "class A extends Component \x7b f() \x7b return ask(Api.useState, state) \x7d \x7d").toList

set_option maxRecDepth 100000 in
theorem meant_binds_giving :
    ∃ script script', Script.parse ⟨"src/a.js"⟩ givingText = .ok script ∧
      script.program.locals = ["state", "Api", "Component", "ask"] ∧
      Script.parse ⟨"src/a.js"⟩ (Edit.applyAll givingText (patch script).edits) = .ok script' ∧
      script'.program.locals = ["React", "state", "Component", "useState", "ask"] ∧
      script'.program.locals.Nodup ∧ ∀ x ∈ script.program.locals, x ∈ script'.program.references →
        (x ∈ script'.program.locals ↔ ¬ Orphaned script x) := by
  have hcheck : (Script.parse ⟨"src/a.js"⟩ givingText).toOption.any (fun script =>
      applies script && decide (script.program.locals = ["state", "Api", "Component", "ask"]) &&
        decide (Unclashing script) &&
        (Script.parse ⟨"src/a.js"⟩ (Edit.applyAll givingText (patch script).edits)).toOption.any
          fun script' => decide (script'.program.Same (meant script)) &&
            decide (script'.program.locals =
              ["React", "state", "Component", "useState", "ask"])) = true := by
    unfold givingText
    repeat rw [String.toList_append]
    repeat rw [String.toList_ofList]
    decide +kernel
  obtain ⟨script, hparse, hcheck⟩ := exists_ok_of_any hcheck
  simp only [Bool.and_eq_true, decide_eq_true_eq] at hcheck
  obtain ⟨⟨⟨happlies, hlocals⟩, hclear⟩, hcheck⟩ := hcheck
  obtain ⟨script', hparse', hcheck⟩ := exists_ok_of_any hcheck
  simp only [Bool.and_eq_true, decide_eq_true_eq] at hcheck
  obtain ⟨hsame, hlocals'⟩ := hcheck
  obtain ⟨hnodup, hbound⟩ := meant_binds hparse happlies (by rw [hlocals]; decide) hsame
  exact ⟨script, script', hparse, hlocals, hparse', hlocals', hnodup.mpr hclear, hbound⟩

set_option maxRecDepth 100000 in
/-- A base package that is bound as a whole already is bound so once more, and a second default of
the API package is lost while it is used. -/
theorem patch_clashes_and_orphans :
    let clashing : Text := ("import * as React from 'react'\nimport \x7b useState \x7d from 'react'\n" ++
      "import \x7b Component \x7d from '@tarojs/taro'\n").toList
    let orphaning : Text := ("import Taro, \x7b Component \x7d from '@tarojs/taro'\n" ++
      "import T2 from '@tarojs/taro'\nT2.x(Component)\n").toList
    (∃ script script', Script.parse ⟨"src/a.js"⟩ clashing = .ok script ∧
      applies script = true ∧ script.program.locals.Nodup ∧
      Script.parse ⟨"src/a.js"⟩ (Edit.applyAll clashing (patch script).edits) = .ok script' ∧
      ¬ script'.program.locals.Nodup) ∧
    ∃ script script', Script.parse ⟨"src/a.js"⟩ orphaning = .ok script ∧
      applies script = true ∧ script.program.locals.Nodup ∧
      Script.parse ⟨"src/a.js"⟩ (Edit.applyAll orphaning (patch script).edits) = .ok script' ∧
      "T2" ∈ script.program.locals ∧ "T2" ∈ script'.program.references ∧
      "T2" ∉ script'.program.locals := by
  intro clashing orphaning
  have hclash : (Script.parse ⟨"src/a.js"⟩ clashing).toOption.any (fun script =>
      decide (applies script = true ∧ script.program.locals.Nodup) &&
        (Script.parse ⟨"src/a.js"⟩ (Edit.applyAll clashing (patch script).edits)).toOption.any
          fun script' => decide (¬ script'.program.locals.Nodup)) = true := by
    unfold clashing
    rw [String.toList_append]
    repeat rw [String.toList_ofList]
    decide +kernel
  have horphan : (Script.parse ⟨"src/a.js"⟩ orphaning).toOption.any (fun script =>
      decide (applies script = true ∧ script.program.locals.Nodup) &&
        (Script.parse ⟨"src/a.js"⟩ (Edit.applyAll orphaning (patch script).edits)).toOption.any
          fun script' => decide ("T2" ∈ script.program.locals ∧ "T2" ∈ script'.program.references ∧
            "T2" ∉ script'.program.locals)) = true := by
    unfold orphaning
    rw [String.toList_append]
    repeat rw [String.toList_ofList]
    decide +kernel
  constructor
  · obtain ⟨script, hparse, hclash⟩ := exists_ok_of_any hclash
    rw [Bool.and_eq_true, decide_eq_true_eq] at hclash
    obtain ⟨⟨happlies, hnodup⟩, hclash⟩ := hclash
    obtain ⟨script', hparse', hclash⟩ := exists_ok_of_any hclash
    exact ⟨script, script', hparse, happlies, hnodup, hparse', of_decide_eq_true hclash⟩
  · obtain ⟨script, hparse, horphan⟩ := exists_ok_of_any horphan
    rw [Bool.and_eq_true, decide_eq_true_eq] at horphan
    obtain ⟨⟨happlies, hnodup⟩, horphan⟩ := horphan
    obtain ⟨script', hparse', horphan⟩ := exists_ok_of_any horphan
    exact ⟨script, script', hparse, happlies, hnodup, hparse', of_decide_eq_true horphan⟩

end Module

end UiImports

end Codemod

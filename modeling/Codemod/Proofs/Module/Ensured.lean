import Codemod.Proofs.Disk
import Codemod.Proofs.Module.ImportEdit
import Codemod.Proofs.Module.ImportText
import Codemod.Proofs.Syntax.Parser
import Codemod.Proofs.Text.Splice

/-!
# Codemod.Proofs.Module.Ensured

Binding one more name from a package.

`Script.ensureImport?` extends the first import of the package that has a clause, or adds an import
(`ensureImport?_cases`), and `ensured` does the same to the statements (`ensured_extended`,
`ensured_added`). What is written is read as one import that ends where it should, whatever comes
after it (`edit_ensures`), unless a `;` goes missing on a line that goes on
(`edit_drops_terminator`).
-/

namespace Codemod

namespace ImportClause

variable {c : ImportClause} {n : NamedImport}

theorem binds_bind (c : ImportClause) (n : NamedImport) : (c.bind n).binds n.name = true := by
  rw [bind]
  split
  · assumption
  · simp [binds]

theorem source_bind (c : ImportClause) (n : NamedImport) : (c.bind n).source = c.source := by
  rw [bind]
  split <;> rfl

theorem named_bind (h : c.binds n.name = false) : (c.bind n).named = c.named ++ [n] := by
  rw [bind, if_neg (by simp [h])]

theorem Legible.bind (h : c.Legible) (hn : n.Legible) : (c.bind n).Legible := by
  rw [ImportClause.bind]
  split
  · exact h
  · refine ⟨h.main, fun m hm => ?_⟩
    rcases List.mem_append.mp hm with hm | hm
    · exact h.named m hm
    · rw [List.mem_singleton.mp hm]
      exact hn

theorem legible_none (source : String) : (none source).Legible :=
  ⟨nofun, nofun⟩

theorem clause?_node (c : ImportClause) : c.node.clause? c.source = some c := by
  rw [node, Node.clause?, if_pos (by simp)]
  exact c.ofDeclaration?_specifiers _ _ _

end ImportClause

namespace Program

/-- Whether an import of the package binds the name. -/
def binds (p : Program) (source name : String) : Bool :=
  p.body.any fun n => (n.clause? source).any (·.binds name)

/-- The clauses of the imports of a package, with the places of the imports. -/
theorem filterMap_importsFrom (p : Program) (source : String) :
    ((p.importsFrom source).filterMap fun decl =>
      (ImportClause.ofDeclaration? decl).map fun c => (decl.span, c)) =
      p.body.filterMap fun n => (n.clause? source).map fun c => (n.span, c) := by
  rw [importsFrom, imports, List.filter_filterMap, List.filterMap_filterMap]
  refine List.filterMap_congr fun n _ => ?_
  cases n with
  | importDecl d parts =>
    rw [Node.clause?]
    simp only [Option.filter_some]
    split <;> rfl
  | _ => rfl

theorem Same.binds_eq {p q : Program} (h : p.Same q) (source name : String) :
    p.binds source name = q.binds source name := by
  have hclauses := h.map_eq (f := Node.clause? source) (Node.clause?_erase source)
  have hbinds (p : Program) : p.binds source name =
      (p.body.map (Node.clause? source)).any fun c => c.any (·.binds name) := by
    rw [List.any_map]
    rfl
  rw [hbinds, hclauses, ← hbinds]

end Program

section Statements

variable {source name : String} {body : List Node}

/-- An import is added behind the last one. -/
theorem insertImport_eq (new : Node) (body : List Node) :
    ∃ pre post, body = pre ++ post ∧ (∀ n ∈ post, n.isImport = false) ∧
      (∀ n ∈ pre.getLast?, n.isImport = true) ∧ insertImport new body = pre ++ new :: post := by
  let pre := (body.reverse.dropWhile fun n => !n.isImport).reverse
  let post := (body.reverse.takeWhile fun n => !n.isImport).reverse
  have hbody : body = pre ++ post := by
    rw [← List.reverse_append, List.takeWhile_append_dropWhile, List.reverse_reverse]
  have hdrop : body.drop pre.length = post := by
    nth_rewrite 1 [hbody]
    rw [List.drop_left]
  refine ⟨pre, post, hbody, fun n hn => ?_, fun n hn => ?_, ?_⟩
  · have hall := List.all_takeWhile (l := body.reverse) (p := fun n => !n.isImport)
    have := List.all_eq_true.mp hall n (List.mem_reverse.mp hn)
    simpa using this
  · rw [List.getLast?_reverse] at hn
    have := List.head?_dropWhile_not (fun n : Node => !n.isImport) body.reverse
    rw [hn] at this
    simpa using this
  · rw [insertImport, hdrop]

/-- The first import that has a clause is extended. -/
theorem ensured_extended {pre post : List Node} {n : Node} {c : ImportClause}
    (hbody : body = pre ++ n :: post) (hpre : ∀ m ∈ pre, m.clause? source = none)
    (hn : n.clause? source = some c)
    (h : (body.any fun n => (n.clause? source).any (·.binds name)) = false) :
    ensured source name body = pre ++ (c.bind (.plain name)).node :: post := by
  simp only [ensured, h, Bool.false_eq_true, if_false]
  rw [hbody, replaceFirst?_append (fun k hk => ?_) (by rw [hn]; rfl), Option.getD_some]
  rw [hpre k hk]
  rfl

/-- Where there is none, an import is added behind the last one. -/
theorem ensured_added (hnone : ∀ n ∈ body, n.clause? source = none) :
    ∃ pre post, body = pre ++ post ∧ (∀ n ∈ post, n.isImport = false) ∧
      (∀ n ∈ pre.getLast?, n.isImport = true) ∧
      ensured source name body =
        pre ++ ((ImportClause.none source).bind (.plain name)).node :: post := by
  have hfree : (body.any fun n => (n.clause? source).any (·.binds name)) = false := by
    rw [List.any_eq_false]
    intro n hn
    simp [hnone n hn]
  simp only [ensured, hfree, Bool.false_eq_true, if_false]
  rw [replaceFirst?_eq_none_iff.mpr (fun n hn => by rw [hnone n hn]; rfl), Option.getD_none]
  exact insertImport_eq _ body

/-- Nothing but imports is added or changed. -/
theorem flatMap_ensured {α : Type} {f : Node → List α}
    (himport : ∀ n : Node, n.isImport = true → f n = []) :
    (ensured source name body).flatMap f = body.flatMap f := by
  have hnode (c : ImportClause) : f c.node = [] := himport _ rfl
  simp only [ensured]
  split
  · rfl
  · cases hextended : replaceFirst?
        (fun n => (n.clause? source).map fun c => (c.bind (.plain name)).node) body with
    | none =>
      obtain ⟨pre, post, hbody, -, -, hinsert⟩ := insertImport_eq
        ((ImportClause.none source).bind (.plain name)).node body
      rw [Option.getD_none, hinsert, hbody, List.flatMap_append, List.flatMap_append,
        List.flatMap_cons, hnode, List.nil_append]
    | some ms =>
      obtain ⟨pre, n, m, post, rfl, hn, rfl⟩ := exists_of_replaceFirst? hextended
      obtain ⟨c, hclause, rfl⟩ := Option.map_eq_some_iff.mp hn
      have hold : f n = [] := by
        cases n with
        | importDecl decl parts => exact himport _ rfl
        | _ => cases hclause
      rw [Option.getD_some, List.flatMap_append, List.flatMap_append, List.flatMap_cons,
        List.flatMap_cons, hnode, hold]

/-- Once that is done, the name is bound. -/
theorem binds_ensured (source name : String) (directives body : List Node) :
    Program.binds ⟨directives, ensured source name body⟩ source name = true := by
  have hnew (c : ImportClause) (hc : c.source = source) (pre post : List Node) :
      Program.binds ⟨directives, pre ++ (c.bind (.plain name)).node :: post⟩ source name = true := by
    have hclause := (c.bind (.plain name)).clause?_node
    rw [ImportClause.source_bind, hc] at hclause
    have hbinds : (c.bind (.plain name)).binds name = true := c.binds_bind (.plain name)
    simp [Program.binds, hclause, hbinds]
  cases hbound : body.any fun n => (n.clause? source).any (·.binds name) with
  | true =>
    simp only [ensured, hbound, if_true]
    exact hbound
  | false =>
    cases hclauses : body.filterMap (Node.clause? source) with
    | nil =>
      obtain ⟨pre, post, -, -, -, heq⟩ := ensured_added (List.filterMap_eq_nil_iff.mp hclauses)
      rw [heq]
      exact hnew _ rfl pre post
    | cons c rest =>
      obtain ⟨pre, n, post, hbody, hpre, hn, -⟩ := List.filterMap_eq_cons_iff.mp hclauses
      rw [ensured_extended hbody hpre hn hbound]
      exact hnew c (Node.source_of_clause? hn) pre post

end Statements

namespace Script

variable {script : Script} {source name : String} {e : Edit}

theorem ensureImport?_eq (script : Script) (source name : String) :
    script.ensureImport? source name =
      if script.program.binds source name then none
      else match (script.program.body.filterMap fun n =>
          (n.clause? source).map fun c => (n.span, c)).head? with
        | some (span, c) => ((c.bind (.plain name)).render? script.style).map
            (.replace (script.source.statementSpan span))
        | none => (((ImportClause.none source).bind (.plain name)).render? script.style).map
            script.insertImport := by
  have hbinds : ((script.program.body.filterMap fun n =>
      (n.clause? source).map fun c => (n.span, c)).any fun found => found.2.binds name) =
      script.program.binds source name := by
    rw [List.any_filterMap, Program.binds]
    congr
    funext n
    cases n.clause? source <;> rfl
  rw [ensureImport?, Program.filterMap_importsFrom, ← hbinds]
  rfl

theorem style_quote (script : Script) :
    script.style.quote = '"' ∨ script.style.quote = '\'' := by
  rw [style]
  split
  · exact .inr rfl
  · dsimp only
    split
    · exact .inl rfl
    · exact .inr rfl

/-- The edit, and the clause that it writes. -/
theorem ensureImport?_cases (h : script.ensureImport? source name = some e) :
    script.program.binds source name = false ∧ ∃ c text, c.render? script.style = some text ∧
      ((∃ pre n post clause, script.program.body = pre ++ n :: post ∧
          (∀ m ∈ pre, m.clause? source = none) ∧ n.clause? source = some clause ∧
          c = clause.bind (.plain name) ∧ e = .replace (script.source.statementSpan n.span) text) ∨
        (∀ n ∈ script.program.body, n.clause? source = none) ∧
          c = (ImportClause.none source).bind (.plain name) ∧ e = script.insertImport text) := by
  rw [ensureImport?_eq] at h
  cases hbinds : script.program.binds source name with
  | true =>
    rw [hbinds, if_pos rfl] at h
    cases h
  | false =>
    rw [hbinds, if_neg Bool.false_ne_true] at h
    refine ⟨rfl, ?_⟩
    cases hclauses : script.program.body.filterMap fun n =>
        (n.clause? source).map fun c => (n.span, c) with
    | nil =>
      rw [hclauses] at h
      obtain ⟨text, htext, rfl⟩ := Option.map_eq_some_iff.mp h
      refine ⟨_, text, htext, .inr ⟨fun n hn => ?_, rfl, rfl⟩⟩
      exact Option.map_eq_none_iff.mp (List.filterMap_eq_nil_iff.mp hclauses n hn)
    | cons first rest =>
      obtain ⟨pre, n, post, hbody, hpre, hn, -⟩ := List.filterMap_eq_cons_iff.mp hclauses
      obtain ⟨clause, hclause, rfl⟩ := Option.map_eq_some_iff.mp hn
      rw [hclauses] at h
      obtain ⟨text, htext, rfl⟩ := Option.map_eq_some_iff.mp h
      refine ⟨_, text, htext, .inl ⟨pre, n, post, clause, hbody, fun m hm => ?_, hclause, rfl, rfl⟩⟩
      exact Option.map_eq_none_iff.mp (hpre m hm)

/-- There is nothing to do exactly where the name is bound already. -/
theorem ensureImport?_eq_none_iff :
    script.ensureImport? source name = none ↔ script.program.binds source name = true := by
  rw [ensureImport?_eq]
  cases hbinds : script.program.binds source name with
  | true => simp
  | false =>
    have hrender (c : ImportClause) (h : c.binds name = false) :
        (c.bind (.plain name)).render? script.style ≠ none := by
      obtain ⟨text, htext⟩ := ImportClause.isSome_render? (c := c.bind (.plain name)) script.style
        (.inr (by rw [ImportClause.named_bind h]; simp))
      rw [htext]
      exact Option.some_ne_none text
    simp only [Bool.false_eq_true, if_false, iff_false]
    split
    · rename_i span c hhead
      obtain ⟨n, hn, hc⟩ := List.mem_filterMap.mp (List.mem_of_mem_head? hhead)
      obtain ⟨c, hclause, heq⟩ := Option.map_eq_some_iff.mp hc
      cases heq
      rw [Option.map_eq_none_iff]
      refine hrender c ?_
      have := List.any_eq_false.mp hbinds n hn
      simpa [hclause] using this
    · rw [Option.map_eq_none_iff]
      exact hrender _ rfl

theorem insertImport_cases (script : Script) (text : Text) :
    (script.insertImport text).text = '\n' :: text ∨
      (script.insertImport text).text = text ++ ['\n'] ∧ script.style.semicolons = true := by
  rw [insertImport]
  split
  · exact .inl rfl
  · rename_i hlast
    refine .inr ⟨rfl, ?_⟩
    rw [style, List.getLast?_eq_none_iff.mp hlast]
    rfl

/-- The edit that binds `name` from `source`, where `c` is the clause that it writes. -/
structure Ensures (script : Script) (source name : String) (e : Edit) (c : ImportClause) : Prop where
  /-- Nothing else in the text changes. -/
  edited : Edit.applyAll script.source [e] =
    script.source.before e.span.start ++ (e.text ++ script.source.after e.span.stop)
  /-- Of the statements, one import of the package is extended, or one import is new. -/
  statements : ∃ pre post, ensured source name script.program.body = pre ++ c.node :: post ∧
    ((∃ n clause, script.program.body = pre ++ n :: post ∧ n.clause? source = some clause ∧
        c = { clause with named := clause.named ++ [.plain name] } ∧
        e.span = script.source.statementSpan n.span) ∨
      script.program.body = pre ++ post ∧ c = ⟨none, [.plain name], source⟩ ∧
        e.span.start = e.span.stop)
  /-- What is written is read as one import with that clause, up to the text that was there. -/
  reads : ∃ tail, (tail = script.source.after e.span.stop ∨
      tail = '\n' :: script.source.after e.span.stop) ∧
    ∀ (g : Grammar) (u : Parser.State), u.scope.yields = false → c.named.length < u.budget →
      u.rest = e.text ++ script.source.after e.span.stop →
      Parser.Reads (!u.dialect.types && c.named.any (·.marked)) (Parser.statement g false) tail
        (·.erase = c.node) u
  /-- In a module with these statements the name is bound, and there is nothing left to do. -/
  again : ∀ script' : Script, script'.program.Same
      ⟨script.program.directives, ensured source name script.program.body⟩ →
    script'.program.binds source name = true ∧ script'.ensureImport? source name = none

/-- The edit that binds a name is read as it was meant, wherever the import that it writes has a `;`
at its end or comes to the end of a line. -/
theorem edit_ensures {path : Path} {text : Text} (hparse : parse path text = .ok script)
    (he : script.ensureImport? source name = some e) (hname : (NamedImport.plain name).Legible)
    (hclauses : ∀ n ∈ script.program.body, ∀ c ∈ n.clause? source, c.Legible)
    (hsource : Lexer.isVerbatim script.style.quote source.toList = true)
    (hends : script.style.semicolons = true ∨
      Parser.endsImport (script.source.after e.span.stop) = true) :
    ∃ c, script.Ensures source name e c := by
  have hfits := (ensureImport?_bindsAt he).fits (Script.parse_laid hparse).2
  obtain ⟨hfree, c, written, hrender, hcases⟩ := ensureImport?_cases he
  have hbound (script' : Script) (hsame : script'.program.Same
      ⟨script.program.directives, ensured source name script.program.body⟩) :
      script'.program.binds source name = true ∧ script'.ensureImport? source name = none := by
    have hbinds := (hsame.binds_eq source name).trans (binds_ensured source name _ _)
    exact ⟨hbinds, ensureImport?_eq_none_iff.mpr hbinds⟩
  refine ⟨c, Edit.applyAll_singleton hfits, ?_, ?_, hbound⟩
  · rcases hcases with ⟨pre, n, post, clause, hbody, hpre, hn, rfl, rfl⟩ | ⟨hnone, rfl, rfl⟩
    · refine ⟨pre, post, ensured_extended hbody hpre hn hfree, .inl ⟨n, clause, hbody, hn, ?_, rfl⟩⟩
      have hclause := List.any_eq_false.mp hfree n (by simp [hbody])
      rw [ImportClause.bind, if_neg (by simpa [hn, NamedImport.plain] using hclause)]
    · obtain ⟨pre, post, hbody, -, -, heq⟩ := ensured_added hnone
      refine ⟨pre, post, heq, .inr ⟨hbody, rfl, ?_⟩⟩
      rw [insertImport]
      split <;> rfl
  · have hlegible : c.Legible ∧ c.source = source := by
      rcases hcases with ⟨pre, n, post, clause, hbody, -, hn, rfl, -⟩ | ⟨-, rfl, -⟩
      · refine ⟨(hclauses n (by simp [hbody]) clause hn).bind hname, ?_⟩
        rw [ImportClause.source_bind, Node.source_of_clause? hn]
      · exact ⟨(ImportClause.legible_none source).bind hname, ImportClause.source_bind _ _⟩
    obtain ⟨hlegible, rfl⟩ := hlegible
    have hend : Parser.SourceText script.style c.source (script.source.after e.span.stop) :=
      ⟨script.style_quote, hsource, hends⟩
    have hform : e.text = written ∨ e.text = '\n' :: written ∨
        e.text = written ++ ['\n'] ∧ script.style.semicolons = true := by
      rcases hcases with ⟨pre, n, post, clause, -, -, -, -, rfl⟩ | ⟨-, -, rfl⟩
      · exact .inl rfl
      · exact .inr (script.insertImport_cases written)
    rcases hform with hform | hform | ⟨hform, hsemi⟩
    · refine ⟨_, .inl rfl, fun g u hscope hbudget hrest => ?_⟩
      exact Parser.statement_reads hlegible hrender hend hscope hbudget [] rfl
        (by rw [hrest, hform]; rfl) g
    · refine ⟨_, .inl rfl, fun g u hscope hbudget hrest => ?_⟩
      exact Parser.statement_reads hlegible hrender hend hscope hbudget ['\n'] rfl
        (by rw [hrest, hform]; rfl) g
    · refine ⟨_, .inr rfl, fun g u hscope hbudget hrest => ?_⟩
      exact Parser.statement_reads hlegible hrender ⟨script.style_quote, hsource, .inl hsemi⟩ hscope
        hbudget [] rfl (by rw [hrest, hform]; simp) g

/-- An import without a `;` is extended, with a comment behind it. -/
def looseText : Text :=
  "import 'x'\nimport a, \x7b type b as c \x7d from 'p' // ;\nf(a)".toList

set_option maxRecDepth 100000 in
theorem edit_ensures_loose :
    ∃ script e, parse ⟨"src/a.ts"⟩ looseText = .ok script ∧
      script.ensureImport? "p" "n" = some e ∧
      Edit.applyAll script.source [e] =
        "import 'x'\nimport a, \x7b type b as c, n \x7d from 'p' // ;\nf(a)".toList ∧
      ∃ c, script.Ensures "p" "n" e c := by
  have hcheck : (parse ⟨"src/a.ts"⟩ looseText).toOption.any (fun script =>
      (script.ensureImport? "p" "n").any fun e =>
        Edit.applyAll script.source [e] ==
          "import 'x'\nimport a, \x7b type b as c, n \x7d from 'p' // ;\nf(a)".toList &&
        Parser.endsImport (script.source.after e.span.stop) &&
        decide (∀ n ∈ script.program.body, ∀ c ∈ n.clause? "p", c.Legible) &&
        Lexer.isVerbatim script.style.quote "p".toList) = true := by
    unfold looseText
    repeat rw [String.toList_ofList]
    decide +kernel
  obtain ⟨script, hparse, hcheck⟩ := exists_ok_of_any hcheck
  obtain ⟨e, he, hcheck⟩ := (Option.any_eq_true _ _).mp hcheck
  simp only [Bool.and_eq_true, beq_iff_eq, decide_eq_true_eq] at hcheck
  obtain ⟨⟨⟨htext, hends⟩, hclauses⟩, hsource⟩ := hcheck
  exact ⟨script, e, hparse, he, htext,
    edit_ensures hparse he (by decide) hclauses hsource (.inr hends)⟩

set_option maxRecDepth 100000 in
/-- The `;` that the first import has not is dropped from another, on a line that goes on. -/
theorem edit_drops_terminator :
    ∃ script e, parse ⟨"src/a.js"⟩ "import 'x'\nimport a from 'p'; f(a)".toList = .ok script ∧
      script.ensureImport? "p" "n" = some e ∧
      Edit.applyAll script.source [e] =
        "import 'x'\nimport a, \x7b n \x7d from 'p' f(a)".toList ∧
      (parse ⟨"src/a.js"⟩ (Edit.applyAll script.source [e])).toOption.isSome = false := by
  have hcheck : (parse ⟨"src/a.js"⟩ "import 'x'\nimport a from 'p'; f(a)".toList).toOption.any
      (fun script => (script.ensureImport? "p" "n").any fun e =>
        Edit.applyAll script.source [e] ==
          "import 'x'\nimport a, \x7b n \x7d from 'p' f(a)".toList &&
        !(parse ⟨"src/a.js"⟩ (Edit.applyAll script.source [e])).toOption.isSome) = true := by
    repeat rw [String.toList_ofList]
    decide +kernel
  obtain ⟨script, hparse, hcheck⟩ := exists_ok_of_any hcheck
  obtain ⟨e, he, hcheck⟩ := (Option.any_eq_true _ _).mp hcheck
  rw [Bool.and_eq_true, beq_iff_eq, Bool.not_eq_true'] at hcheck
  exact ⟨script, e, hparse, he, hcheck⟩

end Script

end Codemod

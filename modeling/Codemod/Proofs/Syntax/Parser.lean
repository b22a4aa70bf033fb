import Codemod.Script
import Codemod.Proofs.Syntax.Parser.Statement

/-!
# Codemod.Proofs.Syntax.Parser

The layout of a parsed module.

* `Program.Laid`: how the statements of a module lie in its text, and everything in them.
* `Script.parse_laid`: every module that can be parsed is laid out so.
* `Script.parse_forall`: what holds of each statement that is read holds of all that are parsed.
-/

namespace Codemod

namespace Parser

variable {source : Text} {s : State}

/-- The grammar, unfolded as often as one likes, reads what it should. -/
theorem grammar_sound (source : Text) (depth : Nat) : Grammar.Sound source (grammar depth) := by
  induction depth with
  | zero =>
    have hstop (n : Nonterminal) (Q : Node → State → Prop) (s : State) :
        Yields (grammar 0 n) Q s := (yields_of_error rfl).mpr trivial
    exact {
      expression := fun s _ => hstop _ _ s
      assignment := fun _ s _ => hstop _ _ s
      binary := fun _ s _ => hstop _ _ s
      unary := fun s _ => hstop _ _ s
      operand := fun s _ => hstop _ _ s
      callee := fun s _ => hstop _ _ s
      type := fun s _ => hstop _ _ s
      pattern := fun s _ => hstop _ _ s
      statement := fun _ s _ => hstop _ _ s
      markup := fun _ _ s _ => hstop _ _ s }
  | succ depth ih =>
    exact {
      expression := expression_sound ih
      assignment := assignment_sound ih
      binary := binary_sound ih
      unary := unary_sound ih
      operand := operand_sound ih
      callee := callee_sound ih
      type := type_sound ih
      pattern := pattern_sound ih
      statement := fun single s hs => statement_run ih single hs
      markup := fun start inside s hs => markup_run ih hs }

/-- The statements `ns` of a module were read so far. -/
structure Listed (source : Text) (ns : List Node) (s : State) : Prop where
  placed : Placed source s
  tidy : ∀ n ∈ ns, n.Tidy source
  row : Node.Row 0 s.lastStop ns
  follows : ns.Pairwise (Node.Follows source)

/-- One more statement. -/
theorem Listed.push {ns : List Node} {n : Node} {t : State} (h : Listed source ns s)
    (hn : Done source s.token.span.start n t)
    (hstarts : source.Starts s.token.span.start ∨ ∃ span, n = .other span []) :
    Listed source (ns ++ [n]) t := by
  obtain ⟨-, -, hrow, htidy⟩ := hn.trail
  have hle := h.placed.standing.le
  refine ⟨hn.placed, ?_, h.row.append (hrow.mono hle (Nat.le_refl _)), ?_⟩
  · intro c hc
    rcases List.mem_append.mp hc with hc | hc
    · exact h.tidy c hc
    · exact htidy c hc
  · refine List.pairwise_append.mpr ⟨h.follows, List.pairwise_singleton _ _, ?_⟩
    intro a ha b hb
    rw [List.mem_singleton.mp hb]
    refine hstarts.imp (fun hstarts => ⟨s.token.span.start, ?_, hstarts, fun y hy => ?_⟩) id
    · exact Nat.le_trans (h.row.within a ha a (Node.mem_postorder_self a)).2 hle
    · exact (hrow.within n (List.mem_singleton_self n) y hy).1

theorem statements_run (depth : Nat) (hs : Placed source s) :
    Yields (statements (grammar depth)) (Listed source) s := by
  refine yields_many (Listed source) (fun ns t ht => ?_)
    ⟨hs, by simp, .nil (Nat.zero_le _), .nil⟩
  simp only [yields_steps]
  refine ⟨fun _ => ?_, fun _ => ht⟩
  refine ((grammar_sound source depth).statement false t ht.placed).mono fun n u hn => ?_
  exact ht.push hn.1 hn.2

theorem skipInterpreter_eq (source : Text) :
    ∃ front, source = front ++ (skipInterpreter source).2 ∧
      front.size = (skipInterpreter source).1 := by
  unfold skipInterpreter
  split
  · rename_i cs
    refine ⟨'#' :: '!' :: cs.takeWhile fun c => !Lexer.isBreak c, ?_, ?_⟩
    · simp [List.takeWhile_append_dropWhile]
    · have hhash : Char.utf8Size '#' = 1 := rfl
      have hbang : Char.utf8Size '!' = 1 := rfl
      simp only [Text.size_cons, hhash, hbang]
      omega
  · exact ⟨[], rfl, rfl⟩

theorem standing_start (dialect : Dialect) (source : Text) :
    Standing source (start dialect source) := by
  obtain ⟨front, hfront, hsize⟩ := skipInterpreter_eq source
  exact ⟨Nat.le_refl _, front, [], hfront, rfl, hsize, rfl, trivial⟩

theorem module_run (depth : Nat) (dialect : Dialect) (source : Text) :
    Yields (module depth) (fun ns t => Listed source ns t) (start dialect source) := by
  have hplaced : Placed source (start dialect source).next :=
    ⟨(standing_start dialect source).past Lexer.read_of, Lexer.read_semicolon _ _⟩
  simp only [module, yields_steps]
  refine (statements_run depth hplaced).mono fun ns t ht => ?_
  simp only [yields_steps]
  split
  · simp only [yields_steps]
  · simp only [yields_steps]
    exact ht

/-- What holds of each statement that is read holds of the statements of a module. -/
theorem module_forall {S : Node → Prop}
    (hS : ∀ depth, Answers (grammar depth (.statement false)) S) (depth : Nat) :
    Answers (module depth) fun ns => ∀ n ∈ ns, S n := by
  refine answers_bind fun _ s => yields_bind.mpr fun ns t hns => ?_
  have hall := answers_many (hS depth) s ns t hns
  refine yields_bind.mpr fun u v _ => ?_
  dsimp only [Then]
  split
  · exact (yields_of_error rfl).mpr trivial
  · exact yields_pure.mpr hall

end Parser

theorem Program.parseIn_laid {dialect : Dialect} {source : Text} {p : Program}
    (h : parseIn dialect source = .ok p) : p.Laid source := by
  unfold parseIn at h
  split at h
  · rename_i body t hbody
    cases h
    have hlisted := Parser.module_run _ _ source body t hbody
    obtain ⟨front, -, hsource, -, hfront, -⟩ := hlisted.placed.standing.2
    have hle : t.lastStop ≤ source.size := by
      have := hlisted.placed.standing.le
      have hsize := congrArg Text.size hsource
      rw [Text.size_append] at hsize
      omega
    have hnodes : nodes ⟨body.takeWhile Parser.isDirective, body.dropWhile Parser.isDirective⟩ =
        body := List.takeWhile_append_dropWhile
    constructor
    · rw [hnodes]
      exact hlisted.tidy
    · rw [hnodes]
      exact hlisted.row.mono (Nat.le_refl _) hle
    · rw [hnodes]
      exact hlisted.follows
  · cases h

/-- A module is read in one of the dialects. -/
theorem Script.exists_of_firstParse {source : Text} {dialects : List Dialect} {p : Program}
    (h : firstParse source dialects = .ok p) :
    ∃ dialect ∈ dialects, Program.parseIn dialect source = .ok p := by
  induction dialects with
  | nil => cases h
  | cons dialect dialects ih =>
    rw [firstParse] at h
    split at h
    · rename_i program hparse
      cases h
      exact ⟨dialect, List.mem_cons_self, hparse⟩
    · split at h
      · rename_i program hparse
        cases h
        obtain ⟨d, hd, hparse⟩ := ih hparse
        exact ⟨d, List.mem_cons_of_mem _ hd, hparse⟩
      · cases h

theorem Script.path_of_parse {path : Path} {source : Text} {script : Script}
    (h : parse path source = .ok script) : script.path = path ∧ script.source = source := by
  unfold parse at h
  split at h
  · cases h
    exact ⟨rfl, rfl⟩
  · cases h

theorem Script.exists_parseIn {path : Path} {source : Text} {script : Script}
    (h : parse path source = .ok script) :
    script.source = source ∧
      ∃ dialect ∈ Dialect.forPath path, Program.parseIn dialect source = .ok script.program := by
  unfold parse at h
  split at h
  · rename_i program hparse
    cases h
    exact ⟨rfl, exists_of_firstParse hparse⟩
  · cases h

/-- Every module that can be parsed is laid out as its tree says. -/
theorem Script.parse_laid {path : Path} {source : Text} {script : Script}
    (h : parse path source = .ok script) :
    script.source = source ∧ script.program.Laid script.source := by
  obtain ⟨rfl, dialect, -, hparse⟩ := exists_parseIn h
  exact ⟨rfl, Program.parseIn_laid hparse⟩

theorem Script.parse_forall {path : Path} {source : Text} {script : Script} {S : Node → Prop}
    (hS : ∀ depth, Parser.Answers (Parser.grammar depth (.statement false)) S)
    (h : parse path source = .ok script) : ∀ n ∈ script.program.nodes, S n := by
  obtain ⟨-, dialect, -, hparse⟩ := exists_parseIn h
  unfold Program.parseIn at hparse
  split at hparse
  · rename_i ns t hns
    rw [← Except.ok.inj hparse]
    intro n hn
    rw [Program.nodes, List.takeWhile_append_dropWhile] at hn
    exact Parser.module_forall hS _ _ _ _ hns n hn
  · cases hparse

end Codemod

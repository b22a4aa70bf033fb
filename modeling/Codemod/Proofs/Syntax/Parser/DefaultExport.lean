import Codemod.Proofs.Syntax.Parser.Property

/-!
# Codemod.Proofs.Syntax.Parser.DefaultExport

The default export of a name reads back as that.

`Referable` names are read as references wherever an expression may begin. Behind the name comes a
`;`, or text in front of which a statement ends without one (`endsStatement`); in both cases the
statement is over there (`StatementEnds`).
-/

namespace Codemod

open Lexer (Begins isGapText)
open Codemod.Parser (State Gives Reads gives_steps)

/-- A name that can be written as an expression: it is plain, and it has no other meaning there. -/
structure Referable (name : String) : Prop where
  plain : Lexer.isPlainName name.toList = true
  free : name ∉ "async" :: "await" :: "yield" :: reservedWords

instance (name : String) : Decidable (Referable name) :=
  decidable_of_iff (_ ∧ _) ⟨fun h => ⟨h.1, h.2⟩, fun h => ⟨h.plain, h.free⟩⟩

namespace Parser

/-- A statement that comes to this place with a name ends here without a `;`: nothing follows, or
something on a new line that an expression does not go on with. -/
def endsStatement (rest : Text) : Bool :=
  let t := (Lexer.read 0 rest).token
  Lexer.endsName rest && (t.newline || t.lexeme == .finish) && !t.isAny (";" :: continuations) &&
    !t.lexeme matches .template ..

/-- At `rest` a statement ends, and `tail` is what comes behind it. -/
def StatementEnds (rest tail : Text) : Prop :=
  rest = ';' :: tail ∨ rest = tail ∧ endsStatement tail = true

variable {rest tail : Text} {u v : State}

theorem ends_of_endsStatement (h : endsStatement rest = true) (hv : v.rest = rest) :
    Lexer.endsName rest = true ∧ EndsExpression v.next.token ∧ v.next.token.is ";" = false ∧
      (v.next.token.newline = true ∨ v.next.token.lexeme = .finish) := by
  have htoken : v.next.token = (Lexer.read v.token.span.stop rest).token := by
    rw [← hv]
    rfl
  obtain ⟨hlexeme, hline⟩ := Lexer.read_offset v.token.span.stop 0 rest
  rw [← htoken] at hlexeme hline
  rw [endsStatement, Bool.and_eq_true, Bool.and_eq_true, Bool.and_eq_true, Bool.not_eq_true'] at h
  obtain ⟨⟨⟨hname, hend⟩, hplain⟩, htemplate⟩ := h
  rw [← hlexeme, ← hline, Bool.or_eq_true, beq_iff_eq] at hend
  obtain ⟨hends, hsemicolon⟩ := endsExpression_of_lexeme hlexeme hplain htemplate
    (hend.imp id fun hfinish => by simp [Token.isAny, Token.is, hfinish])
  exact ⟨hname, hends, hsemicolon, hend⟩

/-- An expression ends there, and neither a class nor a name follows on the same line. -/
theorem StatementEnds.next (h : StatementEnds rest tail) (hv : v.rest = rest) :
    EndsExpression v.next.token ∧
      (v.next.token.is "class" && !v.next.token.newline) = false ∧
      (v.next.token.isName && !v.next.token.newline) = false := by
  rcases h with rfl | ⟨rfl, h⟩
  · obtain ⟨-, ⟨s, hs⟩, -⟩ := State.next_of_begins
      (hv ▸ Lexer.begins_symbol [] rfl rfl rfl rfl : Begins v.rest (.symbol ";") false tail)
    rw [hs]
    exact ⟨endsExpression_of_is (x := ";") rfl (by decide), rfl, rfl⟩
  · obtain ⟨-, hends, -, hline | hfinish⟩ := ends_of_endsStatement h hv
    · exact ⟨hends, by rw [hline, Bool.not_true, Bool.and_false],
        by rw [hline, Bool.not_true, Bool.and_false]⟩
    · exact ⟨hends, by simp [Token.is, hfinish], by simp [Token.isName, hfinish]⟩

theorem terminator_reads (h : StatementEnds rest tail) (hrest : u.rest = rest) :
    Reads false terminator tail (fun _ => True) u := by
  rcases h with rfl | ⟨rfl, h⟩
  · obtain ⟨hmoved, ⟨s, hs⟩, htail⟩ := State.next_of_begins
      (hrest ▸ Lexer.begins_symbol [] rfl rfl rfl rfl : Begins u.rest (.symbol ";") false tail)
    simp only [Reads, terminator, gives_steps, hs, is_symbol, BEq.rfl, if_true]
    exact ⟨u.next, hmoved, htail, rfl, trivial⟩
  · obtain ⟨-, -, hsemicolon, hend⟩ := ends_of_endsStatement h hrest
    have hmayEnd : (u.next.token.isAny [";", rbrace] || u.next.token.lexeme == .finish ||
        u.next.token.newline) = true := by
      rcases hend with hline | hfinish
      · rw [hline, Bool.or_true]
      · rw [hfinish, BEq.rfl, Bool.or_true, Bool.true_or]
    simp only [Reads, terminator, gives_steps, hsemicolon, hmayEnd, Bool.false_eq_true, if_false,
      if_true]
    exact ⟨u, .refl u, hrest, rfl, trivial⟩

/-- A name stands alone. -/
theorem operandAhead_name {name : String} {newline : Bool} {d : Nat} (hname : Referable name)
    (h : Begins u.rest (.plain name) newline rest)
    (hends : ∀ v : State, v.rest = rest → EndsExpression v.next.token) (hbudget : 1 ≤ u.budget) :
    OperandAhead d u rest (·.erase = .reference .nowhere name) := by
  obtain ⟨hmoved, ⟨s, hs⟩, hrest⟩ := State.next_of_begins h
  obtain ⟨hasync, hawait, hyield, hfree⟩ : name ≠ "async" ∧ name ≠ "await" ∧ name ≠ "yield" ∧
      name ∉ reservedWords := by
    simpa only [List.mem_cons, not_or] using hname.free
  refine ⟨?_, by rw [hs]; exact nofun, operand_reads hends ?_ hbudget, hends, hbudget⟩
  · -- an opening is a symbol, which is no name, or a word that is not free
    have hopening : ∀ x ∈ openings, Lexer.isPlainName x.toList = true →
        x ∈ "async" :: "await" :: "yield" :: reservedWords := by
      decide
    rw [Token.isAny, List.any_eq_false]
    intro x hx
    rw [hs, is_plain, beq_iff_eq]
    rintro rfl
    exact hname.free (hopening _ hx hname.plain)
  · have hscope : (name == "await" && u.next.scope.awaits ||
        name == "yield" && u.next.scope.yields) = false := by
      simp [hawait, hyield]
    refine (primary_name hs hfree hasync hscope).mono ?_
    rintro n t ⟨rfl, rfl⟩
    exact ⟨u.next, hmoved, hrest, rfl, rfl⟩

/-- A default export from the word `default` on. -/
theorem exportDefault_reads {name : String} (hname : Referable name)
    (hends : StatementEnds rest tail)
    (hrest : u.rest = ' ' :: ("default".toList ++ ' ' :: (name.toList ++ rest)))
    (hbudget : 1 ≤ u.budget) (d start : Nat) :
    Reads false (exportDefault (grammar (d + 4)) start []) tail
      (·.erase = .exportDefault .nowhere (.reference .nowhere name)) u := by
  have hend : Lexer.endsName rest = true := by
    rcases hends with rfl | ⟨rfl, hends⟩
    · rfl
    · exact (ends_of_endsStatement hends (v := { u with rest }) rfl).1
  have hword : Begins u.rest (.plain "default") false (' ' :: (name.toList ++ rest)) :=
    hrest ▸ begins_plain "default" [' '] (.inr rfl) rfl rfl
  obtain ⟨hmoved₁, ⟨s₁, h₁⟩, hrest₁⟩ := State.next_of_begins hword
  have hbegins : Begins u.next.rest (.plain name) false rest :=
    hrest₁ ▸ begins_plain name [' '] (.inr rfl) hname.plain hend
  obtain ⟨-, ⟨s₂, h₂⟩, hrest₂⟩ := State.next_of_begins hbegins
  obtain ⟨-, hclass, hisName⟩ := hends.next hrest₂
  obtain ⟨k, hk⟩ : ∃ k, u.next.next.budget = k + 1 :=
    ⟨u.budget - 1, by show u.budget = _; omega⟩
  have hfree {x : String}
      (hx : ("async" :: "await" :: "yield" :: reservedWords).contains x = true) :
      u.next.next.token.is x = false := by
    rw [h₂, is_plain, beq_eq_false_iff_ne]
    rintro rfl
    exact hname.free (List.contains_iff_mem.mp hx)
  have hat : u.next.next.token.is "@" = false := by
    rw [h₂, is_plain, beq_eq_false_iff_ne]
    rintro rfl
    cases hname.plain
  -- the name is no word with which something else than an expression begins
  simp only [Reads, exportDefault, gives_steps, h₁, is_plain, BEq.rfl, true_and, decorators, many,
    gives_repeatFrom, hk, gives_loop, hat, seesAsyncFunction, hfree (x := "class") rfl,
    hfree (x := "function") rfl, hfree (x := "async") rfl, hclass, hisName, Bool.and_false,
    Bool.false_eq_true, if_false, Sum.elim_inr, gives_within]
  rw [← State.next_inScope]
  have hahead (scope : Scope) :
      OperandAhead d (u.next.inScope scope) rest (·.erase = .reference .nowhere name) :=
    operandAhead_name hname hbegins (fun v hv => (hends.next hv).1) hbudget
  refine Gives.mono (assignment_reads (hahead _) true) ?_
  rintro n t ⟨v, hmoved₂, hv, rfl, hn⟩
  refine (terminator_reads hends (u := v.inScope u.next.next.scope) hv).mono ?_
  rintro - t ⟨w, hmoved₃, hw, rfl, -⟩
  refine ⟨w, (hmoved₁.trans hmoved₂.inScope).trans hmoved₃, hw, rfl, ?_⟩
  rw [Node.erase_eq, Node.mapParts, hn]

/-- `export default` and a name, written where a statement may begin. -/
theorem statement_exportDefault {name : String} (hname : Referable name) {gap : Text}
    (hgap : isGapText gap = true) (hends : StatementEnds rest tail)
    (hrest : u.rest = gap ++ ("export default ".toList ++ (name.toList ++ rest)))
    (hbudget : 1 ≤ u.budget) (d : Nat) :
    Reads false (statement (grammar (d + 4)) false) tail
      (·.erase = .exportDefault .nowhere (.reference .nowhere name)) u := by
  have hfirst : Begins u.rest (.plain "export") (gap.any Lexer.isBreak)
      (' ' :: ("default".toList ++ ' ' :: (name.toList ++ rest))) :=
    hrest ▸ Lexer.begins_word gap (w := "export".toList) hgap rfl rfl
  obtain ⟨hmoved, ⟨s, hs⟩, hrest₁⟩ := State.next_of_begins hfirst
  have hword : Begins u.next.rest (.plain "default") false (' ' :: (name.toList ++ rest)) :=
    hrest₁ ▸ begins_plain "default" [' '] (.inr rfl) rfl rfl
  obtain ⟨-, ⟨s₁, h₁⟩, -⟩ := State.next_of_begins hword
  have hcontrol : control (grammar (d + 4)) u.next.token = none := by
    rw [hs]
    rfl
  simp only [Reads, statement, gives_steps, hcontrol]
  simp only [gives_steps, hs, is_plain, lbrace, String.reduceBEq, Bool.false_eq_true, if_false,
    if_true, exportDeclaration, h₁, true_and]
  refine (exportDefault_reads hname hends hrest₁ hbudget d s.start).mono ?_
  rintro n t ⟨v, hmoved₁, hv, rfl, hn⟩
  exact ⟨v, hmoved.trans hmoved₁, hv, rfl, hn⟩

end Parser

end Codemod

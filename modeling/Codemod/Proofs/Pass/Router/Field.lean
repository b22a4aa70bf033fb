import Codemod.Proofs.Pass.Router
import Codemod.Proofs.Syntax.Parser.Operand

/-!
# Codemod.Proofs.Pass.Router.Field

The field that the router pass adds to a class is read as one member of it.

The call of the factory is an operand that stands alone (`operandAhead_factory`). That it ends is a
matter of the token behind it (`EndsExpression`). With a `;` that is clear; without one it depends on
the text in front of which the field is put (`endsField`, `addField_reads`).
-/

namespace Codemod

open Lexer (Begins Tokens)
open Codemod.Parser (State Gives Reads gives_steps)

namespace Parser

variable {g : Grammar} {s u : State}

/-- The tokens of a call of the factory. -/
def callLexemes : List Lexeme :=
  [.plain "getCurrentInstance", .symbol "(", .symbol ")"]

theorem attachStep_call {rest : Text} (start : Nat) {x : Operand} (hx : x.instanceOf = none)
    (htokens : Tokens u.rest [.symbol "(", .symbol ")"] rest) (hbudget : 1 ≤ u.budget) :
    Reads false (attachStep g true start x) rest
      (fun r => ∃ span, r = .inl ⟨.call span x.node [] [], x.optional, none⟩) u := by
  obtain ⟨hmoved₁, ⟨s₁, h₁⟩, htokens⟩ := State.next_of_tokens htokens
  obtain ⟨hmoved₂, ⟨s₂, h₂⟩, htokens⟩ := State.next_of_tokens htokens
  cases htokens
  obtain ⟨k, hk⟩ : ∃ k, u.next.next.budget = k + 1 := by
    refine ⟨u.budget - 1, ?_⟩
    rw [(hmoved₁.trans hmoved₂).eq]
    dsimp only
    omega
  simp only [Reads, attachStep, gives_steps, h₁, is_symbol, String.reduceBEq, Bool.false_eq_true,
    Bool.false_and, Bool.true_and, if_false, if_true, arguments, separated, BEq.rfl, hx]
  rw [gives_repeatFrom, hk, gives_loop]
  simp only [gives_steps, h₂, is_symbol, BEq.rfl, if_true, Sum.elim_inr, true_and, Bool.or_false]
  exact ⟨u.next.next, hmoved₁.trans hmoved₂, rfl, rfl, _, rfl⟩

/-- What the factory answers. -/
def factoryCall : Node :=
  .call .nowhere (.reference .nowhere "getCurrentInstance") [] []

/-- A call of the factory, at a place where expressions end. -/
structure CallAhead (u : State) (rest : Text) : Prop where
  tokens : Tokens u.rest callLexemes rest
  ends : ∀ v : State, v.rest = rest → EndsExpression v.next.token
  budget : 2 ≤ u.budget

section Call

variable {rest : Text}

theorem factory_reads (h : CallAhead u rest) :
    Reads false (operand g) rest (·.erase = factoryCall) u := by
  obtain ⟨hmoved₁, ⟨s₁, h₁⟩, htokens⟩ := State.next_of_tokens h.tokens
  obtain ⟨k, hk⟩ : ∃ k, u.next.next.budget = k + 1 + 1 := by
    refine ⟨u.budget - 2, ?_⟩
    have hbudget := h.budget
    have hsame : u.next.next.budget = u.budget := rfl
    omega
  simp only [Reads, operand, gives_steps]
  refine primary_name h₁ (by decide) (by decide) rfl |>.mono ?_
  rintro n t ⟨rfl, rfl⟩
  have hcall := attachStep_call (g := g) u.next.token.span.start
    (x := ⟨.reference s₁ "getCurrentInstance", false, none⟩) rfl htokens
    (by show 1 ≤ u.budget; have := h.budget; omega)
  rw [attach_eq, gives_repeatFrom, hk, gives_loop]
  refine hcall.mono ?_
  rintro r t ⟨v, hmoved₂, hv, rfl, span, rfl⟩
  rw [Sum.elim_inl, gives_loop]
  refine (attachStep_ends (h.ends v hv) true _ _).mono ?_
  rintro r t ⟨rfl, rfl⟩
  simp only [Sum.elim_inr, Bool.false_eq_true, if_false, gives_steps]
  exact ⟨v, hmoved₁.trans hmoved₂, hv, rfl, rfl⟩

theorem operandAhead_factory {d : Nat} (h : CallAhead u rest) :
    OperandAhead d u rest (·.erase = factoryCall) := by
  obtain ⟨-, ⟨s₁, h₁⟩, -⟩ := State.next_of_tokens h.tokens
  refine ⟨?_, ?_, factory_reads h, h.ends, Nat.le_of_succ_le h.budget⟩
  · rw [h₁]
    rfl
  · rw [h₁]
    exact nofun

end Call

/-- The field, at a place where it ends: behind a `;`, or before a token on a new line that does not
go on with the expression. -/
structure FieldAhead (u : State) (tail : Text) : Prop where
  tokens : ∃ newline mid rest, Begins u.rest (.plain "$instance") newline mid ∧
    Tokens mid (.symbol "=" :: callLexemes) rest ∧
    (rest = ';' :: tail ∨ rest = tail ∧ ∀ v : State, v.rest = rest →
      EndsExpression v.next.token ∧ v.next.token.newline = true ∧ v.next.token.is ";" = false)
  budget : 2 ≤ u.budget

theorem begins_semicolon (tail : Text) : Begins (';' :: tail) (.symbol ";") false tail :=
  Lexer.begins_symbol [] rfl rfl rfl rfl

theorem endsExpression_semicolon {tail : Text} (h : u.rest = ';' :: tail) :
    EndsExpression u.next.token := by
  obtain ⟨-, ⟨s, hs⟩, -⟩ := State.next_of_begins (h ▸ begins_semicolon tail)
  rw [hs]
  exact ⟨rfl, nofun, .inr rfl⟩

theorem fieldEnd_reads {tail rest : Text} (hrest : u.rest = rest)
    (h : rest = ';' :: tail ∨ rest = tail ∧ u.next.token.newline = true ∧
      u.next.token.is ";" = false) : Reads false fieldEnd tail (fun _ => True) u := by
  subst hrest
  rcases h with h | ⟨rfl, hline, hsemi⟩
  · obtain ⟨hmoved, ⟨s, hs⟩, htail⟩ := State.next_of_begins (h ▸ begins_semicolon tail)
    simp only [Reads, fieldEnd, gives_steps, hs, is_symbol, BEq.rfl, if_true]
    exact ⟨u.next, hmoved, htail, rfl, trivial⟩
  · simp only [Reads, fieldEnd, gives_steps, hline, hsemi, Bool.or_true, Bool.false_eq_true, if_false,
      if_true]
    exact ⟨u, .refl u, rfl, rfl, trivial⟩

theorem classMember_reads {tail : Text} (h : FieldAhead u tail) {d : Nat} :
    Reads false (classMember (grammar (d + 4))) tail (·.erase = Router.instanceDecl) u := by
  obtain ⟨newline, mid, rest, hbegins, htokens, hends⟩ := h.tokens
  obtain ⟨hmoved₁, ⟨s₁, h₁⟩, hmid⟩ := State.next_of_begins hbegins
  obtain ⟨hmoved₂, ⟨s₂, h₂⟩, hcall⟩ := State.next_of_tokens (hmid ▸ htokens)
  obtain ⟨k, hk⟩ : ∃ k, u.next.budget = k + 1 := by
    have hbudget := h.budget
    exact ⟨u.budget - 1, by show u.budget = _; omega⟩
  have his (x : String) : u.next.token.is x = ("$instance" == x) := by
    rw [h₁, is_plain]
  have hlexeme : u.next.token.lexeme = .word "$instance" false := by
    rw [h₁]
    rfl
  simp only [Reads, classMember, decorators, many, gives_steps, gives_repeatFrom, hk, gives_loop, his,
    String.reduceBEq, Bool.false_eq_true, if_false, Sum.elim_inr, Bool.false_and, modifiers,
    seesModifier, commonModifiers, typeModifiers, Token.isAny, List.any_append, List.any_cons,
    List.any_nil, Bool.or_self, Bool.not_false, if_true]
  refine gives_ahead ?_
  have hkey : startsKey u.next.token = true := by
    rw [startsKey, hlexeme]
  have hnotPrivate : (u.next.token.lexeme == .privateName "constructor") = false := by
    rw [hlexeme]
    rfl
  have hspan : u.next.token.span = s₁ := by rw [h₁]
  simp only [gives_steps, his, String.reduceBEq, Bool.false_eq_true, Bool.not_false, if_false, if_true,
    Bool.and_false, Token.isAny, List.any_cons, List.any_nil, Bool.or_self, hkey, Bool.not_true, key,
    hlexeme]
  have hequals (x : String) : u.next.next.token.is x = ("=" == x) := by
    rw [h₂, is_symbol]
  have hnone : ([] : List String).reverse.contains "async" = false ∧
      ([] : List String).reverse.contains "accessor" = false ∧
      ([] : List String).reverse.contains "static" = false := ⟨rfl, rfl, rfl⟩
  simp only [gives_steps, hequals, String.reduceBEq, Bool.or_self, Bool.and_false, Bool.false_eq_true,
    if_false, hnone, checkMemberName, hnotPrivate, Option.some_beq_some, Bool.false_and, typeMark,
    BEq.rfl, if_true, gives_within, Token.isAny, List.any_cons, List.any_nil]
  have hahead (scope : Scope) : CallAhead (u.next.next.inScope scope) rest := by
    refine ⟨hcall, fun v hv => ?_, h.budget⟩
    rcases hends with rfl | ⟨-, hends⟩
    · exact endsExpression_semicolon hv
    · exact (hends v hv).1
  rw [← State.next_inScope]
  refine Gives.mono (assignment_reads (d := d) (operandAhead_factory (hahead _)) _) ?_
  rintro n t ⟨v, hmoved, hv, rfl, hn⟩
  have hall := (hmoved₁.trans hmoved₂).trans hmoved.inScope
  have hend : Reads false fieldEnd tail (fun _ => True) (v.inScope u.next.next.scope) := by
    refine fieldEnd_reads hv ?_
    rcases hends with hrest | ⟨hrest, hends⟩
    · exact .inl hrest
    · exact .inr ⟨hrest, (hends (v.inScope u.next.next.scope) hv).2⟩
  refine hend.mono ?_
  rintro - t ⟨w, hmoved', hw, rfl, -⟩
  refine ⟨w, hall.trans hmoved', hw, rfl, ?_⟩
  rw [Node.erase_eq, Node.mapParts, List.map_cons, hn]
  rfl

/-- The field behind its name. -/
theorem tokens_field (rest : Text) :
    Tokens (" = getCurrentInstance()".toList ++ rest) (.symbol "=" :: callLexemes) rest := by
  refine .cons (Lexer.begins_symbol [' '] rfl rfl rfl rfl) (.cons ?_
    (.cons (Lexer.begins_symbol [] (c := '(') rfl rfl rfl rfl)
      (.cons (Lexer.begins_symbol [] (c := ')') rfl rfl rfl rfl) (.nil rest))))
  refine begins_plain "getCurrentInstance" [' '] (.inr rfl) rfl ?_
  rfl

/-- A field that has its initialiser ends before this text, if it stands on a new line: it does not
begin with what an expression goes on with, nor with a `;`. -/
def endsField (rest : Text) : Bool :=
  let t := (Lexer.read 0 rest).token
  !t.isAny (";" :: continuations) && !t.lexeme matches .template ..

theorem ends_of_endsField {gap rest : Text} (h : endsField rest = true)
    (hgap : Lexer.isGapText gap = true) (hbreak : gap.any Lexer.isBreak = true) {v : State}
    (hv : v.rest = gap ++ rest) :
    EndsExpression v.next.token ∧ v.next.token.newline = true ∧ v.next.token.is ";" = false := by
  have htoken : v.next.token = (Lexer.read v.token.span.stop (gap ++ rest)).token := by
    rw [← hv]
    rfl
  obtain ⟨hlexeme, hline⟩ := Lexer.read_line hgap hbreak v.token.span.stop 0 rest
  rw [← htoken] at hlexeme hline
  rw [endsField, Bool.and_eq_true, Bool.not_eq_true'] at h
  obtain ⟨hends, hsemicolon⟩ := endsExpression_of_lexeme hlexeme h.1 h.2 (.inl hline)
  exact ⟨hends, hline, hsemicolon⟩

end Parser

namespace Router

variable (source : Text) (style : Style) (c : ClassShape)

/-- What is written right behind the field. -/
def mark : Text :=
  if (Text.trimStart (source.after (anchor c))).head?.any fun d =>
      d == '[' || d == '(' || d == '*' || d.toNat == 0x60 then [';']
  else style.terminator

theorem mark_cases : mark source style c = [';'] ∨ mark source style c = [] := by
  rw [mark, Style.terminator]
  split
  · exact .inl rfl
  · cases style.semicolons
    · exact .inr rfl
    · exact .inl rfl

theorem addField_text : ∃ front, Lexer.isGapText front = true ∧
    (addField source style c).text = front ++ (instanceField.toList ++
      (" = getCurrentInstance()".toList ++
        (mark source style c ++ '\n' :: source.indentAt (anchor c)))) := by
  have hindent := Lexer.isGapText_indentAt source (anchor c)
  rw [addField, Edit.insert]
  dsimp only
  rw [← mark]
  split
  · refine ⟨'\n' :: (source.indentAt (anchor c) ++ "  ".toList), ?_, ?_⟩
    · rw [Lexer.isGapText, List.all_cons, List.all_append, ← Lexer.isGapText, hindent]
      rfl
    · simp only [List.cons_append, List.append_assoc]
      rfl
  · refine ⟨[], rfl, ?_⟩
    simp only [List.nil_append, List.append_assoc]
    rfl

/-- In front of any text that does not go on with it, the field is read as one member. -/
theorem addField_reads {rest : Text}
    (hends : mark source style c = [';'] ∨ Parser.endsField rest = true) {u : State}
    (hrest : u.rest = (addField source style c).text ++ rest)
    (hbudget : 2 ≤ u.budget) (d : Nat) :
    Reads false (Parser.classMember (Parser.grammar (d + 4)))
      ('\n' :: (source.indentAt (anchor c) ++ rest)) (·.erase = instanceDecl) u := by
  obtain ⟨front, hfront, htext⟩ := addField_text source style c
  let back : Text := '\n' :: source.indentAt (anchor c)
  have hback : Lexer.isGapText back = true ∧ back.any Lexer.isBreak = true := by
    rw [Lexer.isGapText, List.all_cons, ← Lexer.isGapText, Lexer.isGapText_indentAt]
    exact ⟨rfl, rfl⟩
  refine Parser.classMember_reads ⟨⟨front.any Lexer.isBreak, _, mark source style c ++ (back ++ rest),
    ?_, Parser.tokens_field _, ?_⟩, hbudget⟩
  · rw [hrest, htext]
    simp only [List.append_assoc, List.cons_append]
    exact Lexer.begins_word front (w := instanceField.toList) hfront rfl rfl
  · rcases mark_cases source style c with hmark | hmark
    · rw [hmark]
      exact .inl rfl
    · rw [hmark]
      have hends := hends.resolve_left (by simp [hmark])
      exact .inr ⟨rfl, fun v hv => Parser.ends_of_endsField hends hback.1 hback.2 hv⟩

end Router

end Codemod

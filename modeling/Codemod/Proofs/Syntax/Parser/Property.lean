import Codemod.Proofs.Syntax.Parser.Laid
import Codemod.Proofs.Syntax.Parser.Operand

/-!
# Codemod.Proofs.Syntax.Parser.Property

Properties of objects that are written out are read as what they are.

`ReadsValue text value` says that a text is read as an expression wherever a comma or a closing brace
comes behind it, and `ReadsProperty text p` the same of a property. A string is read as a value
(`readsValue_string`), a key and a value as a property (`readsProperty_of_key`), and a property
between braces as a value again (`readsValue_object`).
-/

namespace Codemod

open Lexer (Begins Tokens isGapText)
open Codemod.Parser (State Gives Reads gives_steps)

namespace Parser

/-- Behind blanks and comments comes a comma or a closing brace. -/
def closesValue (rest : Text) : Bool :=
  (Lexer.read 0 rest).token.isAny [",", rbrace]

variable {rest : Text} {u v : State} {value p : Node} {text : Text}

theorem lexeme_next (h : v.rest = rest) :
    v.next.token.lexeme = (Lexer.read 0 rest).token.lexeme := by
  subst h
  exact (Lexer.read_offset v.token.span.stop 0 v.rest).1

theorem is_of_closesValue (h : closesValue rest = true) (hv : v.rest = rest) :
    v.next.token.is "," = true ∨ v.next.token.is rbrace = true := by
  rw [closesValue, Token.isAny, List.any_cons, List.any_cons, List.any_nil, Bool.or_false,
    Bool.or_eq_true, ← is_congr (lexeme_next hv), ← is_congr (lexeme_next hv)] at h
  exact h

theorem endsExpression_of_is {t : Token} {x : String} (h : t.is x = true)
    (hx : x ∉ "as" :: "satisfies" :: continuations) : EndsExpression t := by
  have hother {y : String} (hy : y ∈ "as" :: "satisfies" :: continuations) : t.is y = false :=
    is_eq_false h fun hxy => hx (hxy ▸ hy)
  refine ⟨?_, fun cooked closed htemplate => ?_, .inr ?_⟩
  · rw [Token.isAny, List.any_eq_false]
    intro y hy
    rw [hother (by simp [hy])]
    exact Bool.false_ne_true
  · rw [Token.is, htemplate] at h
    cases h
  · simp [Token.isAny, hother]

theorem ends_of_closesValue (h : closesValue rest = true) (hv : v.rest = rest) :
    EndsExpression v.next.token := by
  rcases is_of_closesValue h hv with hcomma | hbrace
  · exact endsExpression_of_is hcomma (by decide)
  · exact endsExpression_of_is hbrace (by decide)

/-- The text is read as an expression in front of a comma or a closing brace. -/
def ReadsValue (text : Text) (value : Node) : Prop :=
  ∃ n, ∀ (d : Nat) (gap rest : Text) (u : State), n ≤ d → n ≤ u.budget → isGapText gap = true →
    u.rest = gap ++ (text ++ rest) → closesValue rest = true →
    Reads false (inner (grammar d)) rest (·.erase = value.erase) u

/-- The text is read as a property in front of a comma or a closing brace. -/
def ReadsProperty (text : Text) (p : Node) : Prop :=
  ∃ n, ∀ (d : Nat) (gap rest : Text) (u : State), n ≤ d → n ≤ u.budget → isGapText gap = true →
    u.rest = gap ++ (text ++ rest) → closesValue rest = true →
    u.next.token.is rbrace = false ∧
      Reads false (objectProperty (grammar d)) rest (·.erase = p.erase) u

theorem readsValue_string {quote : Char} {s : Text} (hquote : quote = '"' ∨ quote = '\'')
    (h : Lexer.isVerbatim quote s = true) :
    ReadsValue (quote :: (s ++ [quote])) (.string .nowhere (String.ofList s)) := by
  refine ⟨4, fun d gap rest u hd hbudget hgap hrest hclose => ?_⟩
  obtain ⟨d, rfl⟩ := Nat.exists_eq_add_of_le' hd
  have hbegins := Lexer.begins_string gap rest hgap hquote h
  have hu : u.rest = gap ++ quote :: (s ++ quote :: rest) := by simp [hrest]
  refine inner_reads fun scope => operandAhead_string (u := u.inScope scope) (hu ▸ hbegins)
    (fun v hv => ends_of_closesValue hclose hv) (by show 1 ≤ u.budget; omega)

/-- A key that is written out, and what it is read as: a name that is no modifier, or a string. -/
inductive Keyed : Text → String → List Node → Prop
  | word (name : String) (hname : Lexer.isPlainName name.toList = true)
      (hmodifier : name ∉ ["async", "get", "set"]) : Keyed name.toList name []
  | string (quote : Char) (s : Text) (hquote : quote = '"' ∨ quote = '\'')
      (h : Lexer.isVerbatim quote s = true) :
      Keyed (quote :: (s ++ [quote])) (String.ofList s) [.string .nowhere (String.ofList s)]

/-- The first token of a key. -/
theorem Keyed.begins {parts : List Node} {name : String} (h : Keyed text name parts) {gap : Text}
    (hgap : isGapText gap = true) (rest : Text) :
    ∃ l newline, Begins (gap ++ (text ++ ':' :: rest)) l newline (':' :: rest) ∧
      (l = .plain name ∧ parts = [] ∨ l = .string name ∧ parts = [.string .nowhere name]) ∧
      ∀ x ∈ ["...", "async", "*", "get", "set", rbrace], ∀ span newline,
        Token.is ⟨l, span, newline⟩ x = false := by
  cases h with
  | word name hname hmodifier =>
    have hend : Lexer.endsName (':' :: rest) = true := rfl
    have hbegins := Lexer.begins_word gap hgap hname hend
    rw [String.ofList_toList] at hbegins
    refine ⟨_, _, hbegins, .inl ⟨rfl, rfl⟩, fun x hx span newline => ?_⟩
    refine (is_plain name span newline x).trans (beq_eq_false_iff_ne.mpr ?_)
    rintro rfl
    -- a modifier, or a symbol, which is no name
    simp only [List.mem_cons, List.not_mem_nil, or_false] at hx hmodifier
    rcases hx with rfl | rfl | rfl | rfl | rfl | rfl
    · cases hname
    · simp at hmodifier
    · cases hname
    · simp at hmodifier
    · simp at hmodifier
    · cases hname
  | string quote s hquote h =>
    have hbegins := Lexer.begins_string gap (':' :: rest) hgap hquote h
    exact ⟨_, _, by simpa using hbegins, .inr ⟨rfl, rfl⟩, fun _ _ _ _ => rfl⟩

/-- A key, a colon and a value make up a property. -/
theorem readsProperty_of_key {name : String} {parts : List Node} {valueText : Text}
    (hkey : Keyed text name parts) (hvalue : ReadsValue valueText value) :
    ReadsProperty (text ++ ": ".toList ++ valueText) (.property .nowhere (some name) parts value) := by
  obtain ⟨n, hvalue⟩ := hvalue
  refine ⟨n, fun d gap rest u hd hbudget hgap hrest hclose => ?_⟩
  have hu : u.rest = gap ++ (text ++ ':' :: ' ' :: (valueText ++ rest)) := by simp [hrest]
  obtain ⟨l, newline, hbegins, hl, hsymbols⟩ := hkey.begins hgap (' ' :: (valueText ++ rest))
  obtain ⟨hmoved₁, ⟨s₁, h₁⟩, hrest₁⟩ := State.next_of_begins (hu ▸ hbegins)
  have hcolon : Begins (':' :: ' ' :: (valueText ++ rest)) (.symbol ":") false
      (' ' :: (valueText ++ rest)) := Lexer.begins_symbol [] rfl rfl rfl rfl
  obtain ⟨hmoved₂, ⟨s₂, h₂⟩, hrest₂⟩ := State.next_of_begins (hrest₁ ▸ hcolon)
  have hfirst {x : String} (hx : x ∈ ["...", "async", "*", "get", "set", rbrace]) :
      u.next.token.is x = false := h₁ ▸ hsymbols x hx s₁ newline
  have hthen (x : String) : u.next.next.token.is x = (":" == x) := by rw [h₂, is_symbol]
  refine ⟨hfirst (by simp), ?_⟩
  simp only [Reads, objectProperty, gives_steps, hfirst (x := "...") (by simp),
    hfirst (x := "async") (by simp), hfirst (x := "*") (by simp), Token.isAny, List.any_cons,
    List.any_nil, hfirst (x := "get") (by simp), hfirst (x := "set") (by simp), Bool.false_eq_true,
    if_false, Bool.not_false, Bool.and_false, Bool.or_false, Bool.true_and, if_true]
  have hkeyed : Gives (key (grammar d)) (fun k t => t = u.next.next ∧ k.name = some name ∧
      k.parts.map Node.erase = parts.map Node.erase) u.next := by
    have hlexeme : u.next.token.lexeme = l := by rw [h₁]
    rcases hl with ⟨rfl, rfl⟩ | ⟨rfl, rfl⟩
    · simp only [key, gives_steps, hlexeme, Lexeme.plain, and_self]
    · simp only [key, gives_steps, hlexeme, true_and]
      rfl
  refine hkeyed.mono ?_
  rintro k _ ⟨rfl, hname, hparts⟩
  simp only [gives_steps, hthen, String.reduceBEq, Bool.or_self, Bool.false_eq_true, if_false,
    if_true]
  refine (hvalue d [' '] rest u.next.next hd hbudget rfl hrest₂ hclose).mono ?_
  rintro e t ⟨v, hmoved, hv, rfl, he⟩
  refine ⟨v, (hmoved₁.trans hmoved₂).trans hmoved, hv, rfl, ?_⟩
  rw [Node.erase_eq, Node.erase_eq (.property ..)]
  simp only [Node.mapParts, hname, he, hparts]

/-- One property between braces. -/
theorem objectLiteral_reads {n d : Nat} {gap : Text} {w : State} (hgap : isGapText gap = true)
    (h : ∀ v : State, n ≤ v.budget → v.rest = ' ' :: (text ++ ' ' :: '\x7d' :: rest) →
      v.next.token.is rbrace = false ∧ Reads false (objectProperty (grammar d))
        (' ' :: '\x7d' :: rest) (·.erase = p.erase) v)
    (hbudget : n + 2 ≤ w.budget)
    (hrest : w.rest = gap ++ '\x7b' :: ' ' :: (text ++ ' ' :: '\x7d' :: rest)) :
    Reads false (objectLiteral (grammar d)) rest (·.erase = .object .nowhere [p.erase]) w := by
  have hopen : Begins w.rest (.symbol lbrace) (gap.any Lexer.isBreak)
      (' ' :: (text ++ ' ' :: '\x7d' :: rest)) := hrest ▸ Lexer.begins_symbol gap hgap rfl rfl rfl
  have hclose : Begins (' ' :: '\x7d' :: rest) (.symbol rbrace) false rest :=
    Lexer.begins_symbol [' '] rfl rfl rfl rfl
  obtain ⟨hmoved₁, ⟨s₁, h₁⟩, hrest₁⟩ := State.next_of_begins hopen
  obtain ⟨hfirst, hproperty⟩ := h w.next (by show n ≤ w.budget; omega) hrest₁
  obtain ⟨k, hk⟩ : ∃ k, w.next.next.budget = k + 1 + 1 :=
    ⟨w.budget - 2, by show w.budget = _; omega⟩
  simp only [Reads, objectLiteral, gives_steps, h₁, is_symbol, BEq.rfl, true_and, separated,
    gives_repeatFrom, hk]
  rw [gives_loop]
  simp only [gives_steps, hfirst, Bool.false_eq_true, if_false]
  refine hproperty.mono ?_
  rintro q t ⟨v, hmoved₂, hv, rfl, hq⟩
  obtain ⟨hmoved₃, ⟨s₃, h₃⟩, hrest₃⟩ := State.next_of_begins (hv ▸ hclose)
  simp only [gives_steps, h₃, is_symbol, BEq.rfl, Bool.not_true, Bool.false_eq_true, if_false,
    Sum.elim_inl]
  rw [gives_loop]
  simp only [gives_steps, h₃, is_symbol, BEq.rfl, if_true, Sum.elim_inr, true_and]
  refine ⟨v.next, (hmoved₁.trans hmoved₂).trans hmoved₃, hrest₃, rfl, ?_⟩
  rw [Node.erase_eq]
  simp [Node.mapParts, hq]

/-- A property between braces is an object. -/
theorem readsValue_object (h : ReadsProperty text p) :
    ReadsValue ("\x7b ".toList ++ text ++ " \x7d".toList) (.object .nowhere [p]) := by
  obtain ⟨n, h⟩ := h
  refine ⟨n + 4, fun d gap rest u hd hbudget hgap hrest hclose => ?_⟩
  obtain ⟨d, rfl⟩ := Nat.exists_eq_add_of_le' (Nat.le_trans (Nat.le_add_left 4 n) hd)
  have hu : u.rest = gap ++ '\x7b' :: ' ' :: (text ++ ' ' :: '\x7d' :: rest) := by simp [hrest]
  have hends (v : State) (hv : v.rest = rest) : EndsExpression v.next.token :=
    ends_of_closesValue hclose hv
  have hinner : closesValue (' ' :: '\x7d' :: rest) = true := by
    have hbrace : Begins (' ' :: '\x7d' :: rest) (.symbol rbrace) false rest :=
      Lexer.begins_symbol [' '] rfl rfl rfl rfl
    obtain ⟨span, here, hread⟩ := hbrace 0
    rw [closesValue, hread]
    rfl
  refine inner_reads fun scope => ?_
  have hw : (u.inScope scope).rest = gap ++ '\x7b' :: ' ' :: (text ++ ' ' :: '\x7d' :: rest) := hu
  have hwbudget : n + 4 ≤ (u.inScope scope).budget := hbudget
  generalize u.inScope scope = w at hw hwbudget
  have hliteral : Reads false (objectLiteral (grammar d)) rest (·.erase = .object .nowhere [p.erase])
      w := objectLiteral_reads hgap (fun v hv hrest =>
        h d [' '] _ v (by omega) hv rfl hrest hinner) (by omega) hw
  obtain ⟨-, ⟨s₁, h₁⟩, -⟩ := State.next_of_begins (hw ▸ Lexer.begins_symbol gap hgap rfl rfl rfl :
    Begins w.rest (.symbol lbrace) (gap.any Lexer.isBreak) _)
  have hlexeme : w.next.token.lexeme = .symbol lbrace := by rw [h₁]
  refine ⟨by rw [h₁]; rfl, by rw [h₁]; exact nofun, operand_reads hends ?_ (by omega), hends,
    by omega⟩
  simp only [Reads, primary, gives_steps, hlexeme, show (lbrace == "(") = false from rfl,
    show (lbrace == "[") = false from rfl, BEq.rfl, Bool.false_eq_true, if_false, if_true]
  refine hliteral.mono ?_
  rintro e t ⟨v, hmoved, hv, rfl, he⟩
  refine ⟨v, hmoved, hv, rfl, he.trans ?_⟩
  rw [Node.erase_eq (.object ..)]
  rfl

end Parser

end Codemod

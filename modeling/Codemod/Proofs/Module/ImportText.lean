import Codemod.Proofs.Module.Import
import Codemod.Proofs.Syntax.Parser.Gives
import Codemod.Syntax.Parser

/-!
# Codemod.Proofs.Module.ImportText

An import that is written from a clause reads back as that clause.

The text of an import is followed token by token: a specifier (`importSpecifier_reads`), the
specifiers between braces (`importedNames_reads`), the declaration (`importRest_reads`), a statement
with any text behind it (`statement_reads`), and a module that consists of it (`Script.parse_render`).
The mark of a type is a fault where there are no types, which is why each of these says whether a
fault is noted.

* `ImportClause.declaration_roundtrip`: what a clause is written as has that clause.
* `ImportClause.quoted_name_lost`: a name in quotes is written without them.
-/

namespace Codemod

open Lexer (Begins Tokens isPlainName endsName)
open Codemod.Parser (State Gives Reads gives_steps)

/-- A word, written without escapes. -/
def Lexeme.plain (name : String) : Lexeme :=
  .word name false

section Words

theorem begins_plain (name : String) (gap : Text) {rest : Text} (hgap : gap = [] ∨ gap = [' '])
    (hname : isPlainName name.toList = true) (hrest : endsName rest = true) :
    Begins (gap ++ (name.toList ++ rest)) (.plain name) false rest := by
  have hbegins := Lexer.begins_word gap (by rcases hgap with rfl | rfl <;> rfl) hname hrest
  rw [String.ofList_toList] at hbegins
  rcases hgap with rfl | rfl <;> exact hbegins

theorem tokens_word (name : String) (gap rest : Text) (hgap : gap = [] ∨ gap = [' '])
    (hname : isPlainName name.toList = true) (hrest : endsName rest = true) :
    Tokens (gap ++ (name.toList ++ rest)) [.plain name] rest :=
  .cons (begins_plain name gap hgap hname hrest) (.nil rest)

theorem endsName_space (rest : Text) : endsName (' ' :: rest) = true := by
  rfl

end Words

namespace NamedImport

/-- A specifier that can be written without quotes: both names are plain, and the one that is bound
is not reserved. -/
structure Legible (n : NamedImport) : Prop where
  imported : isPlainName n.imported.toList = true
  name : isPlainName n.name.toList = true
  free : n.name ∉ reservedWords

instance (n : NamedImport) : Decidable n.Legible :=
  decidable_of_iff (isPlainName n.imported.toList = true ∧ isPlainName n.name.toList = true ∧
    n.name ∉ reservedWords) ⟨fun ⟨h₁, h₂, h₃⟩ => ⟨h₁, h₂, h₃⟩, fun ⟨h₁, h₂, h₃⟩ => ⟨h₁, h₂, h₃⟩⟩

/-- Whether the mark of a type can be read as nothing else. -/
def marked (n : NamedImport) : Bool :=
  n.typeOnly && n.imported != "as"

/-- The tokens that a specifier is written with. -/
def lexemes (n : NamedImport) : List Lexeme :=
  (if n.typeOnly then [.plain "type"] else []) ++
    if n.imported = n.name then [.plain n.imported]
    else [.plain n.imported, .plain "as", .plain n.name]

theorem tokens_render {n : NamedImport} (h : n.Legible) (gap : Text) {tail : Text}
    (hgap : gap = [] ∨ gap = [' ']) (htail : endsName tail = true) :
    Tokens (gap ++ (n.render ++ tail)) n.lexemes tail := by
  have hnames {gap : Text} (hgap : gap = [] ∨ gap = [' ']) :
      Tokens (gap ++ ((if n.imported = n.name then n.imported.toList
        else n.imported.toList ++ " as ".toList ++ n.name.toList) ++ tail))
        (if n.imported = n.name then [.plain n.imported]
          else [.plain n.imported, .plain "as", .plain n.name]) tail := by
    split
    · exact tokens_word n.imported gap tail hgap h.imported htail
    · have hfirst := tokens_word n.imported gap
        (' ' :: ("as".toList ++ ' ' :: (n.name.toList ++ tail))) hgap h.imported (endsName_space _)
      have has := tokens_word "as" [' '] (' ' :: (n.name.toList ++ tail)) (.inr rfl) rfl
        (endsName_space _)
      have hsecond := tokens_word n.name [' '] tail (.inr rfl) h.name htail
      simpa using hfirst.append (has.append hsecond)
  rw [render, lexemes]
  cases htype : n.typeOnly with
  | false => simpa [apply_ite] using hnames hgap
  | true =>
    have hmark := tokens_word "type" gap (' ' :: ((if n.imported = n.name then n.imported.toList
      else n.imported.toList ++ " as ".toList ++ n.name.toList) ++ tail)) hgap rfl (endsName_space _)
    have hboth := hmark.append (hnames (.inr rfl))
    split at hboth <;> simpa [*] using hboth

end NamedImport

namespace Parser

section Specifiers

variable {s : State} {name : String} {span : Span} {newline : Bool}

theorem transferName_gives {Q : TransferName → State → Prop}
    (h : s.token = ⟨.plain name, span, newline⟩) :
    Gives transferName Q s ↔ Q ⟨⟨.plain name, span, newline⟩, name, false⟩ s.next := by
  simp only [transferName, gives_steps, h, Lexeme.plain]

theorem seesTransferName_word {Q : Bool → State → Prop}
    (h : s.token = ⟨.plain name, span, newline⟩) :
    Gives seesTransferName Q s ↔ Q true s := by
  simp only [seesTransferName, gives_steps, h, Lexeme.plain]

theorem seesTransferName_symbol {Q : Bool → State → Prop}
    (h : s.token = ⟨.symbol name, span, newline⟩) :
    Gives seesTransferName Q s ↔ Q false s := by
  simp only [seesTransferName, gives_steps, h]

theorem is_plain (name : String) (span : Span) (newline : Bool) (x : String) :
    Token.is ⟨.plain name, span, newline⟩ x = (name == x) := by
  simp [Token.is, Lexeme.plain]

theorem is_symbol (name : String) (span : Span) (newline : Bool) (x : String) :
    Token.is ⟨.symbol name, span, newline⟩ x = (name == x) :=
  rfl

variable {u : State} {a b x : String} {tail rest : Text}

/-- A name by itself. -/
theorem transferSpecifier_single (htokens : Tokens u.rest [.plain a] tail)
    (hend : Begins tail (.symbol x) false rest) (hx : (x == "as") = false) :
    Reads false transferSpecifier tail
      (fun r => ∃ s, r = ⟨false, ⟨⟨.plain a, s, false⟩, a, false⟩, none⟩) u := by
  obtain ⟨hmoved, ⟨s₁, h₁⟩, htokens⟩ := State.next_of_tokens htokens
  cases htokens
  obtain ⟨-, ⟨s₂, h₂⟩, -⟩ := State.next_of_begins hend
  simp only [Reads, transferSpecifier, gives_steps, transferName_gives h₁, Bool.false_or]
  cases a != "type" <;>
    simp only [gives_steps, h₂, is_symbol, hx, seesTransferName_symbol h₂, Bool.false_eq_true,
      if_false, if_true] <;>
    exact ⟨u.next, hmoved, rfl, rfl, s₁, rfl⟩

/-- A name that is bound under another one. -/
theorem transferSpecifier_renamed (htokens : Tokens u.rest [.plain a, .plain "as", .plain b] tail)
    (hend : Begins tail (.symbol x) false rest) :
    Reads false transferSpecifier tail (fun r => ∃ s t,
      r = ⟨false, ⟨⟨.plain a, s, false⟩, a, false⟩, some ⟨⟨.plain b, t, false⟩, b, false⟩⟩) u := by
  obtain ⟨hmoved₁, ⟨s₁, h₁⟩, htokens⟩ := State.next_of_tokens htokens
  obtain ⟨hmoved₂, ⟨s₂, h₂⟩, htokens⟩ := State.next_of_tokens htokens
  obtain ⟨hmoved₃, ⟨s₃, h₃⟩, htokens⟩ := State.next_of_tokens htokens
  cases htokens
  obtain ⟨-, ⟨s₄, h₄⟩, -⟩ := State.next_of_begins hend
  have hmoved := (hmoved₁.trans hmoved₂).trans hmoved₃
  simp only [Reads, transferSpecifier, gives_steps, transferName_gives h₁, Bool.false_or]
  -- `type as as` and `type as b` are the renaming of a name, not marks
  cases a != "type" <;> cases hb : b == "as" <;>
    simp only [gives_steps, h₂, h₃, is_plain, transferName_gives h₂, transferName_gives h₃,
      seesTransferName_word h₃, seesTransferName_symbol h₄, hb, BEq.rfl, Bool.false_eq_true,
      if_false, if_true] <;>
    exact ⟨u.next.next.next, hmoved, rfl, rfl, s₁, s₃, rfl⟩

/-- A name that is marked as a type. Without types, that is a fault, unless the name is `as`. -/
theorem transferSpecifier_mark (htokens : Tokens u.rest [.plain "type", .plain a] tail)
    (hend : Begins tail (.symbol x) false rest) (hx : (x == "as") = false) :
    Reads (!u.dialect.types && a != "as") transferSpecifier tail
      (fun r => ∃ s, r = ⟨true, ⟨⟨.plain a, s, false⟩, a, false⟩, none⟩) u := by
  obtain ⟨hmoved₁, ⟨s₁, h₁⟩, htokens⟩ := State.next_of_tokens htokens
  obtain ⟨hmoved₂, ⟨s₂, h₂⟩, htokens⟩ := State.next_of_tokens htokens
  cases htokens
  obtain ⟨-, ⟨s₃, h₃⟩, -⟩ := State.next_of_begins hend
  have hmoved := hmoved₁.trans hmoved₂
  have hdialect : u.next.next.dialect = u.dialect := by rw [hmoved.eq]
  rw [bne]
  simp only [Reads, transferSpecifier, gives_steps, transferName_gives h₁, Bool.false_or,
    bne_self_eq_false, Bool.false_eq_true, if_false, h₂, is_plain]
  cases ha : a == "as" with
  | true =>
    simp only [gives_steps, h₃, is_symbol, transferName_gives h₂, seesTransferName_symbol h₃, hx,
      Bool.false_eq_true, Bool.not_true, Bool.and_false, if_false, if_true]
    exact ⟨u.next.next, hmoved, rfl, rfl, s₂, rfl⟩
  | false =>
    cases htypes : u.dialect.types with
    | true =>
      simp only [gives_steps, h₃, is_symbol, transferName_gives h₂, seesTransferName_word h₂, hx,
        hdialect, htypes, Bool.not_true, Bool.false_and, Bool.false_eq_true, if_false, if_true]
      exact ⟨u.next.next, hmoved, rfl, rfl, s₂, rfl⟩
    | false =>
      simp only [gives_steps, seesTransferName_word h₂, hdialect, htypes, Bool.not_false,
        Bool.and_self, Bool.false_eq_true, if_false, if_true]
      generalize hnoted : u.next.next.noting _ = v
      have hv : v.token = ⟨.plain a, s₂, false⟩ := by rw [← hnoted]; exact h₂
      have hv' : v.next.token = ⟨.symbol x, s₃, false⟩ := by rw [← hnoted]; exact h₃
      simp only [transferName_gives hv, hv', is_symbol, hx, Bool.false_eq_true, if_false]
      subst hnoted
      exact ⟨_, hmoved.noting _, State.rest_noting _ _, rfl, s₂, rfl⟩

/-- A name that is marked as a type and bound under another one. -/
theorem transferSpecifier_mark_renamed
    (htokens : Tokens u.rest [.plain "type", .plain a, .plain "as", .plain b] tail) :
    Reads (!u.dialect.types && a != "as") transferSpecifier tail (fun r => ∃ s t,
      r = ⟨true, ⟨⟨.plain a, s, false⟩, a, false⟩, some ⟨⟨.plain b, t, false⟩, b, false⟩⟩) u := by
  obtain ⟨hmoved₁, ⟨s₁, h₁⟩, htokens⟩ := State.next_of_tokens htokens
  obtain ⟨hmoved₂, ⟨s₂, h₂⟩, htokens⟩ := State.next_of_tokens htokens
  obtain ⟨hmoved₃, ⟨s₃, h₃⟩, htokens⟩ := State.next_of_tokens htokens
  obtain ⟨hmoved₄, ⟨s₄, h₄⟩, htokens⟩ := State.next_of_tokens htokens
  cases htokens
  have hmoved := ((hmoved₁.trans hmoved₂).trans hmoved₃).trans hmoved₄
  have hdialect : u.next.next.dialect = u.dialect := by rw [(hmoved₁.trans hmoved₂).eq]
  rw [bne]
  simp only [Reads, transferSpecifier, gives_steps, transferName_gives h₁, Bool.false_or,
    bne_self_eq_false, Bool.false_eq_true, if_false, h₂, is_plain]
  cases ha : a == "as" with
  | true =>
    simp only [gives_steps, h₃, is_plain, transferName_gives h₂, transferName_gives h₃,
      transferName_gives h₄, seesTransferName_word h₄, BEq.rfl, Bool.not_true, Bool.and_false,
      if_true]
    exact ⟨u.next.next.next.next, hmoved, rfl, rfl, s₂, s₄, rfl⟩
  | false =>
    cases htypes : u.dialect.types with
    | true =>
      simp only [gives_steps, h₃, is_plain, transferName_gives h₂, transferName_gives h₄,
        seesTransferName_word h₂, hdialect, htypes, BEq.rfl, Bool.not_true, Bool.false_and,
        Bool.false_eq_true, if_false, if_true]
      exact ⟨u.next.next.next.next, hmoved, rfl, rfl, s₂, s₄, rfl⟩
    | false =>
      simp only [gives_steps, seesTransferName_word h₂, hdialect, htypes, Bool.not_false,
        Bool.and_self, Bool.false_eq_true, if_false, if_true]
      generalize hnoted : u.next.next.noting _ = v
      have hv : v.token = ⟨.plain a, s₂, false⟩ := by rw [← hnoted]; exact h₂
      have hv' : v.next.token = ⟨.plain "as", s₃, false⟩ := by rw [← hnoted]; exact h₃
      have hv'' : v.next.next.token = ⟨.plain b, s₄, false⟩ := by rw [← hnoted]; exact h₄
      simp only [transferName_gives hv, hv', is_plain, transferName_gives hv'', BEq.rfl, if_true]
      subst hnoted
      simp only [State.next_noting]
      exact ⟨_, hmoved.noting _, State.rest_noting _ _, (State.next_noting _ _).symm, s₂, s₄, rfl⟩

/-- A specifier reads back as what it was written from. -/
theorem importSpecifier_reads {n : NamedImport} (h : n.Legible)
    (htokens : Tokens u.rest n.lexemes tail) (hend : Begins tail (.symbol x) false rest)
    (hx : (x == "as") = false) :
    Reads (!u.dialect.types && n.marked) importSpecifier tail
      (· = .named n.imported n.name n.typeOnly) u := by
  have hfree (s : Span) : Token.isName ⟨.plain n.name, s, false⟩ = true := by
    simpa [Token.isName, Lexeme.plain] using h.free
  have hread : Reads (!u.dialect.types && n.marked) transferSpecifier tail
      (fun r => r.typeOnly = n.typeOnly ∧ r.first.name = n.imported ∧
        ∃ s, r.second.getD r.first = ⟨⟨.plain n.name, s, false⟩, n.name, false⟩) u := by
    unfold NamedImport.lexemes at htokens
    rw [NamedImport.marked]
    cases htype : n.typeOnly with
    | false =>
      rw [htype] at htokens
      rw [Bool.false_and, Bool.and_false]
      by_cases hsame : n.imported = n.name
      · rw [if_pos hsame] at htokens
        refine (transferSpecifier_single htokens hend hx).imp ?_
        rintro r ⟨s, rfl⟩
        exact ⟨rfl, rfl, s, by rw [← hsame]; rfl⟩
      · rw [if_neg hsame] at htokens
        refine (transferSpecifier_renamed htokens hend).imp ?_
        rintro r ⟨s, t, rfl⟩
        exact ⟨rfl, rfl, t, rfl⟩
    | true =>
      rw [htype] at htokens
      by_cases hsame : n.imported = n.name
      · rw [if_pos hsame] at htokens
        refine (transferSpecifier_mark htokens hend hx).imp ?_
        rintro r ⟨s, rfl⟩
        exact ⟨rfl, rfl, s, by rw [← hsame]; rfl⟩
      · rw [if_neg hsame] at htokens
        refine (transferSpecifier_mark_renamed htokens).imp ?_
        rintro r ⟨s, t, rfl⟩
        exact ⟨rfl, rfl, t, rfl⟩
  rw [← Bool.or_false (!u.dialect.types && n.marked)]
  refine hread.bind ?_
  rintro r v - hrest ⟨htype, hname, s, hbound⟩
  simp only [Reads, hbound, hfree, gives_steps, Bool.not_true, Bool.or_self, Bool.false_eq_true,
    if_false]
  exact ⟨v, .refl v, hrest, rfl, by rw [htype, hname]⟩

end Specifiers

section Lists

/-- Specifiers with commas between them, up to the closing brace. -/
def namedText : List NamedImport → Text → Text
  | [], rest => ' ' :: '}' :: rest
  | [n], rest => ' ' :: (n.render ++ ' ' :: '}' :: rest)
  | n :: ns, rest => ' ' :: (n.render ++ ',' :: namedText ns rest)

theorem namedText_eq {ns : List NamedImport} (h : ns ≠ []) (rest : Text) :
    namedText ns rest =
      ' ' :: (Text.join ", ".toList (ns.map NamedImport.render) ++ ' ' :: '}' :: rest) := by
  induction ns with
  | nil => exact absurd rfl h
  | cons n ns ih =>
    cases ns with
    | nil => rfl
    | cons m ns =>
      have hjoin : Text.join ", ".toList ((n :: m :: ns).map NamedImport.render) =
          n.render ++ ", ".toList ++ Text.join ", ".toList ((m :: ns).map NamedImport.render) := rfl
      rw [hjoin, namedText, ih (by simp)]
      · simp
      · simp

theorem begins_close (rest : Text) : Begins (' ' :: '}' :: rest) (.symbol rbrace) false rest :=
  Lexer.begins_symbol [' '] rfl rfl rfl rfl

theorem begins_comma (rest : Text) : Begins (',' :: rest) (.symbol ",") false rest :=
  Lexer.begins_symbol [] rfl rfl rfl rfl

/-- The first token of a specifier is a word. -/
theorem is_rbrace_of_named {n : NamedImport} (h : n.Legible) {u : State}
    {tail : Text} (htokens : Tokens u.rest n.lexemes tail) : u.next.token.is rbrace = false := by
  have hfirst : ∃ name ls, isPlainName name.toList = true ∧ n.lexemes = .plain name :: ls := by
    rw [NamedImport.lexemes]
    cases n.typeOnly with
    | true => exact ⟨"type", _, rfl, rfl⟩
    | false =>
      by_cases hsame : n.imported = n.name
      · exact ⟨n.imported, [], h.imported, by simp [hsame]⟩
      · exact ⟨n.imported, [.plain "as", .plain n.name], h.imported, by simp [hsame]⟩
  obtain ⟨name, ls, hplain, hls⟩ := hfirst
  rw [hls] at htokens
  obtain ⟨-, ⟨s, hs⟩, -⟩ := State.next_of_tokens htokens
  rw [hs, is_plain, beq_eq_false_iff_ne]
  rintro rfl
  revert hplain
  decide

theorem separated_reads {ns : List NamedImport} (h : ∀ n ∈ ns, n.Legible) {u : State} {rest : Text}
    (hrest : u.rest = namedText ns rest) (hbudget : ns.length < u.budget) :
    Reads (!u.dialect.types && ns.any (·.marked)) (separated rbrace importSpecifier)
      (' ' :: '}' :: rest) (· = ns.map fun n => .named n.imported n.name n.typeOnly) u := by
  have key (items : List ImportSpecifier) (k : Nat) (hk : ns.length < k) :
      Reads (!u.dialect.types && ns.any (·.marked)) (loop (fun items => do
        if ← sees rbrace then return .inr items.reverse
        let a ← importSpecifier
        if !(← sees rbrace) then expect ","
        return .inl (a :: items)) k items) (' ' :: '}' :: rest)
        (· = items.reverse ++ ns.map fun n => .named n.imported n.name n.typeOnly) u := by
    clear hbudget
    induction ns generalizing items k u with
    | nil =>
      obtain ⟨k, rfl⟩ : ∃ j, k = j + 1 := ⟨k - 1, by omega⟩
      have hclose : Begins u.rest (.symbol rbrace) false rest := by
        rw [hrest]
        exact begins_close rest
      obtain ⟨-, ⟨s, hs⟩, -⟩ := State.next_of_begins hclose
      rw [Reads, gives_loop]
      simp only [gives_steps, hs, is_symbol, BEq.rfl, if_true, List.any_nil, Bool.and_false]
      exact ⟨u, .refl u, hrest, rfl, by simp⟩
    | cons n ns ih =>
      obtain ⟨k, rfl⟩ : ∃ j, k = j + 1 := ⟨k - 1, by omega⟩
      obtain ⟨hn, hns⟩ := List.forall_mem_cons.mp h
      rw [Reads, gives_loop, List.any_cons, Bool.and_or_distrib_left]
      cases ns with
      | nil =>
        have htokens : Tokens u.rest n.lexemes (' ' :: '}' :: rest) := by
          rw [hrest]
          exact NamedImport.tokens_render hn [' '] (.inr rfl) rfl
        simp only [gives_steps, is_rbrace_of_named hn htokens, Bool.false_eq_true, if_false]
        refine (importSpecifier_reads hn htokens (begins_close rest) rfl).mono ?_
        rintro a t ⟨v, hmoved, hv, rfl, rfl⟩
        have hclose : Begins v.rest (.symbol rbrace) false rest := by
          rw [hv]
          exact begins_close rest
        have hdialect : v.dialect = u.dialect := by rw [hmoved.eq]
        obtain ⟨-, ⟨s, hs⟩, -⟩ := State.next_of_begins hclose
        simp only [gives_steps, hs, is_symbol, BEq.rfl, Bool.not_true, Bool.false_eq_true, if_false,
          Sum.elim_inl]
        refine (ih (u := v) nofun hv _ k (by simp_all)).mono ?_
        rintro b t ⟨w, hmoved', hw, rfl, rfl⟩
        rw [hdialect] at hmoved'
        exact ⟨w, hmoved.trans hmoved', hw, rfl, by simp⟩
      | cons m ns =>
        have htokens : Tokens u.rest n.lexemes (',' :: namedText (m :: ns) rest) := by
          rw [hrest]
          exact NamedImport.tokens_render hn [' '] (.inr rfl) rfl
        simp only [gives_steps, is_rbrace_of_named hn htokens, Bool.false_eq_true, if_false]
        refine (importSpecifier_reads hn htokens (begins_comma _) rfl).mono ?_
        rintro a t ⟨v, hmoved, hv, rfl, rfl⟩
        have hcomma : Begins v.rest (.symbol ",") false (namedText (m :: ns) rest) := by
          rw [hv]
          exact begins_comma _
        obtain ⟨hmoved', ⟨s, hs⟩, hnext⟩ := State.next_of_begins hcomma
        have hdialect : v.next.dialect = u.dialect := by rw [hmoved'.eq, hmoved.eq]
        have hnot : (("," : String) == rbrace) = false := rfl
        simp only [gives_steps, hs, is_symbol, hnot, BEq.rfl, Bool.not_false, if_true, true_and,
          Sum.elim_inl]
        refine (ih (u := v.next) hns hnext _ k (by simp_all)).mono ?_
        rintro b t ⟨w, hmoved'', hw, rfl, rfl⟩
        rw [hdialect] at hmoved''
        have hall := (hmoved.trans hmoved').trans hmoved''
        rw [Bool.or_false] at hall
        exact ⟨w, hall, hw, rfl, by simp⟩
  exact gives_repeatFrom.mpr (key [] u.budget hbudget)

theorem begins_open (rest : Text) : Begins (' ' :: '{' :: rest) (.symbol lbrace) false rest :=
  Lexer.begins_symbol [' '] rfl rfl rfl rfl

/-- Specifiers between braces. -/
theorem importedNames_reads {ns : List NamedImport} (h : ∀ n ∈ ns, n.Legible) {u : State}
    {rest : Text} (hrest : u.rest = ' ' :: '{' :: namedText ns rest)
    (hbudget : ns.length < u.budget) :
    Reads (!u.dialect.types && ns.any (·.marked)) importedNames rest
      (· = ns.map fun n => .named n.imported n.name n.typeOnly) u := by
  have hopen : Begins u.rest (.symbol lbrace) false (namedText ns rest) := by
    rw [hrest]
    exact begins_open _
  obtain ⟨hmoved, ⟨s, hs⟩, hnext⟩ := State.next_of_begins hopen
  have hdialect : u.next.dialect = u.dialect := by rw [hmoved.eq]
  have hnot : (lbrace == "*") = false := rfl
  simp only [Reads, importedNames, gives_steps, hs, is_symbol, hnot, BEq.rfl, Bool.false_eq_true,
    if_false, true_and]
  have hlist := separated_reads h (u := u.next) hnext (by rw [hmoved.eq]; exact hbudget)
  refine hlist.mono ?_
  rintro names t ⟨v, hmoved', hv, rfl, rfl⟩
  have hclose : Begins v.rest (.symbol rbrace) false rest := by
    rw [hv]
    exact begins_close rest
  obtain ⟨hmoved'', ⟨e, he⟩, htail⟩ := State.next_of_begins hclose
  simp only [he, is_symbol, BEq.rfl, true_and]
  have hall := (hmoved.trans hmoved').trans hmoved''
  rw [hdialect, Bool.or_false, Bool.false_or] at hall
  exact ⟨v.next, hall, htail, rfl, trivial⟩

end Lists

section Declarations

/-- An import that comes to this place ends here without a `;`: its line ends, and neither a `;`
nor attributes follow on the next one. -/
def endsImport (rest : Text) : Bool :=
  let t := (Lexer.read 0 rest).token
  (t.newline || t.lexeme == .finish) && !t.isAny [";", "with", "assert"]

/-- The source of an import can be written, and the import ends where it should. -/
structure SourceText (style : Style) (source : String) (tail : Text) : Prop where
  quote : style.quote = '"' ∨ style.quote = '\''
  verbatim : Lexer.isVerbatim style.quote source.toList = true
  ends : style.semicolons = true ∨ endsImport tail = true

theorem is_congr {t t' : Token} (h : t.lexeme = t'.lexeme) (x : String) : t.is x = t'.is x := by
  rw [Token.is, Token.is, h]

/-- The end of an import, from the name of the module on. -/
def importEnd (start : Nat) (typeOnly : Bool) (specifiers : Option (List ImportSpecifier)) :
    Parser Node := do
  let (sourceSpan, source) ← moduleSource
  let attributes ← importAttributes
  terminator
  let span ← spanFrom start
  return .importDecl ⟨span, typeOnly, specifiers, source, sourceSpan⟩
    (.string sourceSpan source :: attributes)

variable {u : State} {style : Style} {source : String} {tail : Text}

theorem begins_source (h : SourceText style source tail) :
    Begins (' ' :: (style.quoted source.toList ++ style.terminator ++ tail)) (.string source) false
      (style.terminator ++ tail) := by
  have hbegins := Lexer.begins_string [' '] (style.terminator ++ tail) rfl h.quote
    h.verbatim
  rw [String.ofList_toList] at hbegins
  simpa [Style.quoted, show Lexer.isBreak ' ' = false from rfl] using hbegins

theorem importEnd_reads (h : SourceText style source tail) (start : Nat) (typeOnly : Bool)
    (specifiers : Option (List ImportSpecifier))
    (hrest : u.rest = ' ' :: (style.quoted source.toList ++ style.terminator ++ tail)) :
    Reads false (importEnd start typeOnly specifiers) tail (fun n => ∃ span t,
      n = .importDecl ⟨span, typeOnly, specifiers, source, t⟩ [.string t source]) u := by
  have hstring : Begins u.rest (.string source) false (style.terminator ++ tail) := by
    rw [hrest]
    exact begins_source h
  obtain ⟨hmoved, ⟨t, ht⟩, hnext⟩ := State.next_of_begins hstring
  simp only [Reads, importEnd, moduleSource, gives_steps, ht]
  cases hsemi : style.semicolons with
  | true =>
    have hend : Begins u.next.rest (.symbol ";") false tail := by
      rw [hnext, Style.terminator, hsemi]
      exact Lexer.begins_symbol [] rfl rfl rfl rfl
    obtain ⟨hmoved', ⟨e, he⟩, htail⟩ := State.next_of_begins hend
    simp only [importAttributes, terminator, gives_steps, he, is_symbol, BEq.rfl, String.reduceBEq,
      Bool.false_and, Bool.or_self, Bool.false_eq_true, if_false, if_true]
    exact ⟨u.next.next, hmoved.trans hmoved', htail, rfl, _, _, rfl⟩
  | false =>
    have htail : u.next.rest = tail := by
      rw [hnext, Style.terminator, hsemi]
      rfl
    have htoken : u.next.next.token = (Lexer.read u.next.token.span.stop tail).token := by
      rw [← htail]
      rfl
    obtain ⟨hlexeme, hline⟩ := Lexer.read_offset 0 u.next.token.span.stop tail
    have hends := h.ends.resolve_left (by simp [hsemi])
    simp only [endsImport, Token.isAny, is_congr hlexeme, hlexeme, hline, ← htoken, List.any_cons,
      List.any_nil, Bool.or_false, Bool.and_eq_true, Bool.not_eq_true', Bool.or_eq_false_iff] at hends
    obtain ⟨hends, hmark, hwith, hassert⟩ := hends
    have hend : (u.next.next.token.isAny [";", rbrace] || u.next.next.token.lexeme == .finish ||
        u.next.next.token.newline) = true := by
      rw [Bool.or_assoc, Bool.or_comm (_ == _), hends, Bool.or_true]
    simp only [importAttributes, terminator, gives_steps, hmark, hwith, hassert, hend,
      Bool.false_and, Bool.or_self, Bool.false_eq_true, if_false, if_true]
    exact ⟨u.next, hmoved, htail, rfl, _, _, rfl⟩

end Declarations

end Parser

/-- A clause that can be written without quotes: its names are plain, and those that are bound are
not reserved. -/
structure ImportClause.Legible (c : ImportClause) : Prop where
  main : ∀ name ∈ c.main, isPlainName name.toList = true ∧ name ∉ reservedWords ∧ name ≠ "await"
  named : ∀ n ∈ c.named, n.Legible

instance (c : ImportClause) : Decidable c.Legible :=
  decidable_of_iff ((∀ name ∈ c.main, isPlainName name.toList = true ∧ name ∉ reservedWords ∧
    name ≠ "await") ∧ ∀ n ∈ c.named, n.Legible) ⟨fun ⟨h₁, h₂⟩ => ⟨h₁, h₂⟩, fun ⟨h₁, h₂⟩ => ⟨h₁, h₂⟩⟩

/-- The names of an import as they are written, up to `from`. -/
def ImportClause.namesText (c : ImportClause) (rest : Text) : Text :=
  match c.main, c.named with
  | some name, [] => ' ' :: (name.toList ++ rest)
  | some name, ns => ' ' :: (name.toList ++ ',' :: ' ' :: '{' :: Parser.namedText ns rest)
  | .none, ns => ' ' :: '{' :: Parser.namedText ns rest

/-- What a clause is read as, wherever that stands. -/
theorem ImportClause.erase_declaration (c : ImportClause) (span s t : Span) :
    (Node.importDecl ⟨span, false, some (c.main.toList.map (.main s) ++
      c.named.map fun n => .named n.imported n.name n.typeOnly), c.source, t⟩
      [.string t c.source]).erase = c.node := by
  simp only [Node.erase_eq, Node.mapParts, node, specifiers, ImportDeclaration.mapSpans,
    Option.map_some, List.map_append, List.map_map]
  rfl

theorem ImportClause.render?_eq {c : ImportClause} {style : Style} {text : Text}
    (h : c.render? style = some text) (tail : Text) :
    text ++ tail = "import".toList ++ c.namesText (" from".toList ++
      ' ' :: (style.quoted c.source.toList ++ style.terminator ++ tail)) := by
  obtain ⟨main, named, source⟩ := c
  cases main with
  | none =>
    cases named with
    | nil => simp [render?] at h
    | cons n ns =>
      simp only [namesText]
      rw [Parser.namedText_eq (by simp)]
      simp [render?, Text.join] at h
      simp [← h]
  | some name =>
    cases named with
    | nil =>
      simp [render?, Text.join] at h
      simp [namesText, ← h]
    | cons n ns =>
      simp [render?, Text.join] at h
      simp only [namesText]
      rw [Parser.namedText_eq (by simp)]
      simp [← h]

namespace Parser

theorem importRest_eq (start : Nat) : importRest start = (do
    match (← token).lexeme with
    | .string _ => importEnd start false none
    | _ =>
      let typeOnly ← seesTypeImport
      if typeOnly then
        if !(← dialect).types then note (← offset)
        advance
      else if ← seesPhase then advance
      if (← token).isName then
        if (← dialect).types && (← next (·.is "=")) then importEquals start
        else
          let (span, name) ← bindingName
          let more ← if ← eat "," then importedNames else pure []
          expect "from"
          importEnd start typeOnly (some (.main span name :: more))
      else
        let names ← importedNames
        expect "from"
        importEnd start typeOnly (some names)) :=
  rfl

section Rest

variable {u : State} {style : Style} {source : String} {tail : Text}

theorem begins_from (rest : Text) : Begins (" from".toList ++ ' ' :: rest) (.plain "from") false
    (' ' :: rest) :=
  begins_plain "from" [' '] (.inr rfl) rfl (endsName_space _)

/-- `from` and what comes after it. -/
theorem from_reads (hsource : SourceText style source tail) (start : Nat)
    (specifiers : Option (List ImportSpecifier)) (hrest : u.rest = " from".toList ++
      ' ' :: (style.quoted source.toList ++ style.terminator ++ tail)) :
    u.next.token.is "from" = true ∧ Gives (importEnd start false specifiers) (fun n t => ∃ v,
      u.Moved false v ∧ v.rest = tail ∧ t = v.next ∧ ∃ span t,
        n = .importDecl ⟨span, false, specifiers, source, t⟩ [.string t source]) u.next.next := by
  obtain ⟨hmoved, ⟨s, hs⟩, hnext⟩ := State.next_of_begins (hrest ▸ begins_from _)
  refine ⟨by rw [hs]; rfl, (importEnd_reads hsource start false specifiers hnext).mono ?_⟩
  rintro n t ⟨v, hmoved', hv, rfl, hn⟩
  exact ⟨v, hmoved.trans hmoved', hv, rfl, hn⟩

/-- After the default name of an import comes a comma, or `from` and a string. -/
def AfterName (u : State) : Prop :=
  (∃ s, u.next.token = ⟨.symbol ",", s, false⟩) ∨
    ∃ s t v, u.next.token = ⟨.plain "from", s, false⟩ ∧ u.next.next.token = ⟨.string v, t, false⟩

/-- A default name is not taken for `type`, even if it is that word. -/
theorem seesTypeImport_name (h : AfterName u) {name : String} {s : Span}
    (hs : u.token = ⟨.plain name, s, false⟩) :
    Gives seesTypeImport (fun b t => b = false ∧ t = u) u := by
  simp only [seesTypeImport, gives_steps, hs, is_plain]
  cases name == "type" with
  | false => simp only [gives_steps, Bool.not_false, if_true, and_self]
  | true =>
    simp only [Bool.not_true, Bool.false_eq_true, if_false]
    refine gives_ahead ?_
    rcases h with ⟨s', h₁⟩ | ⟨s', t', v, h₁, h₂⟩
    · have hbrace : u.next.token.isAny [lbrace, "*"] = false := by rw [h₁]; rfl
      have hname : u.next.token.isName = false := by rw [h₁]; rfl
      simp only [gives_steps, hbrace, hname, Bool.false_eq_true, Bool.not_false, if_false, if_true,
        and_self]
    · have hbrace : u.next.token.isAny [lbrace, "*"] = false := by rw [h₁]; rfl
      have hname : u.next.token.isName = true := by rw [h₁]; rfl
      have hfrom : u.next.token.is "from" = true := by rw [h₁]; rfl
      have hstring : u.next.next.token.isAny ["from", "="] = false := by rw [h₂]; rfl
      simp only [gives_steps, hbrace, hname, hfrom, hstring, Bool.false_eq_true, Bool.not_true,
        if_false, and_self]

/-- Nor is it taken for a word that says when to evaluate the module. -/
theorem seesPhase_name (h : AfterName u) {name : String} {s : Span}
    (hs : u.token = ⟨.plain name, s, false⟩) :
    Gives seesPhase (fun b t => b = false ∧ t = u) u := by
  have hstar : u.next.token.is "*" = false := by
    rcases h with ⟨s', h₁⟩ | ⟨s', t', v, h₁, h₂⟩ <;> rw [h₁] <;> rfl
  simp only [seesPhase, gives_steps, hs, is_plain]
  cases name == "defer" with
  | true => simp only [gives_steps, hstar, if_true, and_self]
  | false =>
    simp only [gives_steps, Bool.false_eq_true, if_false, hs, is_plain]
    cases name == "source" with
    | false => simp only [gives_steps, Bool.false_eq_true, if_false, and_self]
    | true =>
      simp only [if_true]
      refine gives_ahead ?_
      rcases h with ⟨s', h₁⟩ | ⟨s', t', v, h₁, h₂⟩
      · have hname : u.next.token.isName = false := by rw [h₁]; rfl
        simp only [gives_steps, hname, Bool.not_false, if_true, and_self]
      · have hname : u.next.token.isName = true := by rw [h₁]; rfl
        have hfrom : u.next.token.is "from" = true := by rw [h₁]; rfl
        have hstring : u.next.next.token.is "from" = false := by rw [h₂]; rfl
        simp only [gives_steps, hname, hfrom, hstring, Bool.false_eq_true, Bool.not_true, if_false,
          and_self]

/-- The default name of an import. -/
theorem bindingName_gives {name : String} {s : Span} (hs : u.token = ⟨.plain name, s, false⟩)
    (hfree : name ∉ reservedWords) (hawait : name ≠ "await") (hyield : u.scope.yields = false) :
    Gives bindingName (fun r t => r = (s, name) ∧ t = u.next) u := by
  have hname : u.token.isName = true := by
    rw [hs]
    simpa [Token.isName, Lexeme.plain] using hfree
  have hnote : (name == "await" && u.scope.awaits || name == "yield" && u.scope.yields) = false := by
    simp [hawait, hyield]
  rw [hs] at hname
  simp only [Lexeme.plain] at hs hname
  simp only [bindingName, gives_steps, hs, hname, hnote, Bool.not_true, Bool.false_eq_true, if_false,
    and_self]

/-- What is read of an import that begins with a default name, up to what comes after the name. -/
theorem importRest_name {name : String} {s : Span} (start : Nat)
    (hs : u.token = ⟨.plain name, s, false⟩) (hafter : AfterName u) (hfree : name ∉ reservedWords)
    (hawait : name ≠ "await") (hyield : u.scope.yields = false) {Q : Node → State → Prop}
    (h : if u.next.token.is "," = true then
        Gives importedNames (fun more t => t.token.is "from" = true ∧
          Gives (importEnd start false (some (.main s name :: more))) Q t.next) u.next.next
      else u.next.token.is "from" = true ∧
        Gives (importEnd start false (some [.main s name])) Q u.next.next) :
    Gives (importRest start) Q u := by
  have hname : u.token.isName = true := by
    rw [hs]
    simpa [Token.isName, Lexeme.plain] using hfree
  have hequals : u.next.token.is "=" = false := by
    rcases hafter with ⟨s', h₁⟩ | ⟨s', t', v, h₁, h₂⟩ <;> rw [h₁] <;> rfl
  have hlexeme : u.token.lexeme = .word name false := by rw [hs]; rfl
  rw [importRest_eq, gives_bind, gives_of_eq (p := token) rfl]
  simp only [hlexeme]
  rw [gives_bind]
  refine (seesTypeImport_name hafter hs).mono ?_
  rintro b t ⟨rfl, rfl⟩
  simp only [Bool.false_eq_true, if_false]
  rw [gives_bind]
  refine (seesPhase_name hafter hs).mono ?_
  rintro b t ⟨rfl, rfl⟩
  simp only [gives_steps, hname, hequals, Bool.false_eq_true, Bool.and_false, if_false, if_true]
  refine (bindingName_gives hs hfree hawait hyield).mono ?_
  rintro r t ⟨rfl, rfl⟩
  exact h

end Rest

theorem importRest_reads {c : ImportClause} (h : c.Legible) {style : Style} {tail : Text}
    (hsource : SourceText style c.source tail) {u : State} (hscope : u.scope.yields = false)
    (hbudget : c.named.length < u.budget)
    (hrest : u.rest = c.namesText (" from".toList ++
      ' ' :: (style.quoted c.source.toList ++ style.terminator ++ tail))) (start : Nat) :
    Reads (!u.dialect.types && c.named.any (·.marked)) (importRest start) tail
      (·.erase = c.node) u := by
  cases hmain : c.main with
  | none =>
    simp only [ImportClause.namesText, hmain] at hrest
    obtain ⟨-, ⟨s, hs⟩, -⟩ := State.next_of_begins (hrest ▸ begins_open _)
    rw [importRest_eq]
    simp only [Reads, seesTypeImport, seesPhase, gives_steps, hs, is_symbol, Token.isName, lbrace,
      String.reduceBEq, Bool.false_eq_true, Bool.not_false, if_false, if_true]
    refine (importedNames_reads h.named hrest hbudget).mono ?_
    rintro names t ⟨v, hmoved, hv, rfl, rfl⟩
    obtain ⟨hfrom, hend⟩ := from_reads hsource start _ hv
    refine ⟨hfrom, hend.mono ?_⟩
    rintro n t ⟨w, hmoved', hw, rfl, span, t, rfl⟩
    have hall := hmoved.trans hmoved'
    rw [Bool.or_false] at hall
    exact ⟨w, hall, hw, rfl, by simpa [hmain] using c.erase_declaration span s t⟩
  | some name =>
    obtain ⟨hplain, hfree, hawait⟩ := h.main name hmain
    cases hnamed : c.named with
    | nil =>
      simp only [ImportClause.namesText, hmain, hnamed] at hrest
      have hfirst : Begins u.rest (.plain name) false (" from".toList ++
          ' ' :: (style.quoted c.source.toList ++ style.terminator ++ tail)) := by
        rw [hrest]
        exact begins_plain name [' '] (.inr rfl) hplain (endsName_space _)
      obtain ⟨hmoved, ⟨s, hs⟩, hnext⟩ := State.next_of_begins hfirst
      obtain ⟨-, ⟨s₂, h₂⟩, hnext₂⟩ := State.next_of_begins (hnext ▸ begins_from _)
      obtain ⟨-, ⟨s₃, h₃⟩, -⟩ := State.next_of_begins (hnext₂ ▸ begins_source hsource)
      have hafter : AfterName u.next := .inr ⟨s₂, s₃, c.source, h₂, h₃⟩
      rw [List.any_nil, Bool.and_false]
      refine importRest_name start hs hafter hfree hawait (by rw [hmoved.eq]; exact hscope) ?_
      rw [if_neg (by rw [h₂, is_plain]; decide)]
      obtain ⟨hfrom, hend⟩ := from_reads hsource start (some [.main s name]) hnext
      refine ⟨hfrom, hend.mono ?_⟩
      rintro n t ⟨w, hmoved₂, hw, rfl, span, t, rfl⟩
      exact ⟨w, hmoved.trans hmoved₂, hw, rfl,
        by simpa [hmain, hnamed] using c.erase_declaration span s t⟩
    | cons n ns =>
      simp only [ImportClause.namesText, hmain, hnamed] at hrest
      have hfirst : Begins u.rest (.plain name) false (',' :: ' ' :: '{' :: namedText (n :: ns)
          (" from".toList ++ ' ' :: (style.quoted c.source.toList ++ style.terminator ++ tail))) := by
        rw [hrest]
        exact begins_plain name [' '] (.inr rfl) hplain rfl
      obtain ⟨hmoved, ⟨s, hs⟩, hnext⟩ := State.next_of_begins hfirst
      obtain ⟨hmoved₂, ⟨s₂, h₂⟩, hnext₂⟩ := State.next_of_begins (hnext ▸ begins_comma _)
      have hdialect : u.next.next.dialect = u.dialect := by rw [hmoved₂.eq, hmoved.eq]
      refine importRest_name start hs (.inl ⟨s₂, h₂⟩) hfree hawait
        (by rw [hmoved.eq]; exact hscope) ?_
      rw [if_pos (by rw [h₂, is_symbol]; rfl)]
      refine (importedNames_reads (hnamed ▸ h.named) hnext₂ ?_).mono ?_
      · rw [hmoved₂.eq, hmoved.eq, ← hnamed]
        exact hbudget
      · rintro names t ⟨v, hmoved₃, hv, rfl, rfl⟩
        obtain ⟨hfrom, hend⟩ := from_reads hsource start _ hv
        refine ⟨hfrom, hend.mono ?_⟩
        rintro n t ⟨w, hmoved₄, hw, rfl, span, t, rfl⟩
        have hall := ((hmoved.trans hmoved₂).trans hmoved₃).trans hmoved₄
        rw [hdialect, Bool.or_false, Bool.or_false, Bool.false_or] at hall
        exact ⟨w, hall, hw, rfl,
          by simpa [hmain, hnamed] using c.erase_declaration span s t⟩

section Statements

variable {u : State} {s : Span} {newline : Bool} {Q : Node → State → Prop}

theorem statement_import (g : Grammar) (hs : u.token = ⟨.plain "import", s, newline⟩)
    (hnext : u.next.token.isAny ["(", "."] = false) :
    Gives (statement g false) Q u ↔ Gives (importRest s.start) Q u.next := by
  have hcontrol : control g u.token = none := by
    rw [hs]
    rfl
  simp only [statement, gives_steps, hcontrol]
  simp only [seesAsyncFunction, gives_steps, hs, hnext, is_plain, lbrace, String.reduceBEq,
    Bool.not_false, Bool.and_self, Bool.false_eq_true, if_false, if_true]

theorem length_namedText (ns : List NamedImport) (rest : Text) :
    ns.length ≤ (namedText ns rest).length := by
  fun_induction namedText ns rest with
  | case1 rest => simp
  | case2 rest n => simp
  | case3 rest n ns hne ih =>
    simp only [List.length_cons, List.length_append]
    omega

theorem length_namesText (c : ImportClause) (rest : Text) :
    c.named.length ≤ (c.namesText rest).length := by
  rw [ImportClause.namesText]
  have := length_namedText c.named rest
  split <;> simp_all <;> omega

theorem exists_namesText (c : ImportClause) (rest : Text) :
    ∃ text, c.namesText rest = ' ' :: text := by
  rw [ImportClause.namesText]
  split <;> exact ⟨_, rfl⟩

/-- What comes after the word `import` is not the rest of an expression. -/
theorem isAny_of_namesText {c : ImportClause} (h : c.Legible) {rest : Text}
    (hrest : u.rest = c.namesText (' ' :: rest)) : u.next.token.isAny ["(", "."] = false := by
  cases hmain : c.main with
  | none =>
    simp only [ImportClause.namesText, hmain] at hrest
    obtain ⟨-, ⟨s, hs⟩, -⟩ := State.next_of_begins (hrest ▸ begins_open _)
    rw [hs]
    rfl
  | some name =>
    obtain ⟨hplain, -⟩ := h.main name hmain
    have hfirst : ∃ mid, Begins u.rest (.plain name) false mid := by
      cases hnamed : c.named with
      | nil =>
        simp only [ImportClause.namesText, hmain, hnamed] at hrest
        rw [hrest]
        exact ⟨_, begins_plain name [' '] (.inr rfl) hplain (endsName_space _)⟩
      | cons n ns =>
        simp only [ImportClause.namesText, hmain, hnamed] at hrest
        rw [hrest]
        exact ⟨_, begins_plain name [' '] (.inr rfl) hplain rfl⟩
    obtain ⟨mid, hfirst⟩ := hfirst
    obtain ⟨-, ⟨s, hs⟩, -⟩ := State.next_of_begins hfirst
    have hne (x : String) (hx : isPlainName x.toList = false) : (name == x) = false := by
      rw [beq_eq_false_iff_ne]
      rintro rfl
      rw [hplain] at hx
      cases hx
    simp only [hs, Token.isAny, is_plain, List.any_cons, List.any_nil, hne "(" rfl, hne "." rfl,
      Bool.or_self]

theorem begins_import {c : ImportClause} {style : Style} {text : Text}
    (hrender : c.render? style = some text) (tail gap : Text)
    (hgap : Lexer.isGapText gap = true) :
    Begins (gap ++ (text ++ tail)) (.plain "import") (gap.any Lexer.isBreak) (c.namesText
      (" from".toList ++ ' ' :: (style.quoted c.source.toList ++ style.terminator ++ tail))) := by
  rw [ImportClause.render?_eq hrender]
  refine Lexer.begins_word gap (w := "import".toList) hgap rfl ?_
  obtain ⟨text, htext⟩ := exists_namesText c (" from".toList ++
    ' ' :: (style.quoted c.source.toList ++ style.terminator ++ tail))
  rw [htext]
  exact endsName_space _

/-- The word `import` and a clause, written where a statement may begin. -/
theorem statement_reads {c : ImportClause} (h : c.Legible) {style : Style} {text tail : Text}
    (hrender : c.render? style = some text) (hsource : SourceText style c.source tail)
    (hscope : u.scope.yields = false) (hbudget : c.named.length < u.budget) (gap : Text)
    (hgap : Lexer.isGapText gap = true) (hrest : u.rest = gap ++ (text ++ tail)) (g : Grammar) :
    Reads (!u.dialect.types && c.named.any (·.marked)) (statement g false) tail
      (·.erase = c.node) u := by
  obtain ⟨hmoved, ⟨s, hs⟩, hnext⟩ := State.next_of_begins (hrest ▸ begins_import hrender tail gap hgap)
  have hdialect : u.next.dialect = u.dialect := by rw [hmoved.eq]
  rw [Reads, statement_import g hs (isAny_of_namesText h hnext)]
  refine (importRest_reads h hsource (by rw [hmoved.eq]; exact hscope)
    (by rw [hmoved.eq]; exact hbudget) hnext s.start).mono ?_
  rintro n t ⟨v, hmoved₂, hv, rfl, hn⟩
  have hall := hmoved.trans hmoved₂
  rw [hdialect, Bool.false_or] at hall
  exact ⟨v, hall, hv, rfl, hn⟩

end Statements

section Modules

variable {c : ImportClause} {style : Style} {text : Text} {dialect : Dialect}

theorem render?_length (hrender : c.render? style = some text) : c.named.length < text.length := by
  have hlength := congrArg List.length (ImportClause.render?_eq hrender [])
  rw [List.append_nil, List.length_append] at hlength
  have hnames := length_namesText c (" from".toList ++
    ' ' :: (style.quoted c.source.toList ++ style.terminator ++ []))
  have himport : "import".toList.length = 6 := rfl
  omega

theorem start_rest (hrender : c.render? style = some text) : (start dialect text).rest = text := by
  have heq := ImportClause.render?_eq hrender []
  rw [List.append_nil] at heq
  rw [heq]
  rfl

theorem module_of_statements {depth : Nat} {u t : State} {body : List Node}
    (h : statements (grammar depth) u.next = .ok (body, t)) :
    module depth u = (match (t.tokenFault <|> t.grammarFault) <|> t.covered.getLast? with
      | some fault => stop fault
      | none => pure body) t := by
  have hmodule : module depth u = (statements (grammar depth) u.next).bind fun x =>
      (match (x.2.tokenFault <|> x.2.grammarFault) <|> x.2.covered.getLast? with
      | some fault => stop fault
      | none => pure x.1) x.2 := rfl
  rw [hmodule, h]
  rfl

/-- The statements of a module that consists of an import as it is written. -/
theorem statements_reads (h : c.Legible) (hrender : c.render? style = some text)
    (hsource : SourceText style c.source []) (depth : Nat) {u : State} (hrest : u.rest = text)
    (hscope : u.scope.yields = false) (hbudget : c.named.length + 1 < u.budget) :
    Gives (statements (grammar (depth + 1))) (fun body t =>
      u.Moved (!u.dialect.types && c.named.any (·.marked)) t ∧ ∃ n, body = [n] ∧ n.erase = c.node)
      u.next := by
  have hwhole : u.rest = [] ++ (text ++ []) := by rw [hrest, List.append_nil, List.nil_append]
  obtain ⟨hmoved, ⟨s, hs⟩, -⟩ := State.next_of_begins
    (hwhole ▸ begins_import hrender [] [] rfl)
  obtain ⟨k, hk⟩ : ∃ k, u.next.budget = k + 1 + 1 := by
    refine ⟨u.budget - 2, ?_⟩
    rw [hmoved.eq]
    dsimp only
    omega
  have himport : (u.next.token.lexeme == .finish) = false := by rw [hs]; rfl
  rw [statements, many, gives_repeatFrom, hk, gives_loop]
  simp only [gives_steps, himport, Bool.not_false, if_true]
  refine (statement_reads h hrender hsource hscope (by omega) [] rfl hwhole
    (grammar depth)).mono ?_
  rintro n t ⟨v, hmoved', hv, rfl, hn⟩
  obtain ⟨hlast, ⟨e, he⟩, -⟩ := State.next_of_begins (hv ▸ Lexer.begins_nil)
  have hend : (v.next.token.lexeme == .finish) = true := by rw [he]; rfl
  rw [Sum.elim_inl, gives_loop]
  simp only [gives_steps, hend, Bool.not_true, Bool.false_eq_true, if_false, Sum.elim_inr]
  have hall := hmoved'.trans hlast
  rw [Bool.or_false] at hall
  exact ⟨hall, n, rfl, hn⟩

end Modules

end Parser

section RoundTrip

variable {c : ImportClause} {style : Style} {text : Text}

theorem Node.declaration_of_erase {n : Node} (h : n.erase = c.node) :
    ∃ d parts, n = .importDecl d parts ∧ ImportClause.ofDeclaration? d = some c := by
  rw [Node.erase_eq] at h
  cases n with
  | importDecl d parts =>
    simp only [Node.mapParts, ImportClause.node, Node.importDecl.injEq] at h
    refine ⟨d, parts, rfl, ?_⟩
    rw [← ImportClause.ofDeclaration?_mapSpans (fun _ => .nowhere), h.1]
    exact c.ofDeclaration?_specifiers _ _ _
  | _ => cases h

/-- A module that consists of an import as it is written. Without types, it does not hold the mark
of one. -/
theorem Program.parseIn_render (h : c.Legible) (hrender : c.render? style = some text)
    (hsource : Parser.SourceText style c.source []) (dialect : Dialect) :
    if (!dialect.types && c.named.any (·.marked)) = true then
      ∃ offset, Program.parseIn dialect text = .error offset
    else ∃ n, Program.parseIn dialect text = .ok ⟨[], [n]⟩ ∧ n.erase = c.node := by
  have hlength := Parser.render?_length hrender
  obtain ⟨depth, hdepth⟩ : ∃ d, 16 * (text.length + 4) = d + 1 :=
    ⟨16 * (text.length + 4) - 1, by omega⟩
  obtain ⟨body, t, hrun, hmoved, n, rfl, hn⟩ := Parser.statements_reads h hrender hsource
    depth (u := Parser.start dialect text) (Parser.start_rest hrender) rfl
    (by show c.named.length + 1 < text.length + 2; omega)
  have htoken : t.tokenFault = none := by rw [hmoved.eq]; rfl
  have hcovered : t.covered = [] := by rw [hmoved.eq]; rfl
  have hfault : t.grammarFault.isSome = (!dialect.types && c.named.any (·.marked)) := hmoved.fault
  rw [parseIn, hdepth, Parser.module_of_statements hrun, htoken, hcovered, ← hfault]
  cases hgrammar : t.grammarFault with
  | some fault => exact ⟨_, rfl⟩
  | none =>
    have hplain : Parser.isDirective n = false := by
      obtain ⟨d, parts, rfl, -⟩ := Node.declaration_of_erase hn
      rfl
    refine ⟨n, ?_, hn⟩
    show Except.ok
      (Program.mk ([n].takeWhile Parser.isDirective) ([n].dropWhile Parser.isDirective)) = _
    simp [hplain]

/-- Under every path there is a dialect with types, so that an import as it is written is read
back, with marks of types or without. -/
theorem Script.parse_render (h : c.Legible)
    (hrender : c.render? style = some text) (hsource : Parser.SourceText style c.source [])
    (path : Path) :
    ∃ n, parse path text = .ok ⟨path, text, ⟨[], [n]⟩⟩ ∧ n.erase = c.node := by
  have key {dialects : List Dialect} (hd : ∃ d ∈ dialects, d.types = true) :
      ∃ n, firstParse text dialects = .ok ⟨[], [n]⟩ ∧ n.erase = c.node := by
    induction dialects with
    | nil => simp at hd
    | cons d ds ih =>
      have hread := Program.parseIn_render h hrender hsource d
      rw [firstParse]
      split at hread
      · rename_i hmarked
        obtain ⟨offset, herror⟩ := hread
        have hds : ∃ d ∈ ds, d.types = true := by
          simp_all
        obtain ⟨n, hn, herase⟩ := ih hds
        rw [herror, hn]
        exact ⟨n, rfl, herase⟩
      · obtain ⟨n, hn, herase⟩ := hread
        rw [hn]
        exact ⟨n, rfl, herase⟩
  have htypes : ∃ d ∈ Dialect.forPath path, d.types = true := by
    unfold Dialect.forPath
    split <;> simp
  obtain ⟨n, hn, herase⟩ := key htypes
  refine ⟨n, ?_, herase⟩
  unfold parse
  rw [hn]

namespace ImportClause

/-- An import that is written from a clause is read as one import, with the same clause: the
default, the names with their aliases and marks in order, and the source. -/
theorem declaration_roundtrip {d : ImportDeclaration}
    (hd : ofDeclaration? d = some c) (hsome : c.main.isSome ∨ c.named ≠ []) (h : c.Legible)
    (hquote : style.quote = '"' ∨ style.quote = '\'')
    (hverbatim : Lexer.isVerbatim style.quote d.source.toList = true) (path : Path) :
    ∃ text script d' parts, c.render? style = some text ∧ Script.parse path text = .ok script ∧
      script.program.nodes = [.importDecl d' parts] ∧ ofDeclaration? d' = some c := by
  obtain ⟨text, htext⟩ := isSome_render? style hsome
  rw [← source_of_ofDeclaration? hd] at hverbatim
  obtain ⟨n, hparse, hn⟩ := Script.parse_render h htext
    ⟨hquote, hverbatim, .inr rfl⟩ path
  obtain ⟨d', parts, rfl, hd'⟩ := Node.declaration_of_erase hn
  exact ⟨text, _, d', parts, htext, hparse, rfl, hd'⟩

/-- A default and names of each kind, among them words that have a meaning in an import. -/
theorem declaration_roundtrip_mixed :
    ∃ text script d parts,
      render? ⟨some "type", [⟨"default", "as", false⟩, ⟨"type", "from", true⟩, ⟨"as", "as", true⟩,
        .plain "of"], "a/'b'"⟩ ⟨false, '"'⟩ = some text ∧
      Script.parse ⟨"src/a.js"⟩ text = .ok script ∧ script.program.nodes = [.importDecl d parts] ∧
      ofDeclaration? d = some ⟨some "type", [⟨"default", "as", false⟩, ⟨"type", "from", true⟩,
        ⟨"as", "as", true⟩, .plain "of"], "a/'b'"⟩ := by
  exact declaration_roundtrip (d := ⟨⟨0, 0⟩, true, some [.main ⟨0, 0⟩ "type",
    .named "default" "as" false, .named "type" "from" true, .named "as" "as" true,
    .named "of" "of" false], "a/'b'", ⟨0, 0⟩⟩) rfl (.inl rfl) (by decide) (.inl rfl) (by decide) _

set_option maxRecDepth 100000 in
/-- A name that needs its quotes is written without them, and read as two names. -/
theorem quoted_name_lost :
    (Script.parse ⟨"src/a.js"⟩ "import \x7b \"x, y\" as c \x7d from 'p'".toList).toOption.map
      (·.program.imports.map ofDeclaration?) = some [some ⟨.none, [⟨"x, y", "c", false⟩], "p"⟩] ∧
    render? ⟨.none, [⟨"x, y", "c", false⟩], "p"⟩ .standard =
      some "import \x7b x, y as c \x7d from 'p';".toList ∧
    (Script.parse ⟨"src/a.js"⟩ "import \x7b x, y as c \x7d from 'p';".toList).toOption.map
      (·.program.imports.map ofDeclaration?) =
        some [some ⟨.none, [.plain "x", ⟨"y", "c", false⟩], "p"⟩] := by
  rw [String.toList_ofList, String.toList_ofList]
  decide +kernel

end ImportClause

end RoundTrip

end Codemod

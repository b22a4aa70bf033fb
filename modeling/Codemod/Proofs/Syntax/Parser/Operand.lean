import Codemod.Proofs.Module.ImportText

/-!
# Codemod.Proofs.Syntax.Parser.Operand

An operand that stands alone is read as an expression.

The levels of the grammar of expressions are followed from the operand up (`update_reads`,
`unary_reads`, `binary_reads`, `assignment_reads`). At each of them the expression could go on: that
it ends is a matter of the token behind it (`EndsExpression`). Nor may it begin like something that
is no operand (`OperandAhead`).
-/

namespace Codemod

open Lexer (Begins Tokens)
open Codemod.Parser (State Gives Reads gives_steps)

namespace Parser

/-- Symbols and words with which an expression goes on that has come to its end otherwise. -/
def continuations : List String :=
  [".", "[", "(", "!", "?.", "<", "<<", ">", "?", "=>", "++", "--", "??", "||", "&&", "|", "^", "&",
    "==", "!=", "===", "!==", "<=", ">=", "in", "instanceof", ">>", ">>>", "+", "-", "*", "/", "%",
    "**"] ++ assignmentOperators

/-- An expression ends before this token. -/
structure EndsExpression (t : Token) : Prop where
  plain : t.isAny continuations = false
  template : ∀ cooked closed, t.lexeme ≠ .template cooked closed
  line : t.newline = true ∨ t.isAny ["as", "satisfies"] = false

/-- One round of `attach`. -/
def attachStep (g : Grammar) (calls : Bool) (start : Nat) (x : Operand) :
    Parser (Operand ⊕ Operand) := do
  let t ← token
  let call (optional : Bool) (types : List Node) : Parser (Operand ⊕ Operand) := do
    let (callee, known) := x.instanceOf.getD (x.node, [])
    let args ← arguments g
    return .inl
      ⟨.call (← spanFrom start) callee (known ++ types) args, x.optional || optional, none⟩
  let access (optional : Bool) : Parser (Operand ⊕ Operand) := do
    let u ← token
    match u.lexeme with
    | .word name _ =>
      advance
      return .inl ⟨.member (← spanFrom start) x.node name, x.optional || optional, none⟩
    | .privateName _ =>
      advance
      return .inl ⟨.index (← spanFrom start) x.node [], x.optional || optional, none⟩
    | _ => unexpected
  let element (optional : Bool) : Parser (Operand ⊕ Operand) := do
    expect "["
    let e ← innerExpression g
    expect "]"
    return .inl ⟨.index (← spanFrom start) x.node [e], x.optional || optional, none⟩
  match t.lexeme with
  | .template .. =>
    if x.optional then note t.span.start
    let quasi ← template g true
    return .inl ⟨.other (← spanFrom start) (x.node :: [quasi]), x.optional, none⟩
  | _ =>
    if t.is "." then
      advance
      access false
    else if t.is "[" && !(← scope).decorator then element false
    else if t.is "(" && calls then call false []
    else if t.is "!" && (← dialect).types && !t.newline then
      advance
      return .inl ⟨.wrapped (← spanFrom start) x.node [], x.optional, none⟩
    else if t.is "?." then
      let direct ← next fun u =>
        match u.lexeme with
        | .word .. | .privateName _ => true
        | .symbol s => s == "["
        | _ => false
      if direct then
        advance
        if ← sees "[" then element true else access true
      else if calls then
        advance
        let types ← if (← dialect).types && (← seesTypeArguments) then
          expressionTypeArguments g else pure none
        call true (types.getD [])
      else return .inr x
    else if t.isAny ["<", "<<"] && (← dialect).types then
      match ← expressionTypeArguments g with
      | some types =>
        return .inl
          ⟨.other (← spanFrom start) (x.node :: types), x.optional, some (x.node, types)⟩
      | none => return .inr x
    else return .inr x

theorem attach_eq (g : Grammar) (calls : Bool) (start : Nat) (first : Node) :
    attach g calls start first = repeatFrom ⟨first, false, none⟩ (attachStep g calls start) :=
  rfl

/-- One round of `binary`. -/
def binaryStep (g : Grammar) (low start : Nat) (prefixed : Bool) (first left : Node) :
    Parser (Node ⊕ Node) := do
  if ← sees ">" then again Lexer.readAngles
  let t ← token
  match level? t with
  | none => return .inr left
  | some level =>
    let tighter := if t.is "**" then low ≤ level else low < level
    if !tighter then return .inr left
    if t.is "in" && !(← scope).inOperator then return .inr left
    if t.isAny ["as", "satisfies"] then
      if t.newline then return .inr left
      advance
      let type ← if ← sees "const" then do
          let u ← token
          advance
          pure (Node.other u.span [])
        else g .type
      let span ← spanFrom start
      if !(← dialect).types then note start
      return .inl (.wrapped span left [type])
    if t.is "**" && prefixed && left.span == first.span then note start
    advance
    let right ← g (.binary level)
    let span ← spanFrom start
    if t.isAny ["&&", "||"] then modify fun s => { s with logical := some span }
    if t.is "??" then
      let mixed := (← get).logical
      if mixed == some left.span || mixed == some right.span then note start
    return .inl (.other span [left, right])

theorem binary_eq (g : Grammar) (low : Nat) : binary g low = (do
    let start ← offset
    let prefixed ← if ← seesAny unaryOperators then pure true else seesAwait
    let first ← match (← token).lexeme with
      | .privateName _ => do
        let t ← token
        advance
        if !(← sees "in") then unexpected
        pure (Node.other t.span [])
      | _ => g .unary
    repeatFrom first (binaryStep g low start prefixed first)) :=
  rfl

variable {g : Grammar} {s u : State}

section Tokens

variable {t : Token} {names : List String}

theorem is_eq_false_of_isAny (h : t.isAny names = false) {x : String}
    (hx : names.contains x = true) : t.is x = false :=
  Bool.eq_false_iff.mpr (List.any_eq_false.mp h x (List.contains_iff_mem.mp hx))

theorem isAny_eq_false_of_isAny (h : t.isAny names = false) {xs : List String}
    (hxs : xs.all names.contains = true) : t.isAny xs = false :=
  List.any_eq_false.mpr fun x hx =>
    List.any_eq_false.mp h x (List.contains_iff_mem.mp (List.all_eq_true.mp hxs x hx))

theorem isAny_append_right (h : t.isAny names = false) (xs : List String) :
    t.isAny (names ++ xs) = t.isAny xs := by
  rw [Token.isAny, Token.isAny, List.any_append, ← Token.isAny, h, Bool.false_or]

theorem EndsExpression.is_eq_false (h : EndsExpression t) {x : String}
    (hx : continuations.contains x = true) : t.is x = false :=
  is_eq_false_of_isAny h.plain hx

theorem EndsExpression.isAny_eq_false (h : EndsExpression t) {xs : List String}
    (hxs : xs.all continuations.contains = true) : t.isAny xs = false :=
  isAny_eq_false_of_isAny h.plain hxs

end Tokens

/-- What the lexeme of a token says about the end of an expression. -/
theorem endsExpression_of_lexeme {t t' : Token} (hlexeme : t'.lexeme = t.lexeme)
    (hplain : t.isAny (";" :: continuations) = false)
    (htemplate : (!t.lexeme matches .template ..) = true)
    (hline : t'.newline = true ∨ t'.isAny ["as", "satisfies"] = false) :
    EndsExpression t' ∧ t'.is ";" = false := by
  rw [Token.isAny, List.any_cons, Bool.or_eq_false_iff, ← is_congr hlexeme] at hplain
  rw [← hlexeme] at htemplate
  refine ⟨⟨?_, fun cooked closed heq => ?_, hline⟩, hplain.1⟩
  · rw [← hplain.2, Token.isAny]
    exact congrArg continuations.any (funext (is_congr hlexeme))
  · rw [heq] at htemplate
    cases htemplate

theorem attachStep_ends (h : EndsExpression s.token) (calls : Bool) (start : Nat) (x : Operand) :
    Gives (attachStep g calls start x) (fun r t => r = .inr x ∧ t = s) s := by
  simp only [attachStep, gives_steps]
  cases hlexeme : s.token.lexeme with
  | template cooked closed => exact absurd hlexeme (h.template cooked closed)
  | _ =>
    simp (disch := decide) only [h.is_eq_false, h.isAny_eq_false, gives_steps, Bool.false_and,
      Bool.false_eq_true, if_false, and_self]

/-- No operator follows. `as` and `satisfies` are operators only on the same line. -/
theorem binaryStep_ends (h : EndsExpression s.token) (low start : Nat) (prefixed : Bool)
    (first left : Node) :
    Gives (binaryStep g low start prefixed first left) (fun r t => r = .inr left ∧ t = s) s := by
  have hcompare : s.token.isAny ["<", ">", "<=", ">=", "in", "instanceof", "as", "satisfies"] =
      s.token.isAny ["as", "satisfies"] := by
    have hplain : s.token.isAny ["<", ">", "<=", ">=", "in", "instanceof"] = false :=
      h.isAny_eq_false rfl
    exact isAny_append_right hplain _
  have hlevel : level? s.token = if s.token.isAny ["as", "satisfies"] then some 10 else none := by
    simp (disch := decide) only [h.is_eq_false, h.isAny_eq_false, level?, hcompare,
      Bool.false_eq_true, if_false]
  rw [binaryStep, gives_bind, gives_of_eq (p := sees ">") rfl,
    if_neg (by simp [h.is_eq_false (x := ">") rfl]), gives_bind, gives_of_eq (p := token) rfl, hlevel]
  cases has : s.token.isAny ["as", "satisfies"] with
  | false => exact (gives_of_eq rfl).mpr ⟨rfl, rfl⟩
  | true =>
    have hline := h.line.resolve_right (by simp [has])
    rw [if_pos rfl]
    split
    · contradiction
    · extract_lets tighter
      split
      · exact (gives_of_eq rfl).mpr ⟨rfl, rfl⟩
      · have hin : ¬ (s.token.is "in" && !s.scope.inOperator) = true := by
          simp [h.is_eq_false (x := "in") rfl]
        rw [gives_bind, gives_of_eq (p := scope) rfl, if_neg hin, if_pos rfl]
        exact (gives_of_eq rfl).mpr ⟨rfl, rfl⟩

/-- Symbols and words that something other than an operand begins with. -/
def openings : List String :=
  unaryOperators ++ ["++", "--", "<", "<<", "(", "await", "yield", "async"]

/-- An operand and nothing else stands ahead, at a place where expressions end. -/
structure OperandAhead (depth : Nat) (u : State) (rest : Text) (Q : Node → Prop) : Prop where
  plain : u.next.token.isAny openings = false
  notPrivate : ∀ name, u.next.token.lexeme ≠ .privateName name
  reads : Reads false (operand (grammar depth)) rest Q u
  ends : ∀ v : State, v.rest = rest → EndsExpression v.next.token
  budget : 1 ≤ u.budget

section Levels

variable {rest : Text} {Q : Node → Prop} {d : Nat}

theorem OperandAhead.is_eq_false (h : OperandAhead d u rest Q) {x : String}
    (hx : openings.contains x = true) : u.next.token.is x = false :=
  is_eq_false_of_isAny h.plain hx

theorem OperandAhead.isAny_eq_false (h : OperandAhead d u rest Q) {xs : List String}
    (hxs : xs.all openings.contains = true) : u.next.token.isAny xs = false :=
  isAny_eq_false_of_isAny h.plain hxs

theorem update_reads (h : OperandAhead d u rest Q) :
    Reads false (update (grammar (d + 1))) rest Q u := by
  simp (disch := decide) only [Reads, update, gives_steps, h.isAny_eq_false, Bool.false_eq_true,
    if_false]
  refine h.reads.mono ?_
  rintro n t ⟨v, hmoved, hv, rfl, hn⟩
  have hends := h.ends v hv
  simp (disch := decide) only [hends.isAny_eq_false, Bool.false_and, Bool.false_eq_true, if_false,
    gives_steps]
  exact ⟨v, hmoved, hv, rfl, hn⟩

theorem unary_reads (h : OperandAhead d u rest Q) :
    Reads false (unary (grammar (d + 1))) rest Q u := by
  simp (disch := decide) only [Reads, unary, seesAwait, gives_steps, h.is_eq_false,
    h.isAny_eq_false, Bool.not_false, Bool.false_and, Bool.false_eq_true, if_false, if_true]
  exact update_reads h

theorem binary_reads (low : Nat) (h : OperandAhead d u rest Q) :
    Reads false (binary (grammar (d + 2)) low) rest Q u := by
  rw [binary_eq]
  simp (disch := decide) only [Reads, seesAwait, gives_steps, h.is_eq_false, h.isAny_eq_false,
    Bool.not_false, Bool.false_eq_true, if_false, if_true]
  split
  · rename_i name heq
    exact absurd heq (h.notPrivate name)
  refine gives_bind.mpr ((unary_reads h).mono ?_)
  rintro n t ⟨v, hmoved, hv, rfl, hn⟩
  obtain ⟨k, hk⟩ : ∃ k, v.next.budget = k + 1 := by
    have hbudget := h.budget
    have hsame : v.budget = u.budget := by rw [hmoved.eq]
    exact ⟨v.budget - 1, by show v.budget = _; omega⟩
  rw [gives_repeatFrom, hk, gives_loop]
  refine (binaryStep_ends (h.ends v hv) low _ _ n n).mono ?_
  rintro r t ⟨rfl, rfl⟩
  exact ⟨v, hmoved, hv, rfl, hn⟩

theorem assignment_reads (h : OperandAhead d u rest Q) (arrowType : Bool) :
    Reads false (assignment (grammar (d + 3)) arrowType) rest Q u := by
  simp (disch := decide) only [Reads, assignment, arrowInParentheses, gives_steps, h.is_eq_false,
    h.isAny_eq_false, Bool.not_false, Bool.false_and, Bool.false_eq_true, if_false, if_true]
  refine gives_ahead ?_
  simp (disch := decide) only [gives_steps, h.is_eq_false, Bool.false_eq_true, Bool.not_false,
    if_false, if_true]
  refine (binary_reads 0 h).mono ?_
  rintro n t ⟨v, hmoved, hv, rfl, hn⟩
  have hends := h.ends v hv
  simp (disch := decide) only [gives_steps, hends.is_eq_false, hends.isAny_eq_false, conditional,
    Bool.and_false, Bool.false_eq_true, if_false]
  exact ⟨v, hmoved, hv, rfl, hn⟩

theorem inner_reads (h : ∀ scope, OperandAhead d (u.inScope scope) rest Q) :
    Reads false (inner (grammar (d + 4))) rest Q u := by
  rw [Reads, inner, gives_within, ← State.next_inScope]
  refine (assignment_reads (h _) true).mono ?_
  rintro n t ⟨v, hmoved, hv, rfl, hn⟩
  exact ⟨v.inScope u.next.scope, hmoved.inScope, hv, rfl, hn⟩

/-- An operand without member accesses and calls. -/
theorem operand_reads (hends : ∀ v : State, v.rest = rest → EndsExpression v.next.token)
    (h : Reads false (primary g) rest Q u) (hbudget : 1 ≤ u.budget) :
    Reads false (operand g) rest Q u := by
  simp only [Reads, operand, gives_steps]
  refine h.mono ?_
  rintro n t ⟨v, hmoved, hv, rfl, hn⟩
  obtain ⟨k, hk⟩ : ∃ k, v.next.budget = k + 1 := by
    have hsame : v.budget = u.budget := by rw [hmoved.eq]
    exact ⟨v.budget - 1, by show v.budget = _; omega⟩
  rw [attach_eq, gives_repeatFrom, hk, gives_loop]
  refine (attachStep_ends (hends v hv) true _ _).mono ?_
  rintro r t ⟨rfl, rfl⟩
  simp only [Sum.elim_inr, Bool.false_eq_true, if_false, gives_steps]
  exact ⟨v, hmoved, hv, rfl, hn⟩

end Levels

section Primary

variable {rest : Text} {newline : Bool}

/-- A name is read as a reference. -/
theorem primary_name {name : String} {span : Span} (h : s.token = ⟨.plain name, span, newline⟩)
    (hname : name ∉ reservedWords) (hasync : name ≠ "async")
    (hscope : (name == "await" && s.scope.awaits || name == "yield" && s.scope.yields) = false) :
    Gives (primary g) (fun n t => n = .reference span name ∧ t = s.next) s := by
  have hisName : s.token.isName = true := by
    rw [h]
    simpa [Token.isName, Lexeme.plain] using hname
  have hlexeme : s.token.lexeme = .word name false := by
    rw [h]
    rfl
  have hreserved {x : String} (hx : ("async" :: reservedWords).contains x = true) :
      s.token.is x = false := by
    rw [h, is_plain, beq_eq_false_iff_ne]
    rintro rfl
    rcases List.mem_cons.mp (List.contains_iff_mem.mp hx) with hx | hx
    · exact hasync hx
    · exact hname hx
  have hspan : s.token.span = span := by rw [h]
  have hnone : s.token.is "this" = false ∧ s.token.isAny ["null", "true", "false"] = false ∧
      s.token.is "super" = false ∧ s.token.is "function" = false ∧ s.token.is "class" = false ∧
      s.token.is "new" = false ∧ s.token.is "import" = false ∧ s.token.is "async" = false := by
    refine ⟨hreserved rfl, ?_, hreserved rfl, hreserved rfl, hreserved rfl, hreserved rfl,
      hreserved rfl, hreserved rfl⟩
    rw [Token.isAny, List.any_eq_false]
    intro x hx
    rw [Bool.not_eq_true]
    refine hreserved (List.contains_iff_mem.mpr ?_)
    revert x
    decide
  simp only [primary, gives_steps, hlexeme, hnone, Bool.false_eq_true, if_false, seesAsyncFunction,
    referenceName, bindingName, hisName, hspan, Bool.not_true, hscope, and_self]

theorem primary_string {value : String} (h : Begins u.rest (.string value) newline rest) :
    Reads false (primary g) rest (·.erase = .string .nowhere value) u := by
  obtain ⟨hmoved, ⟨span, htoken⟩, hrest⟩ := State.next_of_begins h
  have hlexeme : u.next.token.lexeme = .string value := by rw [htoken]
  simp only [Reads, primary, gives_steps, hlexeme]
  exact ⟨u.next, hmoved, hrest, rfl, rfl⟩

/-- A string stands alone. -/
theorem operandAhead_string {value : String} {d : Nat}
    (h : Begins u.rest (.string value) newline rest)
    (hends : ∀ v : State, v.rest = rest → EndsExpression v.next.token) (hbudget : 1 ≤ u.budget) :
    OperandAhead d u rest (·.erase = .string .nowhere value) := by
  obtain ⟨-, ⟨span, htoken⟩, -⟩ := State.next_of_begins h
  refine ⟨?_, ?_, operand_reads hends (primary_string h) hbudget, hends, hbudget⟩
  · rw [htoken]
    rfl
  · rw [htoken]
    exact nofun

end Primary

end Parser

end Codemod

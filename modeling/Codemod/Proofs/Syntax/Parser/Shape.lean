import Codemod.Proofs.Syntax.Parser

/-!
# Codemod.Proofs.Syntax.Parser.Shape

Statements that the type of trees allows and the parser never makes.

An export could declare many things and an import have many defaults. `Script.parse_shaped`: in a
module that was parsed, an export declares one thing at most, and of the names that an import binds
only the first can be a default.
-/

namespace Codemod

def ImportSpecifier.isMain : ImportSpecifier → Bool
  | .main .. => true
  | _ => false

/-- An export declares one thing at most, and an import names its default first. -/
def Node.Shaped : Node → Prop
  | .exportNamed _ _ declaration _ => declaration.length ≤ 1
  | .importDecl decl _ => ∀ specifier ∈ (decl.specifiers.getD []).tail, specifier.isMain = false
  | _ => True

namespace Parser

variable {g : Grammar}

-- In each of these only the last step of a branch matters: it makes the node.

theorem declaration_shaped (start : Nat) (marks : List Node) :
    Answers (declaration g start marks) Node.Shaped := by
  unfold declaration enumeration interface typeAlias moduleBlock importEquals classFrom functionFrom
    bindings
  repeat' first
    | with_reducible refine answers_bind fun _ => ?_
    | with_reducible refine answers_ite ?_ ?_
    | with_reducible refine answers_within ?_
    | with_reducible exact answers_unexpected
    | with_reducible refine answers_pure ?_
    | split
  all_goals trivial

theorem exportDeclaration_shaped (start : Nat) (marks : List Node) :
    Answers (exportDeclaration g start marks) Node.Shaped := by
  unfold exportDeclaration exportDefault exportAll exportSpecifiers
  repeat' first
    | with_reducible refine answers_bind fun _ => ?_
    | with_reducible refine answers_ite ?_ ?_
    | with_reducible refine answers_pure ?_
    | split
  all_goals first | trivial | exact Nat.le_refl 1 | exact Nat.zero_le 1

/-- Neither `* as name` nor what stands between braces is a default. -/
theorem importedNames_plain :
    Answers importedNames fun names => ∀ specifier ∈ names, specifier.isMain = false := by
  have hitem : Answers importSpecifier fun specifier => specifier.isMain = false := by
    unfold importSpecifier
    refine answers_bind fun _ => answers_ite ?_ ?_
    · exact answers_bind fun _ => answers_pure rfl
    · exact answers_pure rfl
  unfold importedNames
  refine answers_bind fun _ => answers_ite ?_ ?_
  · refine answers_bind fun _ => answers_bind fun _ => answers_pure ?_
    simp [ImportSpecifier.isMain]
  · refine answers_bind fun _ => answers_bind_of (fun _ => separated_forall hitem) ?_
    exact fun names hnames => answers_bind fun _ => answers_pure hnames

theorem importRest_shaped (start : Nat) : Answers (importRest start) Node.Shaped := by
  have hnone : Answers (pure []) fun names : List ImportSpecifier =>
      ∀ specifier ∈ names, specifier.isMain = false := answers_pure (List.forall_mem_nil _)
  unfold importRest importEquals
  repeat' first
    | with_reducible refine answers_bind_of importedNames_plain fun names hnames => ?_
    | with_reducible refine answers_bind_of hnone fun names hnames => ?_
    | with_reducible refine answers_bind fun _ => ?_
    | with_reducible refine answers_ite ?_ ?_
    | with_reducible refine answers_pure ?_
    | split
  all_goals first
    | trivial
    | exact List.forall_mem_nil _
    | exact hnames
    | exact fun specifier hmem => hnames specifier (List.mem_of_mem_tail hmem)

theorem statement_shaped (single : Bool) : Answers (statement g single) Node.Shaped := by
  unfold statement expressionStatement decorated enumeration classFrom functionFrom bindings
  repeat' first
    | with_reducible refine answers_bind fun _ => ?_
    | with_reducible refine answers_ite ?_ ?_
    | with_reducible exact declaration_shaped _ _
    | with_reducible exact exportDeclaration_shaped _ _
    | with_reducible exact importRest_shaped _
    | with_reducible exact answers_unexpected
    | with_reducible refine answers_pure ?_
    | split
  all_goals trivial

theorem grammar_shaped (depth : Nat) (single : Bool) :
    Answers (grammar depth (.statement single)) Node.Shaped := by
  cases depth with
  | zero => exact answers_unexpected
  | succ depth => exact statement_shaped single

end Parser

theorem Script.parse_shaped {path : Path} {source : Text} {script : Script}
    (h : parse path source = .ok script) : ∀ n ∈ script.program.body, n.Shaped :=
  fun n hn => parse_forall (fun depth => Parser.grammar_shaped depth false) h n
    (List.mem_append_right _ hn)

end Codemod

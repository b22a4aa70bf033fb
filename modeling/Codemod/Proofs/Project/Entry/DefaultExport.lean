import Codemod.Proofs.Module.Ensured
import Codemod.Proofs.Project.Entry
import Codemod.Proofs.Syntax.Parser.DefaultExport

/-!
# Codemod.Proofs.Project.Entry.DefaultExport

How often an entry module exports a default, once the call that renders the app is gone.

* `Program.defaults` lists the default exports of a module. The search for the default export knows
  only those that are declared (`defaultExport_eq_missing_iff`).
* `meant` is the module that the edits of an entry module mean to leave. Nothing in it changes the
  default exports but what becomes of the call (`defaults_meant`).
* `edits_export_default`: in an entry module with such a call, the text that is written for it is
  read as a default export, and a module that reads as the one that is meant has exactly one default
  export where none was named and at most one was declared.
* `edits_export_twice`: two modules for which that fails.
-/

namespace Codemod

open Codemod.Parser (State Reads)

/-- How a default is exported: by a declaration, or by a specifier that is known as `default`. -/
inductive DefaultForm where
  | declared
  | named
  deriving DecidableEq, Repr

namespace Node

/-- The default exports of a statement. -/
def defaults : Node → List DefaultForm
  | .exportDefault .. => [.declared]
  | .exportNamed _ names _ _ => (names.filter (· == "default")).map fun _ => .named
  | _ => []

theorem defaults_mapParts (g : Span → Span) (f : Node → Node) (n : Node) :
    (n.mapParts g f).defaults = n.defaults := by
  cases n <;> rfl

theorem defaults_erase (n : Node) : n.erase.defaults = n.defaults := by
  rw [erase_eq, defaults_mapParts]

/-- Whether the node is an expression used as a statement, at this place. -/
def isStatementAt (span : Span) : Node → Bool
  | .statement s _ => s == span
  | _ => false

theorem defaults_of_isStatementAt {span : Span} {n : Node} (h : n.isStatementAt span = true) :
    n.defaults = [] := by
  cases n with
  | statement => rfl
  | _ => cases h

end Node

namespace Program

variable {p q : Program}

/-- The default exports of a module. -/
def defaults (p : Program) : List DefaultForm :=
  p.body.flatMap Node.defaults

theorem Same.defaults_eq (h : p.Same q) : p.defaults = q.defaults := by
  rw [defaults, defaults, List.flatMap_def, List.flatMap_def, h.map_eq Node.defaults_erase]

theorem resolve_ne_missing (p : Program) (value : Node) : p.resolve value ≠ .missing := by
  unfold resolve
  split
  case h_5 => split <;> nofun
  case h_6 => split <;> nofun
  all_goals nofun

/-- A search that finds something in the statements that declare a default, and in no others. -/
theorem filterMap_eq_nil_iff_defaults {f : Node → Option Node}
    (hf : ∀ n, (f n).isSome = true ↔ DefaultForm.declared ∈ n.defaults) :
    p.body.filterMap f = [] ↔ DefaultForm.declared ∉ p.defaults := by
  simp only [defaults, List.mem_flatMap, List.filterMap_eq_nil_iff, ← hf, not_exists, not_and,
    Option.not_isSome_iff_eq_none]

/-- A default that a specifier exports counts as missing. -/
theorem defaultExport_eq_missing_iff :
    p.defaultExport = .missing ↔ DefaultForm.declared ∉ p.defaults := by
  rw [defaultExport, ← filterMap_eq_nil_iff_defaults]
  · split
    · rename_i hnone
      exact iff_of_true rfl hnone
    · rename_i value hvalue
      refine iff_of_false (p.resolve_ne_missing value) fun hnone => ?_
      cases hvalue.symm.trans hnone
    · rename_i hsome _
      refine iff_of_false ?_ hsome
      intro h
      cases h
  · intro n
    cases n with
    | exportNamed => simp [Node.defaults]
    | exportDefault => exact iff_of_true rfl (List.mem_singleton_self _)
    | _ => exact iff_of_false Bool.false_ne_true List.not_mem_nil

end Program

namespace Entry

section Meant

/-- The key of the hook that is renamed. -/
def hook? (p : Program) : Option Span :=
  (class? p).bind fun c =>
    if c.has "onLaunch" then none else c.methodKey? "componentWillMount"

/-- `getCurrentInstance().router.params` -/
def launchParams : Node :=
  .member .nowhere (.member .nowhere
    (.call .nowhere (.reference .nowhere instanceFactory) [] []) "router") "params"

/-- Whether what stands at this place moves out of the module. -/
def leaves (p : Program) (span : Span) : Bool :=
  (moving? p).any (·.2 == span)

/-- A node without the configuration, with the new name of the hook, and with the launch parameters
read from the current instance. -/
def renew (p : Program) (n : Node) : Node :=
  match n with
  | .classDef span name head body members =>
    .classDef span name head body (members.filter fun m => !leaves p m.span)
  | .method span _ key parts =>
    if hook? p == some key then
      .method span (some "onLaunch") key (parts.filter fun part => part.span != key)
    else n
  | .member _ object property =>
    if property == "params" && object.isThisMember "$router" then launchParams else n
  | n => n

/-- Whether a statement goes: the configuration, or the import of a package without a successor. -/
def goes (p : Program) : Node → Bool
  | .statement span _ => leaves p span
  | .importDecl decl _ => decl.specifiers.isNone && Dependency.isDeprecated decl.source
  | _ => false

/-- The default export of a name. -/
def mainExport (name : String) : Node :=
  .exportDefault .nowhere (.reference .nowhere name)

/-- The statements, with a default export in the place of the call that renders the app, or without
the call where a default export is declared. -/
def launched (p : Program) : List Node :=
  match p.bootstrap? with
  | none => p.body
  | some (span, name) =>
    match p.defaultExport with
    | .missing =>
      let export? (n : Node) := if n.isStatementAt span then some (mainExport name) else none
      (replaceFirst? export? p.body).getD p.body
    | _ => p.body.eraseP (·.isStatementAt span)

/-- The module that the edits of an entry module mean to leave. -/
def meant (p : Program) : Program :=
  let bound := if (launchReads p).isEmpty then launched p
    else ensured apiPackage instanceFactory (launched p)
  ⟨p.directives, (bound.filter fun n => !goes p n).map (Node.amend id (renew p))⟩

end Meant

section Defaults

variable {p : Program} {span : Span} {name : String}

theorem defaults_amend (n : Node) : (n.amend id (renew p)).defaults = n.defaults := by
  have hrenew (m : Node) : (renew p m).defaults = m.defaults := by
    unfold renew
    split
    · rfl
    · split <;> rfl
    · split <;> rfl
    · rfl
  rw [Node.amend_eq, hrenew, Node.defaults_mapParts]

theorem defaults_of_goes {n : Node} (h : goes p n = true) : n.defaults = [] := by
  cases n with
  | statement | importDecl => rfl
  | _ => cases h

theorem flatMap_filter_goes (ns : List Node) :
    (ns.filter fun n => !goes p n).flatMap Node.defaults = ns.flatMap Node.defaults := by
  induction ns with
  | nil => rfl
  | cons n ns ih =>
    rw [List.filter_cons]
    split
    · rw [List.flatMap_cons, List.flatMap_cons, ih]
    · rename_i hgoes
      rw [Bool.not_eq_true', Bool.not_eq_false] at hgoes
      rw [ih, List.flatMap_cons, defaults_of_goes hgoes, List.nil_append]

/-- The default exports come from what becomes of the call. -/
theorem defaults_meant : (meant p).defaults = (launched p).flatMap Node.defaults := by
  have himport (n : Node) (h : n.isImport = true) : n.defaults = [] := by
    cases n with
    | importDecl => rfl
    | _ => cases h
  have hbound : (if (launchReads p).isEmpty then launched p
      else ensured apiPackage instanceFactory (launched p)).flatMap Node.defaults =
        (launched p).flatMap Node.defaults := by
    split
    · rfl
    · exact flatMap_ensured himport
  rw [Program.defaults, meant, List.flatMap_map,
    List.flatMap_congr fun n _ => defaults_amend n, flatMap_filter_goes, hbound]

theorem exists_statement (h : p.bootstrap? = some (span, name)) :
    ∃ n ∈ p.body, n.isStatementAt span = true := by
  obtain ⟨s, callee, types, arguments, hn⟩ := mem_of_bootstrap? h
  exact ⟨_, hn, beq_self_eq_true span⟩

/-- A default export is declared where none was, and that is all. -/
theorem defaults_launched (h : p.bootstrap? = some (span, name)) :
    ((launched p).flatMap Node.defaults).Perm
      (if .declared ∈ p.defaults then p.defaults else .declared :: p.defaults) := by
  obtain ⟨n, hn, hat⟩ := exists_statement h
  rw [launched, h]
  dsimp only
  split
  · rename_i hmissing
    rw [if_neg (Program.defaultExport_eq_missing_iff.mp hmissing)]
    obtain ⟨ms, hms⟩ := Option.ne_none_iff_exists'.mp
      (mt (replaceFirst?_eq_none_iff (f := fun n => if n.isStatementAt span then
        some (mainExport name) else none)).mp fun hnone => by simpa [hat] using hnone n hn)
    obtain ⟨pre, k, m, post, hbody, hk, rfl⟩ := exists_of_replaceFirst? hms
    split at hk
    · rename_i hstatement
      cases hk
      rw [hms, Option.getD_some, Program.defaults, hbody, List.flatMap_append, List.flatMap_append,
        List.flatMap_cons, List.flatMap_cons, Node.defaults_of_isStatementAt hstatement]
      exact List.perm_middle
    · cases hk
  · rename_i hmissing
    have hdeclared : DefaultForm.declared ∈ p.defaults := by
      by_contra hnot
      exact hmissing (Program.defaultExport_eq_missing_iff.mpr hnot)
    rw [if_pos hdeclared]
    obtain ⟨k, pre, post, -, hstatement, hbody, herase⟩ := List.exists_of_eraseP hn hat
    rw [herase, Program.defaults, hbody, List.flatMap_append, List.flatMap_append, List.flatMap_cons,
      Node.defaults_of_isStatementAt hstatement, List.nil_append]

end Defaults

section Edits

variable {path : Path} {source : Text} {script : Script} {span : Span} {name : String}

/-- What is written for the call. -/
def exportText (style : Style) (name : String) : Text :=
  "export default ".toList ++ (name.toList ++ style.terminator)

theorem exportText_append (style : Style) (name : String) (back : Text) :
    exportText style name ++ back =
      "export default ".toList ++ (name.toList ++ (style.terminator ++ back)) := by
  unfold exportText
  generalize "export default ".toList = words
  rw [List.append_assoc, List.append_assoc]

theorem bootstrapEdits_eq (hboot : script.program.bootstrap? = some (span, name)) :
    bootstrapEdits script = if .declared ∈ script.program.defaults then
        [.remove (script.source.removalSpan span)]
      else [.replace (script.source.statementSpan span) (exportText script.style name)] := by
  rw [bootstrapEdits, hboot]
  dsimp only
  split
  · rename_i hmissing
    rw [if_neg (Program.defaultExport_eq_missing_iff.mp hmissing), List.append_assoc]
    rfl
  · rename_i hmissing
    rw [if_pos]
    by_contra hnot
    exact hmissing (Program.defaultExport_eq_missing_iff.mpr hnot)

/-- The module is written if it holds the call. -/
theorem overwrite_mem_writes (hboot : script.program.bootstrap? = some (span, name)) :
    .overwrite script.path (Edit.applyAll script.source (edits script)) ∈ writes script := by
  have hsome : bootstrapEdits script ≠ [] := by
    rw [bootstrapEdits_eq hboot]
    split <;> exact List.cons_ne_nil _ _
  have hedits : (edits script).isEmpty = false := by
    rw [List.isEmpty_eq_false_iff, edits_eq]
    simp [hsome]
  rw [writes]
  dsimp only
  rw [hedits, if_neg Bool.false_ne_true]
  exact List.mem_append_right _ (List.mem_singleton_self _)

theorem length_eq_one_iff {forms forms' : List DefaultForm} (h : forms'.Perm
    (if .declared ∈ forms then forms else .declared :: forms)) :
    forms'.length = 1 ↔ .named ∉ forms ∧ forms.length ≤ 1 := by
  rw [h.length_eq]
  clear h
  rcases forms with _ | ⟨a, _ | ⟨b, rest⟩⟩
  · decide
  · cases a <;> decide
  · split <;> simp

/-- An entry module that renders the app in a call is written. Where it declares no default export,
the text that is written holds one in place of the call, and that is read as the default export of
the app, if the app has a name that can be referred to and a statement ends there. A module that reads
as the one that is meant has the default exports that there were, and one that is declared; so it has
exactly one where none was named and at most one was declared. -/
theorem edits_export_default (hparse : Script.parse path source = .ok script)
    (hboot : script.program.bootstrap? = some (span, name)) :
    .overwrite path (Edit.applyAll source (edits script)) ∈ writes script ∧
    (.declared ∉ script.program.defaults → Untangled script →
      ∃ front back, Edit.applyAll source (edits script) =
        front ++ (exportText script.style name ++ back)) ∧
    (Referable name → ∀ (gap back : Text) (u : State) (d : Nat), Lexer.isGapText gap = true →
      script.style.semicolons = true ∨ Parser.endsStatement back = true → 1 ≤ u.budget →
      u.rest = gap ++ (exportText script.style name ++ back) →
      Reads false (Parser.statement (Parser.grammar (d + 4)) false) back
        (·.erase = mainExport name) u) ∧
    ∀ again, Script.parse path (Edit.applyAll source (edits script)) = .ok again →
      again.program.Same (meant script.program) →
      again.program.defaults.Perm (if .declared ∈ script.program.defaults
        then script.program.defaults else .declared :: script.program.defaults) ∧
      (again.program.defaults.length = 1 ↔
        .named ∉ script.program.defaults ∧ script.program.defaults.length ≤ 1) := by
  obtain ⟨hpath, hsource⟩ := Script.path_of_parse hparse
  obtain ⟨-, hlaid⟩ := Script.parse_laid hparse
  refine ⟨?_, fun hnone hclean => ?_, fun hname gap back u d hgap hends hbudget hrest => ?_,
    fun again _ hmeant => ?_⟩
  · rw [← hpath, ← hsource]
    exact overwrite_mem_writes hboot
  · have hedit : .replace (script.source.statementSpan span) (exportText script.style name) ∈
        edits script := by
      rw [edits_eq, bootstrapEdits_eq hboot, if_neg hnone]
      simp
    rw [← hsource]
    generalize exportText script.style name = text at hedit
    exact (edits_lossless hlaid hclean).exists_of_mem hedit
  · have hterminator : Parser.StatementEnds (script.style.terminator ++ back) back := by
      rw [Style.terminator]
      cases hsemicolons : script.style.semicolons with
      | true => exact .inl rfl
      | false => exact .inr ⟨rfl, hends.resolve_left (by simp [hsemicolons])⟩
    rw [exportText_append] at hrest
    exact Parser.statement_exportDefault hname hgap hterminator hrest hbudget d
  · have hperm := hmeant.defaults_eq ▸ defaults_meant ▸ defaults_launched hboot
    exact ⟨hperm, length_eq_one_iff hperm⟩

set_option maxRecDepth 100000 in
theorem edits_export_default_launch :
    let text := ("import Api, \x7b getCurrentInstance \x7d from '@tarojs/taro'\nclass App \x7b\n" ++
      "  onLaunch() \x7b return getCurrentInstance().router.params \x7d\n\x7d\n" ++
      "export default App").toList
    ∃ script again, Script.parse ⟨"src/app.js"⟩ launchText = .ok script ∧
      (edits script).length = 6 ∧ .overwrite ⟨"src/app.js"⟩ text ∈ writes script ∧
      Reads false (Parser.statement (Parser.grammar 4) false) [] (·.erase = mainExport "App")
        (Parser.start ⟨false, false⟩ "export default App".toList) ∧
      Script.parse ⟨"src/app.js"⟩ text = .ok again ∧ again.program.defaults = [.declared] := by
  intro text
  have hcheck : (Script.parse ⟨"src/app.js"⟩ launchText).toOption.any (fun script =>
      (edits script).length == 6 && (script.program.bootstrap?.any (·.2 == "App")) &&
        !script.style.semicolons && script.program.defaults.isEmpty &&
        (Edit.applyAll launchText (edits script) == text) &&
        (Script.parse ⟨"src/app.js"⟩ text).toOption.any fun again =>
          decide (again.program.Same (meant script.program))) = true := by
    unfold launchText text
    repeat rw [String.toList_append]
    repeat rw [String.toList_ofList]
    decide +kernel
  obtain ⟨script, hparse, hcheck⟩ := exists_ok_of_any hcheck
  simp only [Bool.and_eq_true, beq_iff_eq, Bool.not_eq_true', List.isEmpty_iff] at hcheck
  obtain ⟨⟨⟨⟨⟨hlength, hboot⟩, hsemicolons⟩, hnone⟩, htext⟩, hcheck⟩ := hcheck
  obtain ⟨⟨span, name⟩, hboot, hname⟩ := (Option.any_eq_true ..).mp hboot
  obtain rfl : name = "App" := beq_iff_eq.mp hname
  obtain ⟨again, hagain, hmeant⟩ := exists_ok_of_any hcheck
  obtain ⟨hwrites, -, hreads, hdefaults⟩ := edits_export_default hparse hboot
  rw [htext] at hwrites hdefaults
  have hterminator : script.style.terminator = [] := by
    rw [Style.terminator, hsemicolons, if_neg Bool.false_ne_true]
  have hexport : exportText script.style "App" = "export default App".toList :=
    (congrArg (fun t => "export default ".toList ++ ("App".toList ++ t)) hterminator).trans
      (by decide +kernel)
  obtain ⟨hperm, -⟩ := hdefaults again hagain (of_decide_eq_true hmeant)
  rw [hnone, if_neg List.not_mem_nil] at hperm
  refine ⟨script, again, hparse, hlength, hwrites, ?_, hagain, List.perm_singleton.mp hperm⟩
  refine hreads (by decide) [] [] _ 0 rfl (.inr (by decide +kernel)) (by decide +kernel) ?_
  rw [hexport]
  decide +kernel

set_option maxRecDepth 100000 in
/-- A default that a specifier exports is not found, and another one is declared. A `;` that follows
the call goes with it, even if it stood between two statements on one line. -/
theorem edits_export_twice :
    (∃ script again, Script.parse ⟨"src/app.js"⟩
        "class A \x7b\x7d\nexport \x7b A as default \x7d\nApi.render(<A />, 0)".toList = .ok script ∧
      script.program.bootstrap?.isSome = true ∧
      Script.parse ⟨"src/app.js"⟩ (Edit.applyAll script.source (edits script)) = .ok again ∧
      again.program.defaults = [.named, .declared]) ∧
    ∃ script, Script.parse ⟨"src/app.js"⟩
        "import a from 'a'\nclass A \x7b\x7d\nApi.render(<A />, 0); a()".toList = .ok script ∧
      script.program.bootstrap?.isSome = true ∧
      (Script.parse ⟨"src/app.js"⟩ (Edit.applyAll script.source (edits script))).toOption.isNone =
        true := by
  have htwice : (Script.parse ⟨"src/app.js"⟩
      "class A \x7b\x7d\nexport \x7b A as default \x7d\nApi.render(<A />, 0)".toList).toOption.any
      (fun script => script.program.bootstrap?.isSome &&
        (Script.parse ⟨"src/app.js"⟩ (Edit.applyAll script.source (edits script))).toOption.any
          fun again => again.program.defaults == [.named, .declared]) = true := by
    rw [String.toList_ofList]
    decide +kernel
  have hbroken : (Script.parse ⟨"src/app.js"⟩
      "import a from 'a'\nclass A \x7b\x7d\nApi.render(<A />, 0); a()".toList).toOption.any
      (fun script => script.program.bootstrap?.isSome &&
        (Script.parse ⟨"src/app.js"⟩
          (Edit.applyAll script.source (edits script))).toOption.isNone) = true := by
    rw [String.toList_ofList]
    decide +kernel
  obtain ⟨script, hparse, hcheck⟩ := exists_ok_of_any htwice
  rw [Bool.and_eq_true] at hcheck
  obtain ⟨again, hagain, hdefaults⟩ := exists_ok_of_any hcheck.2
  obtain ⟨broken, hbroken, hcheck'⟩ := exists_ok_of_any hbroken
  rw [Bool.and_eq_true] at hcheck'
  exact ⟨⟨script, again, hparse, hcheck.1, hagain, beq_iff_eq.mp hdefaults⟩,
    broken, hbroken, hcheck'.1, hcheck'.2⟩

end Edits

end Entry

end Codemod

import Codemod.Pass.Router

/-!
# Codemod.Pass.UiImports

Names of the user interface layer move from the API package to the base package: imports are
split, and `Api.Component` becomes `Component`.

The import of the API package keeps its other names, and its default unless nothing refers to it
any more. The names that move go into the first import of the base package that can take them, or
into a new one.
-/

namespace Codemod

/-- The package that components come from. -/
def basePackage : String := "react"

/-- The name under which that package is bound as a whole. -/
def baseName : String := "React"

/-- Names of the user interface layer. -/
def uiSymbols : List String :=
  ["Component", "Fragment", "PureComponent", "createContext", "createRef", "forwardRef", "memo",
   "useCallback", "useContext", "useEffect", "useImperativeHandle", "useLayoutEffect", "useMemo",
   "useReducer", "useRef", "useState"]

namespace UiImports

/-- A use of the name under which the API package is bound. -/
inductive Use where
  /-- `Api.symbol` for a name of the user interface layer. -/
  | symbol (span : Span) (name : String)
  /-- Any other reference. -/
  | kept

def visitUses (main : String) (_ : Unit) : Node → List Use × Option Unit
  | .member span (.reference _ x) name =>
    if x == main && uiSymbols.contains name then ([.symbol span name], none) else ([], some ())
  | .qualified span (.reference _ x) name =>
    if x == main && uiSymbols.contains name then ([.symbol span name], none) else ([], some ())
  | .reference _ x => (if x == main then [.kept] else [], none)
  | _ => ([], some ())

/-- An import of the API package. -/
structure ApiImport where
  span : Span
  clause : ImportClause

/-- The imports of the API package that have a clause. -/
def apiImports (program : Program) : List ApiImport :=
  (program.importsFrom apiPackage).filterMap fun decl =>
    (ImportClause.ofDeclaration? decl).map fun clause => ⟨decl.span, clause⟩

/-- The name under which the API package is bound as a whole, as it is spelled. -/
def mainName? (script : Script) : Option String :=
  (script.program.importsFrom apiPackage).findSome? fun decl =>
    (ImportClause.ofDeclaration? decl).bind fun _ =>
      (decl.specifiers.getD []).findSome? fun
        | .main span _ => some (String.ofList (span.text script.source))
        | _ => none

def uses (script : Script) : List Use :=
  match mainName? script with
  | none => []
  | some main => script.program.gather (visitUses main) ()

/-- The replacements of `Api.symbol` by `symbol`. -/
def memberEdits (us : List Use) : List Edit :=
  us.filterMap fun
    | .symbol span name => some (.replace span name.toList)
    | .kept => none

/-- The names that are read through the API package, each once. -/
def memberSymbols (us : List Use) : List String :=
  us.foldl (fun names u =>
    match u with
    | .symbol _ name => if names.contains name then names else names ++ [name]
    | .kept => names) []

def isUi (n : NamedImport) : Bool :=
  uiSymbols.contains n.imported

/-- What an import of the API package is left with. -/
def remaining (keepMain : Bool) (clause : ImportClause) : ImportClause :=
  { clause with
    main := if keepMain then clause.main else none
    named := clause.named.filter fun n => !isUi n }

/-- Writes the imports of the API package that change. The new import, if there is one, goes with
the first of them. -/
def apiEdits (source : Text) (style : Style) :
    (added : Option Text) → List (Span × ImportClause) → List Edit × Option Text
  | added, [] => ([], added)
  | added, (span, clause) :: rest =>
    let statement := source.statementSpan span
    let edit := match added, clause.render? style with
      | some new, some old => Edit.replace statement (new ++ '\n' :: old)
      | some new, none => Edit.replace statement new
      | none, some old => Edit.replace statement old
      | none, none => Edit.remove (source.removalSpan span)
    let (edits, left) := apiEdits source style none rest
    (edit :: edits, left)

def patch (script : Script) : Patch :=
  let us := uses script
  let imports := apiImports script.program
  let style := script.style
  let source := script.source
  let keepMain := us.any fun
    | .kept => true
    | .symbol .. => false
  let changed := imports.filterMap fun i =>
    let rest := remaining keepMain i.clause
    if rest == i.clause then none else some (i.span, rest)
  let moved := (imports.flatMap fun i => i.clause.named.filter isUi) ++
    (memberSymbols us).map .plain
  let bases := script.program.importsFrom basePackage
  let mergeable := bases.findSome? fun decl =>
    (ImportClause.ofDeclaration? decl).map fun clause => (decl.span, clause)
  let (baseEdits, added) : List Edit × Option Text := match mergeable with
    | some (span, clause) =>
      let full := { clause with main := clause.main <|> some baseName }.bindAll moved
      if full == clause then ([], none)
      else ((full.render? style).toList.map (.replace (source.statementSpan span)), none)
    | none =>
      let empty := ImportClause.none basePackage
      let named := if bases.isEmpty then { empty with main := some baseName } else empty
      ([], (named.bindAll moved).render? style)
  let (edits, left) := apiEdits source style added changed
  let above := match left with
    | none => []
    | some new =>
      let offset := ((script.program.importsFrom apiPackage).head?.map (·.span.start)).getD 0
      [Edit.insert offset (new ++ ['\n'])]
  { edits := baseEdits ++ edits ++ above ++ memberEdits us, artifacts := [], notices := [] }

def applies (script : Script) : Bool :=
  Text.holds apiPackage.toList script.source &&
    (!(memberEdits (uses script)).isEmpty ||
      (apiImports script.program).any fun i => i.clause.named.any isUi)

end UiImports

def uiImportsPass : Pass where
  name := "taro-imports"
  scope := .sourceTree
  applies := UiImports.applies
  patch _ script := .ok (UiImports.patch script)

end Codemod

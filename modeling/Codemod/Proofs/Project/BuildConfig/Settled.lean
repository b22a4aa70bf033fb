import Codemod.Proofs.Module.Ensured
import Codemod.Proofs.Module.Reshape
import Codemod.Proofs.Project.BuildConfig.Frame
import Codemod.Proofs.Project.Replaced
import Codemod.Proofs.Syntax.Parser.Property

/-!
# Codemod.Proofs.Project.BuildConfig.Settled

A build configuration that was brought up to date needs nothing more.

* `additions` are the properties that are added to the configuration, each with its text; the text
  is read as the property (`readsProperty_of_mem_additions`).
* `findIn?_reshape` follows the search for the configuration through a tree whose objects get more
  properties. The configuration of the module that is meant to be left is the one that is meant
  (`find?_meant`), and it is `Settled`: nothing is added to it again.
* Nothing of this depends on where the objects stand, so it holds of every module that reads as the
  one that is meant (`edits_settle`).
-/

namespace Codemod

open Codemod.Parser (ReadsProperty ReadsValue Keyed)

theorem findSome?_flatMap {α β γ : Type} (f : α → List β) (k : β → Option γ) (as : List α) :
    (as.flatMap f).findSome? k = as.findSome? fun a => (f a).findSome? k := by
  induction as with
  | nil => rfl
  | cons a as ih =>
    rw [List.flatMap_cons, List.findSome?_append, ih, List.findSome?_cons]
    cases (f a).findSome? k <;> rfl

/-- An object of a module is told by where it stands. -/
theorem ObjectLiteral.eq_of_span {source : Text} {p : Program} {a b : ObjectLiteral}
    (h : p.Laid source) (ha : p.Has a.node) (hb : p.Has b.node) (hspan : a.span = b.span) :
    a = b := by
  have htidy := h.tidy_of_has hb
  have hlt := htidy.sharp.lt
  obtain ⟨m, hm, ham⟩ := ha
  obtain ⟨n, hn, hbn⟩ := hb
  have hstrict {a b : ObjectLiteral} (hspan : a.span = b.span) (htidy : b.node.Tidy source)
      (hmem : a.node ∈ b.node.postorder) : a = b := by
    rcases Node.mem_postorder.mp hmem with heq | ⟨c, hc, hmem⟩
    · exact Option.some.inj (congrArg Node.object? heq)
    · have hstart : b.span.start + 1 ≤ a.span.start :=
        (htidy.arranged.2.2.within c hc _ hmem).1
      rw [hspan] at hstart
      omega
  have hapart : ¬ (a.node.span.stop ≤ b.node.span.start ∨ b.node.span.stop ≤ a.node.span.start) := by
    show ¬ (a.span.stop ≤ b.span.start ∨ b.span.stop ≤ a.span.start)
    have hlt : b.span.start < b.span.stop := hlt
    rw [hspan]
    omega
  rcases Node.apart_of_ordered h.row.ordered hm hn ham hbn with rfl | habsurd
  · rcases (h.tidy m hm).nested_or_apart ham hbn with hmem | hmem | habsurd
    · exact hstrict hspan htidy hmem
    · exact (hstrict hspan.symm ((h.tidy m hm).of_mem ham) hmem).symm
    · exact absurd habsurd hapart
  · exact absurd habsurd hapart

namespace BuildConfig

section Search

variable {g : Span → Span} {h : Span → List Node → List Node}

/-- The configuration in a tree. -/
def findIn? (n : Node) : Option (ObjectLiteral × String) :=
  (n.gather (fun _ n => (n.object?.toList, some ())) ()).findSome? fun object =>
    (sourceRoot? object).map fun root => (object, root)

theorem findIn?_eq (n : Node) : findIn? n =
    (n.object?.bind fun object => (sourceRoot? object).map fun root => (object, root)).or
      (n.children.findSome? findIn?) := by
  rw [findIn?, Node.gather_eq]
  simp only [List.findSome?_append, findSome?_flatMap]
  cases n.object? with
  | none => rfl
  | some object =>
    simp only [Option.toList, List.findSome?_cons, List.findSome?_nil, Option.bind_some]
    cases sourceRoot? object <;> rfl

theorem find?_eq (p : Program) : find? p = p.nodes.findSome? findIn? := by
  rw [find?, Program.objects, Program.gather, findSome?_flatMap]
  rfl

/-- The object still declares the source root that it declared. If it declared none, it has no more
properties than before. -/
def Keeps (g : Span → Span) (h : Span → List Node → List Node) (o : ObjectLiteral) : Prop :=
  sourceRoot? (o.reshape g h) = sourceRoot? o ∧
    (sourceRoot? o = none → (o.reshape g h).properties = o.properties.map (Node.reshape g h))

theorem sourceRoot?_map_reshape (o : ObjectLiteral) (span : Span) :
    sourceRoot? ⟨span, o.properties.map (Node.reshape g h)⟩ = sourceRoot? o := by
  rw [sourceRoot?, ObjectLiteral.get?_map_reshape, Option.bind_map]
  exact congrArg (Option.bind _) (funext Node.stringValue?_reshape)

theorem keeps_of_eq {o : ObjectLiteral} (heq : ∀ ps, h (g o.span) ps = ps) : Keeps g h o := by
  have hsame : o.reshape g h = ⟨g o.span, o.properties.map (Node.reshape g h)⟩ := by
    rw [ObjectLiteral.reshape, heq]
  rw [Keeps, hsame]
  exact ⟨sourceRoot?_map_reshape o _, fun _ => rfl⟩

/-- The search for the configuration, in a tree whose objects have other properties. -/
theorem findIn?_reshape (n : Node)
    (hkeeps : ∀ o : ObjectLiteral, o.node ∈ n.postorder → Keeps g h o) :
    findIn? (n.reshape g h) = (findIn? n).map fun found => (found.1.reshape g h, found.2) := by
  induction n using Node.inductionOn with
  | step n ih =>
    have hparts : (n.children.map (Node.reshape g h)).findSome? findIn? =
        (n.children.findSome? findIn?).map fun found => (found.1.reshape g h, found.2) := by
      rw [List.findSome?_map, List.map_findSome?]
      refine findSome?_congr fun c hc => ih c hc fun o ho => ?_
      exact hkeeps o (Node.mem_postorder.mpr (.inr ⟨c, hc, ho⟩))
    rw [findIn?_eq, findIn?_eq n, ObjectLiteral.object?_reshape]
    cases hobject : n.object? with
    | none =>
      rw [Node.children_reshape hobject, hparts]
      rfl
    | some o =>
      obtain rfl := ObjectLiteral.eq_node_of_object? hobject
      obtain ⟨hroot, hproperties⟩ := hkeeps o (Node.mem_postorder_self _)
      simp only [Option.map_some, Option.bind_some, hroot]
      cases hnone : sourceRoot? o with
      | some root => rfl
      | none =>
        have hchildren : (o.node.reshape g h).children = o.node.children.map (Node.reshape g h) := by
          rw [Node.reshape_eq]
          exact hproperties hnone
        rw [hchildren, hparts]
        rfl

theorem find?_reshape (p : Program)
    (hkeeps : ∀ o : ObjectLiteral, p.Has o.node → Keeps g h o) :
    find? ⟨p.directives.map (Node.reshape g h), p.body.map (Node.reshape g h)⟩ =
      (find? p).map fun found => (found.1.reshape g h, found.2) := by
  rw [find?_eq, find?_eq, Program.nodes, ← List.map_append, List.findSome?_map, List.map_findSome?]
  exact findSome?_congr fun n hn => findIn?_reshape n fun o ho => hkeeps o ⟨n, hn, ho⟩

end Search

variable {source : Text} {style : Style} {options : Options} {value : Node} {config : ObjectLiteral}
  {p : Program} {root : String}

def constantText (style : Style) (constant : Constant) : Text :=
  style.quoted constant.key.toList ++ ": ".toList ++ constant.value.toList

/-- The constant as a property. -/
def constantProperty (constant : Constant) (value : Node) : Node :=
  .property .nowhere (some constant.key) [.string .nowhere constant.key] value

/-- The object of constants, if it does not have the constant. -/
def lacking? (options : Options) (config : ObjectLiteral) : Option ObjectLiteral :=
  (constants? config).filter fun object => !object.has options.constant.key

/-- What is added to the configuration itself, in text and in meaning. -/
def additions (style : Style) (options : Options) (value : Node) (config : ObjectLiteral) :
    List (Text × Node) :=
  (if (config.get? "defineConstants").isNone then
    [("defineConstants: ".toList ++ ("\x7b ".toList ++ constantText style options.constant ++
        " \x7d".toList),
      .property .nowhere (some "defineConstants") []
        (.object .nowhere [constantProperty options.constant value]))] else []) ++
  if config.has "framework" then [] else
    [("framework: ".toList ++ style.quoted options.framework.toList,
      .property .nowhere (some "framework") [] (.string .nowhere options.framework))]

theorem edits_eq (source : Text) (style : Style) (options : Options) (value : Node)
    (config : ObjectLiteral) : edits source style options config =
      (lacking? options config).toList.map
        (·.append source (constantText style options.constant)) ++
      (additions style options value config).map (config.append source ·.1) := by
  have hconstants : ((config.get? "defineConstants").map Node.bare).bind Node.object? =
      constants? config := by
    rw [constants?, Option.bind_map]
    rfl
  have hnone : ((config.get? "defineConstants").map Node.bare).isNone =
      (config.get? "defineConstants").isNone := Option.isNone_map
  simp only [edits, hconstants, hnone, lacking?, additions, List.map_append]
  congr 1
  · cases constants? config with
    | none => rfl
    | some object =>
      cases hhas : object.has options.constant.key <;> simp [Option.filter, hhas, constantText]
  · congr 1
    · split <;> simp [constantText]
    · split <;> rfl

/-- What the options say can be written as it is. -/
structure Writable (style : Style) (options : Options) (value : Node) : Prop where
  quote : style.quote = '"' ∨ style.quote = '\''
  key : Lexer.isVerbatim style.quote options.constant.key.toList = true
  framework : Lexer.isVerbatim style.quote options.framework.toList = true
  value : ReadsValue options.constant.value.toList value

theorem readsProperty_constant (h : Writable style options value) :
    ReadsProperty (constantText style options.constant)
      (constantProperty options.constant value) := by
  have hread := Parser.readsProperty_of_key
    (.string style.quote options.constant.key.toList h.quote h.key) h.value
  rwa [String.ofList_toList] at hread

/-- Every property that is added is read as what it is. -/
theorem readsProperty_of_mem_additions (h : Writable style options value) {entry : Text × Node}
    (hentry : entry ∈ additions style options value config) : ReadsProperty entry.1 entry.2 := by
  rcases List.mem_append.mp hentry with hentry | hentry
  · split at hentry
    · rw [List.mem_singleton.mp hentry]
      exact Parser.readsProperty_of_key (.word "defineConstants" (by decide) (by decide))
        (Parser.readsValue_object (readsProperty_constant h))
    · cases hentry
  · split at hentry
    · cases hentry
    · rw [List.mem_singleton.mp hentry]
      have hvalue := Parser.readsValue_string h.quote h.framework
      rw [String.ofList_toList] at hvalue
      exact Parser.readsProperty_of_key (.word "framework" (by decide) (by decide)) hvalue

/-- The constant is added to the object of constants that lacks it. -/
def withConstant (options : Options) (value : Node) (config : ObjectLiteral) (span : Span)
    (properties : List Node) : List Node :=
  if (lacking? options config).any (·.span == span) then
    properties ++ [constantProperty options.constant value]
  else properties

/-- The configuration with all that is added. -/
def updated (style : Style) (options : Options) (value : Node) (config : ObjectLiteral) :
    ObjectLiteral :=
  ⟨config.span, config.properties.map (Node.reshape id (withConstant options value config)) ++
    (additions style options value config).map Prod.snd⟩

/-- The module that is meant to be left. -/
def meant (style : Style) (options : Options) (value : Node) (config : ObjectLiteral)
    (p : Program) : Program :=
  let change := Node.reshape id fun span properties =>
    if span = config.span then (updated style options value config).properties else properties
  ⟨p.directives.map change, p.body.map change⟩

/-- Nothing is missing in the configuration. -/
structure Settled (options : Options) (config : ObjectLiteral) : Prop where
  framework : config.has "framework" = true
  constants : config.has "defineConstants" = true
  constant : ∀ object ∈ constants? config, object.has options.constant.key = true

theorem lacking?_eq_none : lacking? options config = none ↔
    ∀ object ∈ constants? config, object.has options.constant.key = true := by
  rw [lacking?, Option.filter_eq_none_iff]
  simp

theorem edits_of_settled (h : Settled options config) (source : Text) (style : Style) :
    edits source style options config = [] := by
  have hconstants : (config.get? "defineConstants").isNone = false := by
    rw [← Option.not_isSome, ← ObjectLiteral.has, h.constants]
    rfl
  rw [edits_eq source style options (.this .nowhere), lacking?_eq_none.mpr h.constant, additions,
    hconstants, h.framework]
  rfl

theorem object?_bare_reshape {g : Span → Span} {h : Span → List Node → List Node} (n : Node) :
    (n.reshape g h).bare.object? = n.bare.object?.map (ObjectLiteral.reshape g h) := by
  rw [Node.bare_reshape, ObjectLiteral.object?_reshape]

theorem get?_updated (name : String) : (updated style options value config).get? name =
    ((config.get? name).map (Node.reshape id (withConstant options value config))).or
      (ObjectLiteral.get? ⟨config.span, (additions style options value config).map Prod.snd⟩
        name) := by
  rw [updated, ObjectLiteral.get?_append, ObjectLiteral.get?_map_reshape]

theorem withConstant_more (span : Span) (ps : List Node) :
    ∃ qs, withConstant options value config span ps = ps ++ qs := by
  unfold withConstant
  split
  · exact ⟨_, rfl⟩
  · exact ⟨[], (List.append_nil ps).symm⟩

/-- The object of constants has the constant once it is added. -/
theorem has_withConstant {object : ObjectLiteral} (h : constants? config = some object) :
    (object.reshape id (withConstant options value config)).has options.constant.key = true := by
  cases hhas : object.has options.constant.key with
  | true => exact ObjectLiteral.has_reshape withConstant_more hhas
  | false =>
    have hlacking : lacking? options config = some object := by
      rw [lacking?, h, Option.filter_some, hhas]
      rfl
    have hadded (ps : List Node) : withConstant options value config object.span ps =
        ps ++ [constantProperty options.constant value] := by
      rw [withConstant, hlacking, Option.any_some, if_pos (beq_self_eq_true _)]
    rw [ObjectLiteral.reshape, id, hadded, ObjectLiteral.has, ObjectLiteral.get?_append,
      Option.isSome_or, Bool.or_eq_true]
    exact .inr (by simp [ObjectLiteral.get?, constantProperty])

/-- The configuration that is meant lacks nothing. -/
theorem settled_updated : Settled options (updated style options value config) := by
  have hmapped {name : String} (h : config.has name = true) :
      (updated style options value config).has name = true := by
    obtain ⟨found, hfound⟩ := Option.isSome_iff_exists.mp h
    rw [ObjectLiteral.has, get?_updated, hfound]
    rfl
  have hadded {name : String} (h : (ObjectLiteral.get? ⟨config.span,
      (additions style options value config).map Prod.snd⟩ name).isSome = true) :
      (updated style options value config).has name = true := by
    rw [ObjectLiteral.has, get?_updated, Option.isSome_or, h, Bool.or_true]
  refine ⟨?_, ?_, ?_⟩
  · cases hframework : config.has "framework" with
    | true => exact hmapped hframework
    | false =>
      refine hadded ?_
      rw [additions, hframework]
      cases (config.get? "defineConstants").isNone <;> rfl
  · cases hconstants : config.get? "defineConstants" with
    | some found => exact hmapped (by rw [ObjectLiteral.has, hconstants]; rfl)
    | none =>
      refine hadded ?_
      rw [additions, hconstants]
      rfl
  · intro object hobject
    rw [Option.mem_def, constants?, get?_updated] at hobject
    cases hconstants : config.get? "defineConstants" with
    | some found =>
      rw [hconstants, Option.map_some, Option.some_or, Option.bind_some, object?_bare_reshape,
        Option.map_eq_some_iff] at hobject
      obtain ⟨own, hown, rfl⟩ := hobject
      exact has_withConstant (by rw [constants?, hconstants]; exact hown)
    | none =>
      rw [hconstants, additions, hconstants] at hobject
      cases hobject
      simp [ObjectLiteral.has, ObjectLiteral.get?, constantProperty]

/-- Whether anything is missing does not depend on where things stand. -/
theorem settled_reshape_iff {g : Span → Span} : Settled options
    (config.reshape g fun _ ps => ps) ↔ Settled options config := by
  have hget (o : ObjectLiteral) (name : String) : (o.reshape g fun _ ps => ps).get? name =
      (o.get? name).map (Node.reshape g fun _ ps => ps) :=
    ObjectLiteral.get?_map_reshape o _ name
  have hhas (o : ObjectLiteral) (name : String) :
      (o.reshape g fun _ ps => ps).has name = o.has name := by
    rw [ObjectLiteral.has, hget, Option.isSome_map, ObjectLiteral.has]
  have hconstants : constants? (config.reshape g fun _ ps => ps) =
      (constants? config).map (ObjectLiteral.reshape g fun _ ps => ps) := by
    rw [constants?, hget, Option.bind_map, constants?, Option.map_bind]
    exact congrArg (Option.bind _) (funext object?_bare_reshape)
  constructor
  · rintro ⟨hframework, hdefined, hconstant⟩
    rw [hhas] at hframework hdefined
    refine ⟨hframework, hdefined, fun object hobject => ?_⟩
    rw [← hhas object]
    exact hconstant _ (by rw [hconstants, hobject]; rfl)
  · rintro ⟨hframework, hdefined, hconstant⟩
    refine ⟨(hhas ..).trans hframework, (hhas ..).trans hdefined, fun object hobject => ?_⟩
    rw [hconstants, Option.mem_def, Option.map_eq_some_iff] at hobject
    obtain ⟨own, hown, rfl⟩ := hobject
    rw [hhas]
    exact hconstant own hown

theorem sourceRoot?_of_find? (h : find? p = some (config, root)) :
    sourceRoot? config = some root := by
  obtain ⟨object, -, h⟩ := List.exists_of_findSome?_eq_some h
  obtain ⟨found, hroot, heq⟩ := Option.map_eq_some_iff.mp h
  cases heq
  exact hroot

theorem sourceRoot?_updated (h : sourceRoot? config = some root) :
    sourceRoot? (updated style options value config) = some root := by
  obtain ⟨found, hget, hstring⟩ := Option.bind_eq_some_iff.mp h
  rw [sourceRoot?, get?_updated, hget, Option.map_some, Option.some_or, Option.bind_some,
    Node.stringValue?_reshape, hstring]

/-- The search comes to the configuration that is meant. -/
theorem find?_meant (h : p.Laid source) (hfind : find? p = some (config, root)) :
    find? (meant style options value config p) =
      some (updated style options value config, root) := by
  rw [meant, find?_reshape, hfind]
  · simp only [Option.map_some, ObjectLiteral.reshape, id, if_pos]
    rfl
  · intro o ho
    by_cases hspan : o.span = config.span
    · obtain ⟨hhas, _⟩ := has_of_find? hfind
      obtain rfl := ObjectLiteral.eq_of_span h ho hhas hspan
      have hroot := sourceRoot?_of_find? hfind
      have hreshape : o.reshape id (fun span properties =>
          if span = o.span then (updated style options value o).properties else properties) =
          updated style options value o := by
        simp only [ObjectLiteral.reshape, id, if_pos]
        rfl
      rw [Keeps, hreshape, sourceRoot?_updated hroot, hroot]
      refine ⟨rfl, ?_⟩
      intro h
      cases h
    · exact keeps_of_eq fun ps => if_neg hspan

/-- A module that reads as the one that is meant has the same source root, and lacks nothing. -/
theorem settled_of_same {p' : Program} (h : p.Laid source) (hfind : find? p = some (config, root))
    (hsame : p'.Same (meant style options value config p)) :
    ∃ config', find? p' = some (config', root) ∧ Settled options config' := by
  have herase (q : Program) : find? q.erase = (find? q).map fun found =>
      (found.1.reshape (fun _ => .nowhere) fun _ ps => ps, found.2) := by
    rw [Program.erase, Node.erase_eq_reshape]
    exact find?_reshape q fun o _ => keeps_of_eq fun _ => rfl
  have hmeant := herase (meant style options value config p)
  rw [← hsame, herase p', find?_meant h hfind, Option.map_some, Option.map_eq_some_iff] at hmeant
  obtain ⟨⟨config', root'⟩, hfind', heq⟩ := hmeant
  obtain ⟨hconfig, rfl⟩ := Prod.mk.inj heq
  exact ⟨config', hfind', settled_reshape_iff.mp (hconfig ▸ settled_reshape_iff.mpr settled_updated)⟩

/-- What is added to the build configuration is read as the constant and the framework that the
options ask for. If the whole text reads as the module that is meant, it declares the same source
root, lacks nothing, and no edit is left to make; and the project, loaded with this text, is the same
and has nothing to write to its build configuration. -/
theorem edits_settle {path : Path} {script again : Script}
    (hparse : Script.parse path source = .ok script)
    (hfind : find? script.program = some (config, root))
    (hwritable : Writable script.style options value)
    (hagain : Script.parse path (Edit.applyAll source (edits source script.style options config)) =
      .ok again)
    (hmeant : again.program.Same (meant script.style options value config script.program)) :
    (edits source script.style options config =
      (lacking? options config).toList.map
        (·.append source (constantText script.style options.constant)) ++
      (additions script.style options value config).map (config.append source ·.1)) ∧
    (∀ entry ∈ (constantText script.style options.constant, constantProperty options.constant value)
        :: additions script.style options value config, ReadsProperty entry.1 entry.2) ∧
    ∃ config', find? again.program = some (config', root) ∧ Settled options config' ∧
      edits again.source again.style options config' = [] ∧
      ∀ disk plan, Project.load options disk = .ok plan →
        Project.readScript disk plan.project.buildConfigPath = .ok script →
        ∃ loc plan', disk.locate plan.project.buildConfigPath = .ok loc ∧
          Project.load options (disk.putAt loc (.text
            (Edit.applyAll source (edits source script.style options config)))) = .ok plan' ∧
          plan'.project = plan.project ∧
          ∀ group ∈ plan'.writes, group.1 ≠ plan.project.buildConfigPath := by
  obtain ⟨-, hlaid⟩ := Script.parse_laid hparse
  obtain ⟨config', hfind', hsettled⟩ := settled_of_same hlaid hfind hmeant
  have hnothing := edits_of_settled hsettled again.source again.style
  refine ⟨edits_eq .., ?_, config', hfind', hsettled, hnothing, fun disk plan hload hread => ?_⟩
  · intro entry hentry
    rcases List.mem_cons.mp hentry with rfl | hentry
    · exact readsProperty_constant hwritable
    · exact readsProperty_of_mem_additions hwritable hentry
  · obtain ⟨entry, hloads, -⟩ := Project.loads_of_load hload
    obtain ⟨loc, hloc, -⟩ :=
      Disk.isFile_iff.mp (Project.isFile_of_locateBuildConfig hloads.buildConfig)
    obtain rfl : path = plan.project.buildConfigPath :=
      (Script.path_of_parse hparse).1.symm.trans (Project.readScript_eq_ok hread)
    have hroot : plan.project.sourceRoot = root := by
      obtain ⟨own, object, hown, hobject⟩ := hloads.declared
      obtain rfl : own = script := Except.ok.inj (hown.symm.trans hread)
      exact (Prod.mk.inj (Option.some.inj (hobject.symm.trans hfind))).2
    obtain ⟨plan', hload', hproject, hwrites⟩ :=
      Project.load_replaced hload hloc hagain (hroot ▸ hfind') hnothing
    exact ⟨loc, plan', hloc, hload', hproject, fun group hgroup => (hwrites group hgroup).2⟩

/-- A project that defines another constant and names no framework. -/
def unsettledText : Text :=
  "x = \x7b sourceRoot: 'src', defineConstants: \x7b a: 1, \x7d \x7d".toList

def unsettledDisk : Disk :=
  let tree := ((Disk.bare []).makeDirAt ["config"]).makeDirAt ["src"]
  (tree.putAt ["config", "index.js"] (.text unsettledText)).putAt ["src", "app.js"] (.text [])

def weappOptions : Options :=
  { Options.standard with constant := ⟨"TARO_ENV", "'weapp'"⟩ }

set_option maxRecDepth 100000 in
theorem edits_settle_unsettled :
    let text := ("x = \x7b sourceRoot: 'src', defineConstants: \x7b a: 1, 'TARO_ENV': 'weapp', \x7d" ++
      ", framework: 'react' \x7d").toList
    ∃ plan again config' loc plan',
      Project.load weappOptions unsettledDisk = .ok plan ∧
      plan.writes = [(⟨"./config/index.js"⟩, [.overwrite ⟨"./config/index.js"⟩ text])] ∧
      Script.parse ⟨"./config/index.js"⟩ text = .ok again ∧
      find? again.program = some (config', "src") ∧ Settled weappOptions config' ∧
      edits again.source again.style weappOptions config' = [] ∧
      unsettledDisk.locate ⟨"./config/index.js"⟩ = .ok loc ∧
      Project.load weappOptions (unsettledDisk.putAt loc (.text text)) = .ok plan' ∧
      plan'.project = plan.project ∧
      ∀ group ∈ plan'.writes, group.1 ≠ ⟨"./config/index.js"⟩ := by
  intro text
  have hloads : (Project.load weappOptions unsettledDisk).toOption.any (fun plan =>
      decide (plan.project.buildConfigPath = ⟨"./config/index.js"⟩ ∧ plan.writes =
        [(⟨"./config/index.js"⟩, [.overwrite ⟨"./config/index.js"⟩ text])])) = true := by
    unfold unsettledDisk unsettledText text
    rw [String.toList_append]
    repeat rw [String.toList_ofList]
    decide +kernel
  have hcheck : (Project.readScript unsettledDisk ⟨"./config/index.js"⟩).toOption.any
      (fun script => (find? script.program).any fun found => found.2 == "src" &&
        script.style.quote == '\'' &&
        (Edit.applyAll unsettledText (edits unsettledText script.style weappOptions found.1) ==
          text) &&
        (Script.parse ⟨"./config/index.js"⟩ text).toOption.any fun again => decide
          (again.program.Same (meant script.style weappOptions (.string .nowhere "weapp") found.1
            script.program))) = true := by
    unfold unsettledDisk unsettledText text
    rw [String.toList_append]
    repeat rw [String.toList_ofList]
    decide +kernel
  have hread : unsettledDisk.read ⟨"./config/index.js"⟩ = .ok unsettledText := by decide +kernel
  obtain ⟨plan, hload, hplan⟩ := exists_ok_of_any hloads
  obtain ⟨hpath, hwrites⟩ := of_decide_eq_true hplan
  obtain ⟨script, hscript, hcheck⟩ := exists_ok_of_any hcheck
  obtain ⟨⟨config, root⟩, hfind, hcheck⟩ := (Option.any_eq_true ..).mp hcheck
  rw [Bool.and_eq_true, Bool.and_eq_true, Bool.and_eq_true, beq_iff_eq, beq_iff_eq,
    beq_iff_eq] at hcheck
  obtain ⟨⟨⟨rfl, hquote⟩, htext⟩, hcheck⟩ := hcheck
  obtain ⟨again, hagain, hmeant⟩ := exists_ok_of_any hcheck
  have hparse : Script.parse ⟨"./config/index.js"⟩ unsettledText = .ok script := by
    rw [Project.readScript, hread, Fault.ok_bind] at hscript
    split at hscript
    · rename_i hparse
      cases hscript
      exact hparse
    · cases hscript
  have hwritable : Writable script.style weappOptions (.string .nowhere "weapp") :=
    ⟨.inr hquote, hquote ▸ by decide, hquote ▸ by decide,
      Parser.readsValue_string (s := "weapp".toList) (.inr rfl) (by decide)⟩
  obtain ⟨-, -, config', hfind', hsettled, hnothing, hreload⟩ := edits_settle hparse hfind
    hwritable (by rw [htext]; exact hagain) (of_decide_eq_true hmeant)
  obtain ⟨loc, plan', hloc, hload', hproject, hgroups⟩ := hreload _ plan hload (hpath ▸ hscript)
  rw [htext] at hload'
  rw [hpath] at hloc hgroups
  exact ⟨plan, again, config', loc, plan', hload, hwrites, hagain, hfind', hsettled, hnothing, hloc,
    hload', hproject, hgroups⟩

set_option maxRecDepth 100000 in
/-- A quote in the name of the framework is written as it is, and the text cannot be read. -/
theorem edits_break_quote :
    let source : Text := "x = \x7b sourceRoot: 'src', defineConstants: 0 \x7d".toList
    let options : Options := { Options.standard with framework := "it's" }
    ∃ script config, Script.parse ⟨"config/index.js"⟩ source = .ok script ∧
      find? script.program = some (config, "src") ∧
      (Script.parse ⟨"config/index.js"⟩ (Edit.applyAll source
        (edits source script.style options config))).toOption.isNone = true := by
  intro source options
  have hcheck : (Script.parse ⟨"config/index.js"⟩ source).toOption.any (fun script =>
      (find? script.program).any fun found => found.2 == "src" &&
        (Script.parse ⟨"config/index.js"⟩ (Edit.applyAll source
          (edits source script.style options found.1))).toOption.isNone) = true := by
    unfold source
    rw [String.toList_ofList]
    decide +kernel
  obtain ⟨script, hparse, hcheck⟩ := exists_ok_of_any hcheck
  obtain ⟨⟨config, root⟩, hfind, hcheck⟩ := (Option.any_eq_true ..).mp hcheck
  rw [Bool.and_eq_true, beq_iff_eq] at hcheck
  obtain ⟨rfl, hnone⟩ := hcheck
  exact ⟨script, config, hparse, hfind, hnone⟩

end BuildConfig

end Codemod

import Codemod.Proofs.Disk
import Codemod.Proofs.Pass.PageConfig
import Codemod.Proofs.Syntax.Parser.Shape

/-!
# Codemod.Proofs.Pass.PageConfig.Coverage

Which modules the page configuration pass would rewrite but never looks at.

The pass looks for a configuration in the classes that are declared at the top of a module and in
the assignments there. What it rewrites is the component that is exported by default, and this may
be a class that is written as an expression.

* `class_of_defaultExport`: a class that is exported by default is declared at the top or expressed.
* `patch_passed_over_iff`: a module that would be rewritten is passed over if the class with the
  configuration is expressed and nothing else draws attention to the module, or if its text never
  spells `config`.
-/

namespace Codemod

namespace Node

/-- The variables that a declaration introduces. -/
def declarators : Node → List Node
  | .bindings _ ds => ds
  | _ => []

/-- The variable's initial value is the class. -/
def Holds (shape : ClassShape) (d : Node) : Prop :=
  ∃ s own head value more, d = .declarator s own head (value :: more) ∧
    value.bare.class? = some shape

theorem class_or_holds_of_declares? {n : Node} {name : String} {shape : ClassShape}
    (h : n.declares? name = some (.ofClass shape)) :
    n.class? = some shape ∨ ∃ d ∈ n.declarators, d.Holds shape := by
  cases n with
  | classDef s own head body members =>
    simp only [declares?] at h
    split at h
    · exact .inl (by simpa using h)
    · cases h
  | function s own parts =>
    simp only [declares?] at h
    split at h <;> cases h
  | bindings s ds =>
    obtain ⟨d, hd, hbound⟩ := List.exists_of_findSome?_eq_some h
    refine .inr ⟨d, hd, ?_⟩
    split at hbound
    · rename_i t own head value more
      refine ⟨t, own, head, value, more, rfl, ?_⟩
      split at hbound
      · split at hbound
        · cases hbound
        · cases hbound
        · simpa using hbound
      · cases hbound
    · cases hbound
  | _ => cases h

end Node

namespace Program

variable {p : Program} {shape : ClassShape}

/-- The class is written as an expression: it is exported by default in parentheses or with a type
mark, or it is the initial value of a variable at the top. -/
inductive Expresses (p : Program) (shape : ClassShape) : Prop where
  | exported {s t : Span} {inner : Node} {mark : List Node}
      (hmem : .exportDefault s (.wrapped t inner mark) ∈ p.body)
      (hclass : inner.bare.class? = some shape)
  | bound {n d : Node} (hmem : n ∈ p.body) (hd : d ∈ n.declarators) (hholds : d.Holds shape)
  | boundExported {s : Span} {names : List String} {n d : Node} {parts : List Node}
      (hmem : .exportNamed s names [n] parts ∈ p.body) (hd : d ∈ n.declarators)
      (hholds : d.Holds shape)

theorem mem_declaredClasses {n : Node} (hmem : n ∈ p.body) (hclass : n.class? = some shape) :
    shape ∈ p.declaredClasses := by
  refine List.mem_filterMap.mpr ⟨n, hmem, ?_⟩
  cases n <;> first | exact hclass | cases hclass

theorem class_of_component? (hshaped : ∀ n ∈ p.body, n.Shaped) {name : String}
    (h : p.component? name = some (.ofClass shape)) :
    shape ∈ p.declaredClasses ∨ p.Expresses shape := by
  obtain ⟨n, hmem, hn⟩ := List.exists_of_findSome?_eq_some h
  split at hn
  · rename_i s names declaration parts
    -- Such an export declares one thing, so the class is the first that it declares.
    match declaration, hshaped _ hmem with
    | [], _ => cases hn
    | [d], _ =>
      rw [List.findSome?_singleton] at hn
      rcases Node.class_or_holds_of_declares? hn with hclass | ⟨e, he, hholds⟩
      · exact .inl (List.mem_filterMap.mpr ⟨_, hmem, hclass⟩)
      · exact .inr (.boundExported hmem he hholds)
    | _ :: _ :: _, hlength => exact absurd hlength (by simp [Node.Shaped])
  · rcases Node.class_or_holds_of_declares? hn with hclass | ⟨d, hd, hholds⟩
    · exact .inl (mem_declaredClasses hmem hclass)
    · exact .inr (.bound hmem hd hholds)

/-- A class that is exported by default is declared at the top or expressed. -/
theorem class_of_defaultExport (hshaped : ∀ n ∈ p.body, n.Shaped)
    (h : p.defaultExport = .component (.ofClass shape)) :
    shape ∈ p.declaredClasses ∨ p.Expresses shape := by
  rw [defaultExport_eq] at h
  match hvalues : p.body.filterMap exported? with
  | [] => rw [hvalues] at h; cases h
  | _ :: _ :: _ => rw [hvalues] at h; cases h
  | [value] =>
    rw [hvalues] at h
    have hvalue : value ∈ p.body.filterMap exported? := hvalues ▸ List.mem_singleton_self _
    obtain ⟨n, hmem, hn⟩ := List.mem_filterMap.mp hvalue
    obtain ⟨s, rfl⟩ : ∃ s, n = .exportDefault s value := by
      unfold exported? at hn
      split at hn
      · cases hn
        exact ⟨_, rfl⟩
      · cases hn
    replace h : p.resolve value = .component (.ofClass shape) := h
    unfold resolve at h
    split at h
    case h_1 | h_3 | h_4 | h_7 => cases h
    case h_2 t name head body members hbare =>
      cases h
      have hclass : value.bare.class? = some ⟨t, name, body, members⟩ := by rw [hbare]; rfl
      cases value with
      | wrapped u inner mark => exact .inr (.exported hmem hclass)
      | classDef => exact .inl (List.mem_filterMap.mpr ⟨_, hmem, hclass⟩)
      | _ => cases hbare
    case h_5 t name hbare =>
      split at h
      · rename_i c hc
        cases h
        exact class_of_component? hshaped hc
      · cases h
    case h_6 t callee types arguments hbare =>
      split at h
      · rename_i c hc
        cases h
        have hfound := hc ▸ List.mem_singleton_self (Component.ofClass shape)
        obtain ⟨name, -, hname⟩ := List.mem_filterMap.mp hfound
        exact class_of_component? hshaped hname
      · cases h
      · cases h

end Program

namespace PageConfig

/-- The pass would move the configuration at a site of the exported component, and whether it looks
at the module at all. -/
structure Moves (script : Script) (patch : Patch) (c : Component) (site : Site) : Prop where
  exported : script.program.defaultExport = .component c
  sites : sites script.program c = [site]
  patch : patch = move script site
  passedOver : applies script = false ↔
    Text.holds "config".toList script.source = false ∨
      ∃ shape, c = .ofClass shape ∧ script.program.Expresses shape ∧
        (∀ d ∈ script.program.declaredClasses, d.configs = []) ∧
        script.program.assignedConfigs = []

theorem of_patch {entry : Path} {script : Script} {patch : Patch}
    (h : PageConfig.patch entry script = .ok patch) (hpatch : patch.isEmpty = false) :
    ∃ c site, script.program.defaultExport = .component c ∧
      sites script.program c = [site] ∧ patch = move script site := by
  unfold PageConfig.patch at h
  split at h
  · cases h
    cases hpatch
  · split at h
    · cases h
    · cases h
    · cases h
    · rename_i c hexport
      split at h
      · cases h
        cases hpatch
      · rename_i site hsites
        cases h
        exact ⟨c, site, hexport, hsites, rfl⟩
      · cases h

/-- If nothing is assigned, the only configuration of a component is a field of its class. -/
theorem class_of_sites {program : Program} {c : Component} {site : Site}
    (h : sites program c = [site]) (hassigned : program.assignedConfigs = []) :
    ∃ shape, c = .ofClass shape ∧ shape.configs ≠ [] := by
  have hnone : assignedSites program c = [] := by
    unfold assignedSites
    split
    · rfl
    · rw [← assignedConfigs_eq, hassigned]
      rfl
  rw [sites_eq, hnone, List.append_nil] at h
  cases c with
  | ofFunction name => cases h
  | ofClass shape =>
    refine ⟨shape, rfl, ?_⟩
    intro hconfigs
    have hfields := configs_eq shape
    rw [hconfigs] at hfields
    exact List.cons_ne_nil _ _ (h.symm.trans hfields.symm)

theorem applies_eq_false_iff (script : Script) :
    applies script = false ↔ Text.holds "config".toList script.source = false ∨
      (∀ d ∈ script.program.declaredClasses, d.configs = []) ∧
        script.program.assignedConfigs = [] := by
  rw [applies, Bool.and_eq_false_iff, Bool.or_eq_false_iff, List.any_eq_false, Bool.not_eq_false',
    List.isEmpty_iff]
  simp only [Bool.not_eq_true', Bool.not_eq_false, List.isEmpty_iff]

/-- A module that would be rewritten is looked at, unless the class with the configuration is
expressed and neither a declared class nor an assignment has another one, or `config` is never
spelled out. -/
theorem patch_passed_over_iff {entry path : Path} {source : Text} {script : Script} {patch : Patch}
    (hparse : Script.parse path source = .ok script)
    (h : PageConfig.patch entry script = .ok patch) (hpatch : patch.isEmpty = false) :
    ∃ c site, Moves script patch c site := by
  obtain ⟨c, site, hexport, hsites, rfl⟩ := of_patch h hpatch
  refine ⟨c, site, hexport, hsites, rfl, ?_⟩
  rw [applies_eq_false_iff]
  refine or_congr_right ⟨?_, ?_⟩
  · rintro ⟨hdeclared, hassigned⟩
    obtain ⟨shape, rfl, hconfigs⟩ := class_of_sites hsites hassigned
    refine ⟨shape, rfl, ?_, hdeclared, hassigned⟩
    have hshaped := Script.parse_shaped hparse
    rcases Program.class_of_defaultExport hshaped hexport with hmem | hexpressed
    · exact absurd (hdeclared shape hmem) hconfigs
    · exact hexpressed
  · rintro ⟨shape, -, -, hdeclared, hassigned⟩
    exact ⟨hdeclared, hassigned⟩

set_option maxRecDepth 100000 in
/-- A configuration in a class that is declared at the top. -/
theorem patch_passed_over_iff_declared :
    let path : Path := ⟨"src/a.js"⟩
    ∃ script patch c site,
      Script.parse path "class A \x7b config = \x7b\x7d \x7d\nexport default A".toList = .ok script ∧
      PageConfig.patch ⟨"src/app.js"⟩ script = .ok patch ∧ patch.isEmpty = false ∧
      Moves script patch c site ∧ applies script = true := by
  intro path
  have hcheck : (Script.parse path
      "class A \x7b config = \x7b\x7d \x7d\nexport default A".toList).toOption.any (fun script =>
        (PageConfig.patch ⟨"src/app.js"⟩ script).toOption.any (fun patch => !patch.isEmpty) &&
          applies script) = true := by
    rw [String.toList_ofList]
    decide +kernel
  obtain ⟨script, hparse, hcheck⟩ := exists_ok_of_any hcheck
  rw [Bool.and_eq_true] at hcheck
  obtain ⟨patch, hpatch, hempty⟩ := exists_ok_of_any hcheck.1
  rw [Bool.not_eq_true'] at hempty
  obtain ⟨c, site, hmoves⟩ := patch_passed_over_iff hparse hpatch hempty
  exact ⟨script, patch, c, site, hparse, hpatch, hempty, hmoves, hcheck.2⟩

/-- The pass would rewrite the module, but does not look at it. -/
def passesOver (text : Text) : Bool :=
  (Script.parse ⟨"src/a.js"⟩ text).toOption.any fun script =>
    (PageConfig.patch ⟨"src/app.js"⟩ script).toOption.any (fun patch => !patch.isEmpty) &&
      !applies script

set_option maxRecDepth 100000 in
/-- A class that is the value of a variable, a class in parentheses, and a field whose name is
written with an escape. -/
theorem expressed_passed_over :
    ["const A = class \x7b config = \x7b\x7d \x7d\nexport default A".toList,
      "export default (class \x7b config = \x7b\x7d \x7d)".toList,
      "export default class \x7b c\\u006fnfig = \x7b\x7d \x7d".toList].Forall fun text =>
        ∃ script patch, Script.parse ⟨"src/a.js"⟩ text = .ok script ∧
          PageConfig.patch ⟨"src/app.js"⟩ script = .ok patch ∧ patch.isEmpty = false ∧
          applies script = false := by
  rw [List.forall_iff_forall_mem]
  intro text htext
  have hcheck : passesOver text = true := by
    revert text
    repeat rw [String.toList_ofList]
    decide +kernel
  obtain ⟨script, hparse, hcheck⟩ := exists_ok_of_any hcheck
  rw [Bool.and_eq_true] at hcheck
  obtain ⟨patch, hpatch, hempty⟩ := exists_ok_of_any hcheck.1
  exact ⟨script, patch, hparse, hpatch, by simpa using hempty, by simpa using hcheck.2⟩

end PageConfig

end Codemod

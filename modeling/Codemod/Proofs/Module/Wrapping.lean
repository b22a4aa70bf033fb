import Codemod.Proofs.Disk
import Codemod.Proofs.Pass.PageConfig

/-!
# Codemod.Proofs.Module.Wrapping

Default exports behind higher-order calls.

A module that exports `connect(state)(Page)` is looked at as if it exported `Page`, but the names
among the arguments of all the calls are looked up, not the last one alone.

* `component?_exporting`: what is declared at the top does not depend on what is exported by default.
* `defaultExport_wrapped`: the export stands for the component in the last call, or, where an inner
  call is given a component too, is left unresolved.
-/

namespace Codemod

/-- Why it is not clear what a module exports. -/
def DefaultExport.reason? : DefaultExport → Option String
  | unresolved reason => some reason
  | _ => none

namespace Program

variable {p : Program} {front back : List Node} {value : Node}

/-- The module with its default export, which stands between `front` and `back`, changed to
`value`. -/
def exporting (p : Program) (front : List Node) (value : Node) (back : List Node) : Program :=
  ⟨p.directives, front ++ .exportDefault value.span value :: back⟩

/-- The only default export of the module stands between `front` and `back`, and exports `value`. -/
structure Exports (p : Program) (front : List Node) (value : Node) (back : List Node) : Prop where
  body : ∃ s, p.body = front ++ .exportDefault s value :: back
  only : ∀ n ∈ front ++ back, exported? n = none

theorem exports_exporting (h : p.Exports front value back) (other : Node) :
    (p.exporting front other back).Exports front other back :=
  ⟨⟨other.span, rfl⟩, h.only⟩

theorem Exports.values (h : p.Exports front value back) : p.body.filterMap exported? = [value] := by
  obtain ⟨s, hbody⟩ := h.body
  have hfront : front.filterMap exported? = [] :=
    List.filterMap_eq_nil_iff.mpr fun n hn => h.only n (List.mem_append_left _ hn)
  have hback : back.filterMap exported? = [] :=
    List.filterMap_eq_nil_iff.mpr fun n hn => h.only n (List.mem_append_right _ hn)
  rw [hbody, List.filterMap_append, List.filterMap_cons, hfront, hback]
  rfl

theorem Exports.defaultExport_eq (h : p.Exports front value back) :
    p.defaultExport = p.resolve value := by
  rw [Program.defaultExport_eq, h.values]
  rfl

/-- What is declared at the top does not depend on what is exported by default. -/
theorem component?_exporting (h : p.Exports front value back) (other : Node) :
    (p.exporting front other back).component? = p.component? := by
  obtain ⟨s, hbody⟩ := h.body
  funext name
  rw [component?, component?, hbody, exporting]
  simp only [List.findSome?_append, List.findSome?_cons]
  rfl

theorem component?_defaultExport_of_same {q : Program} (h : q.Same p) :
    q.defaultExport.component?.map Component.erase =
      p.defaultExport.component?.map Component.erase := by
  rw [← component?_defaultExport_erase, ← component?_defaultExport_erase, h]

/-- A call stands for the component that it is given, if none of the inner calls is given one. -/
theorem resolve_wrapped {span t : Span} {callee : Node} {types : List Node} {x : String}
    {c : Component} (hvalue : value.bare = .call span callee types [.reference t x])
    (hx : p.component? x = some c) :
    p.resolve value =
      if callee.wrappedNames.any fun name => (p.component? name).isSome then
        .unresolved "default export wraps several components"
      else .component c := by
  have hnames : ((Node.call span callee types [.reference t x]).wrappedNames.filterMap
      p.component?) = c :: callee.wrappedNames.filterMap p.component? :=
    List.filterMap_cons_some hx
  rw [resolve, hvalue]
  dsimp only
  rw [hnames]
  cases hinner : callee.wrappedNames.filterMap p.component? with
  | nil =>
    have hnone : (callee.wrappedNames.any fun name => (p.component? name).isSome) = false := by
      rw [List.any_eq_false]
      intro name hname
      rw [List.filterMap_eq_nil_iff.mp hinner name hname]
      exact Bool.false_ne_true
    rw [hnone]
    rfl
  | cons d ds =>
    have hd : d ∈ callee.wrappedNames.filterMap p.component? := hinner ▸ List.mem_cons_self
    obtain ⟨name, hname, hfound⟩ := List.mem_filterMap.mp hd
    rw [if_pos (List.any_eq_true.mpr ⟨name, hname, by rw [hfound]; rfl⟩)]

/-- Exporting `x` behind a chain of calls is looked at as exporting `x` itself, unless one of the
inner calls is given a component of the module too. -/
theorem defaultExport_wrapped {span t : Span} {callee : Node} {types : List Node} {x : String}
    {c : Component} (h : p.Exports front value back)
    (hvalue : value.bare = .call span callee types [.reference t x])
    (hx : p.component? x = some c) :
    let plain := p.exporting front (.reference t x) back
    plain.defaultExport = .component c ∧
      (∀ q : Program, q.Same plain →
        q.defaultExport.component?.map Component.erase = some c.erase) ∧
      p.defaultExport =
        if callee.wrappedNames.any fun name => (p.component? name).isSome then
          .unresolved "default export wraps several components"
        else .component c := by
  intro plain
  have hplain : plain.defaultExport = .component c := by
    rw [(exports_exporting h (.reference t x)).defaultExport_eq]
    simp only [resolve, Node.bare, component?_exporting h, hx]
  refine ⟨hplain, ?_, ?_⟩
  · intro q hq
    rw [component?_defaultExport_of_same hq, hplain]
    rfl
  · rw [h.defaultExport_eq, resolve_wrapped hvalue hx]

/-- The tree of `class A {}` and `export default connect(s => s, b)(A)`. -/
def connected : Program :=
  ⟨[], [.classDef ⟨0, 10⟩ (some "A") [] ⟨8, 10⟩ [], .exportDefault ⟨11, 47⟩
    (.call ⟨26, 47⟩ (.call ⟨26, 44⟩ (.reference ⟨26, 33⟩ "connect") []
      [.arrow ⟨34, 40⟩ [.reference ⟨39, 40⟩ "s"], .reference ⟨42, 43⟩ "b"]) []
      [.reference ⟨45, 46⟩ "A"])]⟩

set_option maxRecDepth 100000 in
/-- A name that is given to an inner call and is no component of the module does no harm. -/
theorem defaultExport_wrapped_connected :
    let path : Path := ⟨"src/a.js"⟩
    let shape : ClassShape := ⟨⟨0, 10⟩, some "A", ⟨8, 10⟩, []⟩
    (∃ script, Script.parse path "class A \x7b\x7d\nexport default connect(s => s, b)(A)".toList =
        .ok script ∧ script.program.Same connected) ∧
      connected.defaultExport = .component (.ofClass shape) ∧
      ∃ script, Script.parse path "class A \x7b\x7d\nexport default A".toList = .ok script ∧
        script.program.defaultExport.component?.map Component.erase =
          some (Component.ofClass shape).erase := by
  intro path shape
  have hwrapped : (Script.parse path
      "class A \x7b\x7d\nexport default connect(s => s, b)(A)".toList).toOption.any (fun script =>
        decide (script.program.Same connected)) = true := by
    rw [String.toList_ofList]
    decide +kernel
  have hplain : (Script.parse path "class A \x7b\x7d\nexport default A".toList).toOption.any
      (fun script => decide (script.program.Same (connected.exporting
        (connected.body.take 1) (.reference ⟨45, 46⟩ "A") []))) = true := by
    rw [String.toList_ofList]
    decide +kernel
  have hexports : connected.Exports (connected.body.take 1)
      (.call ⟨26, 47⟩ (.call ⟨26, 44⟩ (.reference ⟨26, 33⟩ "connect") []
        [.arrow ⟨34, 40⟩ [.reference ⟨39, 40⟩ "s"], .reference ⟨42, 43⟩ "b"]) []
        [.reference ⟨45, 46⟩ "A"]) [] := by
    refine ⟨⟨⟨11, 47⟩, rfl⟩, ?_⟩
    intro n hn
    rw [List.mem_singleton.mp hn]
    rfl
  obtain ⟨-, hsame, hexport⟩ := defaultExport_wrapped hexports rfl (show _ = some _ from rfl)
  obtain ⟨script, hparse, hscript⟩ := exists_ok_of_any hwrapped
  obtain ⟨script', hparse', hscript'⟩ := exists_ok_of_any hplain
  exact ⟨⟨script, hparse, of_decide_eq_true hscript⟩, hexport, script', hparse',
    hsame _ (of_decide_eq_true hscript')⟩

set_option maxRecDepth 100000 in
/-- A function of the module that is given to an inner call is taken for a second component. -/
theorem defaultExport_wraps_mapper :
    let path : Path := ⟨"src/a.js"⟩
    let declared := "const state = s => s\nclass A \x7b\x7d\nexport default ".toList
    ∃ wrapped plain, Script.parse path (declared ++ "connect(state)(A)".toList) = .ok wrapped ∧
      Script.parse path (declared ++ "A".toList) = .ok plain ∧
      plain.program.defaultExport.component?.bind Component.name? = some "A" ∧
      wrapped.program.defaultExport.reason? = some "default export wraps several components" := by
  intro path declared
  have hwrapped : (Script.parse path (declared ++ "connect(state)(A)".toList)).toOption.any
      (fun script => script.program.defaultExport.reason? ==
        some "default export wraps several components") = true := by
    unfold declared
    rw [String.toList_ofList, String.toList_ofList]
    decide +kernel
  have hplain : (Script.parse path (declared ++ "A".toList)).toOption.any (fun script =>
      script.program.defaultExport.component?.bind Component.name? == some "A") = true := by
    unfold declared
    rw [String.toList_ofList, String.toList_ofList]
    decide +kernel
  obtain ⟨wrapped, hparse, hreason⟩ := exists_ok_of_any hwrapped
  obtain ⟨plain, hparse', hname⟩ := exists_ok_of_any hplain
  exact ⟨wrapped, plain, hparse, hparse', beq_iff_eq.mp hname, beq_iff_eq.mp hreason⟩

end Program

end Codemod

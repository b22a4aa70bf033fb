import Codemod.Pass.PageConfig
import Codemod.Proofs.Syntax.Amend

/-!
# Codemod.Proofs.Pass.PageConfig

What the page configuration pass means to do to a tree.

`Program.prune` leaves out some fields of classes and some statements, and moves everything to other
spans. What a module exports by default does not depend on them (`component?_defaultExport_prune`),
so of the configurations that belong to it those are found again that were not left out. Forgetting
all spans is the one case of this (`erase_eq_prune`), and `PageConfig.meant` is the other: the one
configuration is gone. In a module that has this tree, the pass finds nothing to move
(`patch_of_meant`).
-/

namespace Codemod

namespace Node

def thin (keep : Node → Bool) : Node → Node
  | classDef s name head body members => classDef s name head body (members.filter keep)
  | n => n

def prune (g : Span → Span) (keep : Node → Bool) (n : Node) : Node :=
  n.amend g (thin keep)

/-- All that may be left out are fields and statements. -/
def Spares (keep : Node → Bool) : Prop :=
  ∀ n, keep n = false → (∃ s name head init, n = field s name head init) ∨ ∃ s e, n = statement s e

variable {g : Span → Span} {keep : Node → Bool}

theorem prune_eq (n : Node) : n.prune g keep = thin keep (n.mapParts g (prune g keep)) :=
  amend_eq g (thin keep) n

theorem erase_eq_prune (n : Node) : n.erase = n.prune (fun _ => .nowhere) fun _ => true := by
  have hthin : thin (fun _ => true) = id := by
    funext n
    cases n <;> simp [thin]
  rw [erase, prune, hthin]

theorem bare_prune (n : Node) : (n.prune g keep).bare = n.bare.prune g keep := by
  induction n using inductionOn with
  | step n ih =>
    cases n with
    | wrapped s inner parts =>
      rw [prune_eq]
      exact ih inner List.mem_cons_self
    | _ =>
      simp only [bare]
      rw [prune_eq]
      rfl

end Node

namespace ObjectLiteral

def prune (g : Span → Span) (keep : Node → Bool) (o : ObjectLiteral) : ObjectLiteral :=
  ⟨g o.span, o.properties.map (Node.prune g keep)⟩

end ObjectLiteral

namespace ClassShape

def prune (g : Span → Span) (keep : Node → Bool) (c : ClassShape) : ClassShape :=
  ⟨g c.span, c.name, g c.body, (c.members.map (Node.prune g keep)).filter keep⟩

end ClassShape

namespace Component

def prune (g : Span → Span) (keep : Node → Bool) : Component → Component
  | ofClass shape => ofClass (shape.prune g keep)
  | ofFunction name => ofFunction name

theorem name?_prune (g : Span → Span) (keep : Node → Bool) (c : Component) :
    (c.prune g keep).name? = c.name? := by
  cases c <;> rfl

/-- The component up to where it stands. -/
def erase (c : Component) : Component :=
  c.prune (fun _ => .nowhere) fun _ => true

end Component

namespace Node

variable {g : Span → Span} {keep : Node → Bool}

theorem object?_prune (n : Node) :
    (n.prune g keep).object? = n.object?.map (ObjectLiteral.prune g keep) := by
  rw [prune_eq]
  cases n <;> rfl

/-- The component that a name is bound to by its initial value. -/
def bound? (name : String) (own : Option String) (value : Node) : Option Component :=
  if own == some name then
    match value.bare with
    | .arrow .. | .function .. => some (.ofFunction own)
    | n => n.class?.map .ofClass
  else none

theorem bound?_prune (name : String) (own : Option String) (value : Node) :
    (value.prune g keep).bound? name own =
      (value.bound? name own).map (Component.prune g keep) := by
  rw [bound?, bound?, bare_prune]
  split
  · rw [prune_eq]
    cases value.bare <;> rfl
  · rfl

theorem declares?_prune (name : String) (n : Node) :
    (n.prune g keep).declares? name = (n.declares? name).map (Component.prune g keep) := by
  rw [prune_eq]
  cases n with
  | classDef s own head body members =>
    simp only [mapParts, thin, declares?]
    split <;> rfl
  | function s own parts =>
    simp only [mapParts, thin, declares?]
    split <;> rfl
  | bindings s declarators =>
    simp only [mapParts, thin, declares?]
    rw [List.findSome?_map, List.map_findSome?]
    congr 1
    funext d
    rw [Function.comp, Function.comp, prune_eq]
    cases d with
    | declarator s own head init =>
      cases init with
      | nil => rfl
      | cons value more => exact bound?_prune name own value
    | _ => rfl
  | _ => rfl

theorem wrappedNames_prune (n : Node) : (n.prune g keep).wrappedNames = n.wrappedNames := by
  induction n using inductionOn with
  | step n ih =>
    rw [prune_eq]
    cases n with
    | call s callee types arguments =>
      simp only [mapParts, thin, wrappedNames]
      rw [ih callee List.mem_cons_self, List.filterMap_map]
      congr 2
      funext argument
      rw [Function.comp, prune_eq]
      cases argument <;> rfl
    | wrapped s inner parts =>
      simp only [mapParts, thin, wrappedNames]
      exact ih inner List.mem_cons_self
    | _ => rfl

end Node

namespace Program

variable {g : Span → Span} {keep : Node → Bool}

def prune (g : Span → Span) (keep : Node → Bool) (p : Program) : Program :=
  ⟨p.directives.map (Node.prune g keep), (p.body.filter keep).map (Node.prune g keep)⟩

theorem erase_eq_prune (p : Program) : p.erase = p.prune (fun _ => .nowhere) fun _ => true := by
  have herase : Node.erase = Node.prune (fun _ => .nowhere) fun _ => true :=
    funext Node.erase_eq_prune
  rw [erase, prune, herase, List.filter_true]

/-- What is declared at the top, exported or not. -/
def declared? (name : String) : Node → Option Component
  | .exportNamed _ _ declaration _ => declaration.findSome? (Node.declares? name)
  | n => n.declares? name

theorem declared?_prune (name : String) (n : Node) :
    declared? name (n.prune g keep) = (declared? name n).map (Component.prune g keep) := by
  have hplain := @Node.declares?_prune g keep name n
  rw [Node.prune_eq] at hplain ⊢
  cases n with
  | exportNamed s names declaration parts =>
    simp only [Node.mapParts, Node.thin, declared?]
    rw [List.findSome?_map, List.map_findSome?]
    congr 1
    funext d
    exact Node.declares?_prune name d
  | _ => exact hplain

/-- What is found at the top of a module does not depend on what is left out. -/
theorem filterMap_prune {α : Type} {f : Node → Option α} {pruned : α → α} {ns : List Node}
    (hleft : ∀ n, keep n = false → f n = none)
    (hf : ∀ n, f (n.prune g keep) = (f n).map pruned) :
    ((ns.filter keep).map (Node.prune g keep)).filterMap f = (ns.filterMap f).map pruned := by
  induction ns with
  | nil => rfl
  | cons n ns ih =>
    cases hn : keep n with
    | true =>
      rw [List.filter_cons_of_pos hn, List.map_cons, List.filterMap_cons, List.filterMap_cons,
        hf, ih]
      cases f n <;> rfl
    | false =>
      rw [List.filter_cons_of_neg (by rw [hn]; nofun), List.filterMap_cons, hleft n hn, ih]

theorem component?_prune (hkeep : Node.Spares keep) (p : Program) (name : String) :
    (p.prune g keep).component? name = (p.component? name).map (Component.prune g keep) := by
  have hcomponent : ∀ q : Program,
      q.component? name = (q.body.filterMap (declared? name)).head? := by
    intro q
    rw [List.head?_filterMap]
    rfl
  have hleft : ∀ n, keep n = false → declared? name n = none := by
    intro n hn
    rcases hkeep n hn with ⟨s, own, head, init, rfl⟩ | ⟨s, e, rfl⟩ <;> rfl
  rw [hcomponent, hcomponent, prune, filterMap_prune hleft (declared?_prune name), List.head?_map]

def exported? : Node → Option Node
  | .exportDefault _ value => some value
  | _ => none

theorem exported?_prune (n : Node) :
    exported? (n.prune g keep) = (exported? n).map (Node.prune g keep) := by
  rw [Node.prune_eq]
  cases n <;> rfl

theorem values_prune (hkeep : Node.Spares keep) (p : Program) :
    (p.prune g keep).body.filterMap exported? =
      (p.body.filterMap exported?).map (Node.prune g keep) := by
  refine filterMap_prune ?_ exported?_prune
  intro n hn
  rcases hkeep n hn with ⟨s, own, head, init, rfl⟩ | ⟨s, e, rfl⟩ <;> rfl

end Program

namespace DefaultExport

def component? : DefaultExport → Option Component
  | component c => some c
  | _ => none

end DefaultExport

namespace Program

variable {g : Span → Span} {keep : Node → Bool}

theorem component?_resolve_prune (hkeep : Node.Spares keep) (p : Program) (value : Node) :
    ((p.prune g keep).resolve (value.prune g keep)).component? =
      (p.resolve value).component?.map (Component.prune g keep) := by
  rw [resolve, resolve, Node.bare_prune]
  cases hbare : value.bare with
  | reference s name =>
    rw [Node.prune_eq]
    simp only [Node.mapParts, Node.thin, component?_prune hkeep]
    cases p.component? name <;> rfl
  | call s callee types arguments =>
    have hnames := @Node.wrappedNames_prune g keep (.call s callee types arguments)
    rw [Node.prune_eq] at hnames ⊢
    simp only [Node.mapParts, Node.thin] at hnames ⊢
    rw [hnames]
    generalize (Node.call s callee types arguments).wrappedNames = names
    have hcomponents : names.filterMap (p.prune g keep).component? =
        (names.filterMap p.component?).map (Component.prune g keep) := by
      rw [List.map_filterMap]
      congr 1
      funext name
      exact component?_prune hkeep p name
    rw [hcomponents]
    rcases names.filterMap p.component? with _ | ⟨c, _ | ⟨d, cs⟩⟩ <;> rfl
  | _ =>
    rw [Node.prune_eq]
    rfl

def exportOf (p : Program) : List Node → DefaultExport
  | [] => .missing
  | [value] => p.resolve value
  | _ => .unresolved "more than one default export"

theorem defaultExport_eq (p : Program) :
    p.defaultExport = p.exportOf (p.body.filterMap exported?) :=
  rfl

theorem component?_defaultExport_prune (hkeep : Node.Spares keep) (p : Program) :
    (p.prune g keep).defaultExport.component? =
      p.defaultExport.component?.map (Component.prune g keep) := by
  rw [defaultExport_eq, defaultExport_eq, values_prune hkeep]
  rcases p.body.filterMap exported? with _ | ⟨value, _ | ⟨other, values⟩⟩
  · rfl
  · exact component?_resolve_prune hkeep p value
  · rfl

theorem component?_defaultExport_erase (p : Program) :
    p.erase.defaultExport.component? = p.defaultExport.component?.map Component.erase := by
  rw [erase_eq_prune]
  exact component?_defaultExport_prune (fun _ hkept => absurd hkept (by decide)) p

end Program

namespace Component

def members : Component → List Node
  | ofClass shape => shape.members
  | ofFunction _ => []

theorem members_prune (g : Span → Span) (keep : Node → Bool) (c : Component) :
    (c.prune g keep).members = (c.members.map (Node.prune g keep)).filter keep := by
  cases c <;> rfl

end Component

namespace PageConfig

variable {g : Span → Span} {keep : Node → Bool}

def Site.prune (g : Span → Span) (keep : Node → Bool) (site : Site) : Site :=
  ⟨g site.remove, site.object.prune g keep⟩

/-- The configuration in a field of a class. -/
def fieldSite? : Node → Option Site
  | .field span name _ (value :: _) =>
    if name = some "config" then value.bare.object?.map fun o => ⟨span, o⟩ else none
  | _ => none

/-- The configuration that is assigned to a name. -/
def assignedSite? (name : String) : Node → Option Site
  | .statement span (.assign _ (.member _ (.reference _ owner) property) value) =>
    if property = "config" ∧ owner = name then value.bare.object?.map fun o => ⟨span, o⟩ else none
  | _ => none

def assignedSites (program : Program) (c : Component) : List Site :=
  match c.name? with
  | none => []
  | some name => program.body.filterMap (assignedSite? name)

theorem configs_eq (shape : ClassShape) :
    (shape.configs.map fun (span, object) => (⟨span, object⟩ : Site)) =
      shape.members.filterMap fieldSite? := by
  rw [ClassShape.configs, List.map_filterMap]
  congr 1
  funext n
  cases n with
  | field span name head init =>
    cases init with
    | nil => simp [fieldSite?]
    | cons value more =>
      by_cases hname : name = some "config"
      · subst hname
        simp [fieldSite?]
        rfl
      · rw [fieldSite?, if_neg hname]
        split
        · rename_i heq
          cases heq
          exact absurd rfl hname
        · rfl
  | _ => rfl

theorem assignedConfigs_eq (program : Program) (name : String) :
    (program.assignedConfigs.filterMap fun (owner, span, object) =>
      if owner == name then some (⟨span, object⟩ : Site) else none) =
      program.body.filterMap (assignedSite? name) := by
  rw [Program.assignedConfigs, List.filterMap_filterMap]
  congr 1
  funext n
  split
  · rename_i span _ _ _ owner value
    rw [assignedSite?]
    by_cases howner : owner = name
    · cases value.bare.object? <;> simp [howner]
    · cases value.bare.object? <;> simp [howner]
  · rename_i hother
    unfold assignedSite?
    split
    · rename_i span t u v owner property value
      have hproperty : property ≠ "config" := by
        rintro rfl
        exact hother _ _ _ _ _ _ rfl
      rw [if_neg fun h => hproperty h.1]
      rfl
    · rfl

theorem sites_eq (program : Program) (c : Component) :
    sites program c = c.members.filterMap fieldSite? ++ assignedSites program c := by
  unfold sites assignedSites
  cases c with
  | ofClass shape =>
    simp only [configs_eq]
    cases (Component.ofClass shape).name? with
    | none => rfl
    | some name =>
      dsimp only
      rw [← assignedConfigs_eq program name]
      rfl
  | ofFunction own =>
    cases (Component.ofFunction own).name? with
    | none => rfl
    | some name =>
      dsimp only
      rw [← assignedConfigs_eq program name]
      rfl

theorem fieldSite?_prune (n : Node) :
    fieldSite? (n.prune g keep) = (fieldSite? n).map (Site.prune g keep) := by
  rw [Node.prune_eq]
  cases n with
  | field span name head init =>
    cases init with
    | nil => rfl
    | cons value more =>
      simp only [Node.mapParts, Node.thin, List.map_cons, fieldSite?, Node.bare_prune,
        Node.object?_prune]
      split
      · cases value.bare.object? <;> rfl
      · rfl
  | _ => rfl

theorem assignedSite?_prune (name : String) (n : Node) :
    assignedSite? name (n.prune g keep) = (assignedSite? name n).map (Site.prune g keep) := by
  rw [Node.prune_eq]
  cases n with
  | statement s e =>
    rw [Node.mapParts, Node.prune_eq e]
    cases e with
    | assign t target value =>
      rw [Node.mapParts, Node.prune_eq target]
      cases target with
      | member u object property =>
        rw [Node.mapParts, Node.prune_eq object]
        cases object with
        | reference v owner =>
          simp only [Node.mapParts, Node.thin, assignedSite?, Node.bare_prune, Node.object?_prune]
          split
          · cases value.bare.object? <;> rfl
          · rfl
        | _ => rfl
      | _ => rfl
    | _ => rfl
  | _ => rfl

/-- Forgetting spans loses no configuration. -/
theorem length_sites_erase (p : Program) (c : Component) :
    (sites p.erase c.erase).length = (sites p c).length := by
  have hassigned : ∀ name, (p.erase.body.filterMap (assignedSite? name)).length =
      (p.body.filterMap (assignedSite? name)).length := by
    intro name
    rw [Program.erase_eq_prune, Program.prune,
      Program.filterMap_prune (fun _ h => absurd h (by decide)) (assignedSite?_prune name),
      List.length_map]
  have hfields : ((c.members.map
      (Node.prune (fun _ => .nowhere) fun _ => true)).filter fun _ => true).filterMap fieldSite? =
        (c.members.filterMap fieldSite?).map (Site.prune (fun _ => .nowhere) fun _ => true) := by
    rw [List.filter_true, List.filterMap_map, List.map_filterMap]
    congr 1
    funext n
    exact fieldSite?_prune n
  rw [sites_eq, sites_eq, List.length_append, List.length_append, Component.erase,
    Component.members_prune, hfields, List.length_map, assignedSites, assignedSites,
    Component.name?_prune]
  cases c.name? with
  | none => rfl
  | some name => rw [hassigned name]

/-- Everything but the field or statement at a span. -/
def keepsOff (s : Span) : Node → Bool
  | .field t .. | .statement t _ => t != s
  | _ => true

theorem spares_keepsOff (s : Span) : Node.Spares (keepsOff s) := by
  intro n hn
  cases n with
  | field t name head init => exact .inl ⟨t, name, head, init, rfl⟩
  | statement t e => exact .inr ⟨t, e, rfl⟩
  | _ => cases hn

/-- The module that is meant to be left once the configuration at a span has moved. -/
def meant (s : Span) (program : Program) : Program :=
  program.prune id (keepsOff s)

theorem keepsOff_of_fieldSite? {s : Span} {n : Node} {site : Site} (h : fieldSite? n = some site)
    (hs : site.remove = s) : keepsOff s n = false := by
  unfold fieldSite? at h
  split at h
  · split at h
    · obtain ⟨o, -, rfl⟩ := Option.map_eq_some_iff.mp h
      simp [keepsOff, ← hs]
    · cases h
  · cases h

theorem keepsOff_of_assignedSite? {s : Span} {name : String} {n : Node} {site : Site}
    (h : assignedSite? name n = some site) (hs : site.remove = s) : keepsOff s n = false := by
  unfold assignedSite? at h
  split at h
  · split at h
    · obtain ⟨o, -, rfl⟩ := Option.map_eq_some_iff.mp h
      simp [keepsOff, ← hs]
    · cases h
  · cases h

/-- If all configurations of a component are at the span, none is left. -/
theorem sites_meant {s : Span} {p : Program} {c : Component}
    (h : ∀ site ∈ sites p c, site.remove = s) :
    sites (meant s p) (c.prune id (keepsOff s)) = [] := by
  rw [sites_eq] at h ⊢
  rw [List.append_eq_nil_iff, List.filterMap_eq_nil_iff, Component.members_prune]
  constructor
  · intro n hn
    obtain ⟨hn, hkept⟩ := List.mem_filter.mp hn
    obtain ⟨m, hm, rfl⟩ := List.mem_map.mp hn
    rw [fieldSite?_prune]
    cases hsite : fieldSite? m with
    | none => rfl
    | some site =>
      have hgone : keepsOff s (m.prune id (keepsOff s)) = false := by
        refine keepsOff_of_fieldSite? (by rw [fieldSite?_prune, hsite]; rfl) ?_
        exact h site (List.mem_append_left _ (List.mem_filterMap.mpr ⟨m, hm, hsite⟩))
      rw [hgone] at hkept
      cases hkept
  · rw [assignedSites] at h ⊢
    rw [Component.name?_prune]
    cases hname : c.name? with
    | none => rfl
    | some name =>
      simp only [hname] at h
      rw [List.filterMap_eq_nil_iff]
      intro n hn
      obtain ⟨m, hm, rfl⟩ := List.mem_map.mp hn
      obtain ⟨hm, hkept⟩ := List.mem_filter.mp hm
      rw [assignedSite?_prune]
      cases hsite : assignedSite? name m with
      | none => rfl
      | some site =>
        have hgone : keepsOff s m = false := keepsOff_of_assignedSite? hsite
          (h site (List.mem_append_right _ (List.mem_filterMap.mpr ⟨m, hm, hsite⟩)))
        rw [hgone] at hkept
        cases hkept

/-- In a module that has the tree that was meant, there is nothing to move. -/
theorem patch_of_meant {script script' : Script} {c : Component} {site : Site} (entry : Path)
    (hexport : script.program.defaultExport = .component c)
    (hsites : sites script.program c = [site])
    (h : script'.program.Same (meant site.remove script.program)) :
    patch entry script' = .ok .none := by
  have hmeant : (meant site.remove script.program).defaultExport.component? =
      some (c.prune id (keepsOff site.remove)) := by
    rw [meant, Program.component?_defaultExport_prune (spares_keepsOff _), hexport]
    rfl
  have hsame := script'.program.component?_defaultExport_erase
  rw [h, Program.component?_defaultExport_erase, hmeant] at hsame
  rw [patch]
  split
  · rfl
  · cases hexport' : script'.program.defaultExport with
    | component c' =>
      rw [hexport', DefaultExport.component?, Option.map_some, Option.map_some,
        Option.some.injEq] at hsame
      have hnone : sites script'.program c' = [] := by
        have hgone : sites (meant site.remove script.program)
            (c.prune id (keepsOff site.remove)) = [] :=
          sites_meant (by rw [hsites]; simp)
        rw [← List.length_eq_zero_iff, ← length_sites_erase, ← hsame, h, length_sites_erase, hgone]
        rfl
      simp only [hnone]
    | _ =>
      rw [hexport'] at hsame
      cases hsame

end PageConfig

end Codemod

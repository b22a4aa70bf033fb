import Codemod.Module.Shape
import Mathlib.Data.List.Basic

/-!
# Codemod.Proofs.Syntax.Amend

Trees that are changed part by part, and trees that are the same but for spans.

* `Node.amend` rebuilds a tree from its leaves up; `amend_eq` is its equation in terms of the direct
  parts of a node.
* `Node.erase` forgets where everything stands. Two texts that differ in layout have the same erased
  tree, and what does not ask for spans can be read off the erased tree as well (`gather_erase`).
* `Node.outline` lists a tree as labels that can be compared, so that it can be decided whether two
  trees are the same but for spans (`outline_eq_iff`).
-/

namespace Codemod

theorem findSome?_congr {α β : Type} {f g : α → Option β} {l : List α}
    (h : ∀ x ∈ l, f x = g x) : l.findSome? f = l.findSome? g := by
  induction l with
  | nil => rfl
  | cons x l ih =>
    rw [List.findSome?_cons, List.findSome?_cons, h x List.mem_cons_self,
      ih fun y hy => h y (List.mem_cons_of_mem x hy)]

/-- The span of what stands nowhere. -/
def Span.nowhere : Span :=
  ⟨0, 0⟩

namespace ImportSpecifier

def mapSpans (g : Span → Span) : ImportSpecifier → ImportSpecifier
  | main s name => main (g s) name
  | all name => all name
  | named imported name typeOnly => named imported name typeOnly

end ImportSpecifier

namespace ImportDeclaration

def mapSpans (g : Span → Span) (d : ImportDeclaration) : ImportDeclaration :=
  { d with
    span := g d.span
    specifiers := d.specifiers.map fun ss => ss.map (ImportSpecifier.mapSpans g)
    sourceSpan := g d.sourceSpan }

theorem mapSpans_mapSpans (g g' : Span → Span) (d : ImportDeclaration) :
    (d.mapSpans g).mapSpans g' = d.mapSpans (g' ∘ g) := by
  have hspecifier : ∀ s : ImportSpecifier,
      (s.mapSpans g).mapSpans g' = s.mapSpans (g' ∘ g) := by
    intro s
    cases s <;> rfl
  simp [mapSpans, Function.comp_def, hspecifier]

theorem mapSpans_id (d : ImportDeclaration) : d.mapSpans id = d := by
  have hspecifier : ImportSpecifier.mapSpans id = id := by
    funext specifier
    cases specifier <;> rfl
  obtain ⟨span, typeOnly, specifiers, source, sourceSpan⟩ := d
  cases specifiers <;> simp [mapSpans, hspecifier]

end ImportDeclaration

namespace Node

/-- A node with other spans and other parts. -/
def mapParts (g : Span → Span) (f : Node → Node) : Node → Node
  | reference s x => reference (g s) x
  | this s => this (g s)
  | string s x => string (g s) x
  | template s x ps => template (g s) x (ps.map f)
  | member s n x => member (g s) (f n) x
  | index s n ps => index (g s) (f n) (ps.map f)
  | qualified s n x => qualified (g s) (f n) x
  | array s ps => array (g s) (ps.map f)
  | hole s => hole (g s)
  | spread s n => spread (g s) (f n)
  | object s ps => object (g s) (ps.map f)
  | property s x key value => property (g s) x (key.map f) (f value)
  | call s callee types arguments => call (g s) (f callee) (types.map f) (arguments.map f)
  | assign s target value => assign (g s) (f target) (f value)
  | wrapped s n ps => wrapped (g s) (f n) (ps.map f)
  | function s x ps => function (g s) x (ps.map f)
  | arrow s ps => arrow (g s) (ps.map f)
  | classDef s x head body members => classDef (g s) x (head.map f) (g body) (members.map f)
  | field s x head init => field (g s) x (head.map f) (init.map f)
  | method s x key ps => method (g s) x (g key) (ps.map f)
  | element s x ps => element (g s) x (ps.map f)
  | decorator s ps => decorator (g s) (ps.map f)
  | constEnum s ps => constEnum (g s) (ps.map f)
  | importDecl d ps => importDecl (d.mapSpans g) (ps.map f)
  | exportDefault s n => exportDefault (g s) (f n)
  | exportNamed s names declaration ps => exportNamed (g s) names (declaration.map f) (ps.map f)
  | bindings s ps => bindings (g s) (ps.map f)
  | declarator s x head init => declarator (g s) x (head.map f) (init.map f)
  | statement s n => statement (g s) (f n)
  | other s ps => other (g s) (ps.map f)

theorem children_mapParts (g : Span → Span) (f : Node → Node) (n : Node) :
    (n.mapParts g f).children = n.children.map f := by
  cases n <;> simp [mapParts, children]

theorem span_mapParts (f : Node → Node) (n : Node) : (n.mapParts id f).span = n.span := by
  cases n <;> rfl

/-- Nothing changes in a node whose parts do not. -/
theorem mapParts_id_of {f : Node → Node} {n : Node} (h : ∀ c ∈ n.children, f c = c) :
    n.mapParts id f = n := by
  have hlist {ps : List Node} (hps : ∀ c ∈ ps, f c = c) : ps.map f = ps :=
    (List.map_congr_left hps).trans (List.map_id _)
  cases n <;> simp only [children, List.mem_append, List.mem_cons, List.not_mem_nil, or_false,
    forall_eq, or_imp, forall_and] at h <;>
    simp_all [mapParts, ImportDeclaration.mapSpans_id]

section Amend

variable (g : Span → Span) (f : Node → Node)

mutual

/-- Rebuilds a tree from its leaves up. -/
def amend : Node → Node
  | reference s x => f (reference (g s) x)
  | this s => f (this (g s))
  | string s x => f (string (g s) x)
  | template s x ps => f (template (g s) x (amendList ps))
  | member s n x => f (member (g s) (amend n) x)
  | index s n ps => f (index (g s) (amend n) (amendList ps))
  | qualified s n x => f (qualified (g s) (amend n) x)
  | array s ps => f (array (g s) (amendList ps))
  | hole s => f (hole (g s))
  | spread s n => f (spread (g s) (amend n))
  | object s ps => f (object (g s) (amendList ps))
  | property s x key value => f (property (g s) x (amendList key) (amend value))
  | call s callee types arguments =>
    f (call (g s) (amend callee) (amendList types) (amendList arguments))
  | assign s target value => f (assign (g s) (amend target) (amend value))
  | wrapped s n ps => f (wrapped (g s) (amend n) (amendList ps))
  | function s x ps => f (function (g s) x (amendList ps))
  | arrow s ps => f (arrow (g s) (amendList ps))
  | classDef s x head body members =>
    f (classDef (g s) x (amendList head) (g body) (amendList members))
  | field s x head init => f (field (g s) x (amendList head) (amendList init))
  | method s x key ps => f (method (g s) x (g key) (amendList ps))
  | element s x ps => f (element (g s) x (amendList ps))
  | decorator s ps => f (decorator (g s) (amendList ps))
  | constEnum s ps => f (constEnum (g s) (amendList ps))
  | importDecl d ps => f (importDecl (d.mapSpans g) (amendList ps))
  | exportDefault s n => f (exportDefault (g s) (amend n))
  | exportNamed s names declaration ps =>
    f (exportNamed (g s) names (amendList declaration) (amendList ps))
  | bindings s ps => f (bindings (g s) (amendList ps))
  | declarator s x head init => f (declarator (g s) x (amendList head) (amendList init))
  | statement s n => f (statement (g s) (amend n))
  | other s ps => f (other (g s) (amendList ps))

def amendList : List Node → List Node
  | [] => []
  | n :: ns => amend n :: amendList ns

end

theorem amendList_eq (ns : List Node) : amendList g f ns = ns.map (amend g f) := by
  induction ns with
  | nil => simp [amendList]
  | cons n ns ih => simp [amendList, ih]

theorem amend_eq (n : Node) : amend g f n = f (n.mapParts g (amend g f)) := by
  cases n <;> simp [amend, mapParts, amendList_eq]

end Amend

/-- A tree without any word on where it stands. -/
def erase (n : Node) : Node :=
  n.amend (fun _ => .nowhere) id

theorem erase_eq (n : Node) : n.erase = n.mapParts (fun _ => .nowhere) erase :=
  amend_eq _ id n

theorem children_erase (n : Node) : n.erase.children = n.children.map erase := by
  rw [erase_eq, children_mapParts]

/-- A visitor that does not ask for spans finds the same in an erased tree. -/
theorem gather_erase {σ α : Type} {visit : σ → Node → List α × Option σ}
    (hvisit : ∀ s n, visit s n.erase = visit s n) (s : σ) (n : Node) :
    gather visit s n.erase = gather visit s n := by
  induction n using inductionOn generalizing s with
  | step n ih =>
    rw [gather_eq, gather_eq, hvisit]
    split
    · rfl
    · rename_i found t _
      have hparts : n.erase.children.flatMap (gather visit t) =
          n.children.flatMap (gather visit t) := by
        rw [children_erase, List.flatMap_map]
        exact List.flatMap_congr fun c hc => ih c hc t
      rw [hparts]

/-- A visitor finds what it finds at the node and in its parts, if it goes there. -/
theorem mem_gather {σ α : Type} {visit : σ → Node → List α × Option σ} {s : σ} {n : Node} {x : α}
    (h : x ∈ gather visit s n) :
    x ∈ (visit s n).1 ∨
      ∃ t, (visit s n).2 = some t ∧ ∃ c ∈ n.children, x ∈ gather visit t c := by
  rw [gather_eq] at h
  split at h
  · rename_i hvisit
    exact .inl (by rw [hvisit]; exact h)
  · rename_i t hvisit
    rcases List.mem_append.mp h with h | h
    · exact .inl (by rw [hvisit]; exact h)
    · exact .inr ⟨t, by rw [hvisit], List.mem_flatMap.mp h⟩

/-- A visitor that says less, and the same about where to go, finds what it makes of what the other
one finds. -/
theorem gather_map {σ τ α β : Type} {visit : σ → Node → List α × Option σ}
    {visit' : τ → Node → List β × Option τ} (context : σ → τ) (found : α → β)
    (hvisit : ∀ s n, visit' (context s) n =
      ((visit s n).1.map found, (visit s n).2.map context)) (s : σ) (n : Node) :
    gather visit' (context s) n = (gather visit s n).map found := by
  induction n using inductionOn generalizing s with
  | step n ih =>
    rw [gather_eq, gather_eq, hvisit]
    rcases visit s n with ⟨here, none | t⟩
    · rfl
    · have hparts : n.children.flatMap (gather visit' (context t)) =
          (n.children.flatMap (gather visit t)).map found := by
        rw [List.map_flatMap]
        exact List.flatMap_congr fun c hc => ih c hc t
      simp only [Option.map_some, List.map_append, hparts]

/-- A node without its spans and parts. -/
structure Label where
  kind : Nat
  name : Option String
  /-- The names of an export. -/
  names : List String
  /-- Where one list of parts ends and the next one begins. -/
  cut : Nat
  size : Nat
  decl : Option ImportDeclaration
  deriving DecidableEq

def label (n : Node) : Label where
  kind := n.ctorIdx
  name := match n with
    | reference _ x | string _ x | member _ _ x | qualified _ _ x => some x
    | template _ x _ | property _ x _ _ | function _ x _ | classDef _ x _ _ _ | field _ x _ _
    | method _ x _ _ | element _ x _ | declarator _ x _ _ => x
    | _ => none
  names := match n with
    | exportNamed _ names _ _ => names
    | _ => []
  cut := match n with
    | call _ _ types _ => types.length
    | classDef _ _ head _ _ | field _ _ head _ | declarator _ _ head _ => head.length
    | exportNamed _ _ declaration _ => declaration.length
    | _ => 0
  size := n.children.length
  decl := match n with
    | importDecl d _ => some (d.mapSpans fun _ => .nowhere)
    | _ => none

theorem map_append_inj {f : Node → Node} {as bs as' bs' : List Node}
    (h : as.map f ++ bs.map f = as'.map f ++ bs'.map f) (hlength : as.length = as'.length) :
    as.map f = as'.map f ∧ bs.map f = bs'.map f :=
  List.append_inj h (by simpa using hlength)

theorem erase_eq_of_label {n m : Node} (hlabel : n.label = m.label)
    (hparts : n.children.map erase = m.children.map erase) : n.erase = m.erase := by
  have hkind : n.ctorIdx = m.ctorIdx := congrArg Label.kind hlabel
  rw [erase_eq, erase_eq m]
  -- the kinds agree, so of all pairs of constructors those remain that are the same
  cases n <;> cases m <;> cases hkind
  all_goals simp [label, children, mapParts] at hlabel hparts ⊢
  case call.call.refl =>
    exact ⟨hparts.1, map_append_inj hparts.2 hlabel.2.1⟩
  case exportNamed.exportNamed.refl =>
    exact ⟨hlabel.2.1, map_append_inj hparts hlabel.2.2.1⟩
  case classDef.classDef.refl => exact ⟨hlabel.2.1, map_append_inj hparts hlabel.2.2.1⟩
  case field.field.refl => exact ⟨hlabel.2.1, map_append_inj hparts hlabel.2.2.1⟩
  case declarator.declarator.refl => exact ⟨hlabel.2.1, map_append_inj hparts hlabel.2.2.1⟩
  all_goals simp_all

/-- A tree as a list of labels. -/
def outline (n : Node) : List Label :=
  n.gather (fun _ m => ([m.label], some ())) ()

theorem outline_eq (n : Node) : n.outline = n.label :: n.children.flatMap outline := by
  rw [outline, gather_eq]
  rfl

/-- Where one tree ends in a list of labels, the next one begins. -/
theorem erase_eq_of_outline (n : Node) : ∀ (m : Node) (xs ys : List Label),
    n.outline ++ xs = m.outline ++ ys → n.erase = m.erase ∧ xs = ys := by
  induction n using inductionOn with
  | step n ih =>
    intro m xs ys h
    rw [outline_eq, outline_eq m, List.cons_append, List.cons_append, List.cons.injEq] at h
    obtain ⟨hlabel, h⟩ := h
    have hsize : n.children.length = m.children.length := congrArg Label.size hlabel
    have hlist : ∀ cs ds : List Node, (∀ c ∈ cs, c ∈ n.children) → cs.length = ds.length →
        cs.flatMap outline ++ xs = ds.flatMap outline ++ ys →
        cs.map erase = ds.map erase ∧ xs = ys := by
      intro cs
      induction cs with
      | nil =>
        intro ds _ hlength h
        have hnil : ds = [] := List.eq_nil_of_length_eq_zero hlength.symm
        subst hnil
        exact ⟨rfl, h⟩
      | cons c cs ihs =>
        intro ds hmem hlength h
        cases ds with
        | nil => cases hlength
        | cons d ds =>
          rw [List.flatMap_cons, List.flatMap_cons, List.append_assoc, List.append_assoc] at h
          obtain ⟨hfirst, h⟩ := ih c (hmem c List.mem_cons_self) d _ _ h
          obtain ⟨hrest, hend⟩ := ihs ds (fun e he => hmem e (List.mem_cons_of_mem c he))
            (by simpa using hlength) h
          exact ⟨by rw [List.map_cons, List.map_cons, hfirst, hrest], hend⟩
    obtain ⟨hparts, hend⟩ := hlist n.children m.children (fun _ hc => hc) hsize h
    exact ⟨erase_eq_of_label hlabel hparts, hend⟩

theorem label_erase (n : Node) : n.erase.label = n.label := by
  rw [erase_eq]
  cases n with
  | importDecl d ps =>
    simp only [label, mapParts, children, ImportDeclaration.mapSpans_mapSpans, List.length_map]
    rfl
  | _ =>
    simp [label, mapParts, children]
    rfl

theorem outline_erase (n : Node) : n.erase.outline = n.outline := by
  refine gather_erase ?_ () n
  intro _ m
  rw [label_erase]

/-- The outline tells all but the spans. -/
theorem outline_eq_iff {n m : Node} : n.outline = m.outline ↔ n.erase = m.erase := by
  constructor
  · intro h
    exact (erase_eq_of_outline n m [] [] (by rw [h])).1
  · intro h
    rw [← outline_erase n, h, outline_erase]

theorem class?_isSome_erase (n : Node) : n.erase.class?.isSome = n.class?.isSome := by
  rw [erase_eq]
  cases n <;> rfl

/-- The members of a class. -/
def members : Node → List Node
  | .classDef _ _ _ _ members => members
  | _ => []

theorem members_erase (n : Node) : n.erase.members = n.members.map erase := by
  rw [erase_eq]
  cases n <;> rfl

theorem isThisMember_erase (name : String) (n : Node) :
    n.erase.isThisMember name = n.isThisMember name := by
  rw [erase_eq]
  cases n with
  | member s o x =>
    rw [mapParts, erase_eq o]
    cases o <;> rfl
  | _ => rfl

end Node

namespace Program

def erase (p : Program) : Program :=
  ⟨p.directives.map Node.erase, p.body.map Node.erase⟩

/-- The two modules are the same but for spans. -/
def Same (p q : Program) : Prop :=
  p.erase = q.erase

theorem map_outline_eq_iff {ns ms : List Node} :
    ns.map Node.outline = ms.map Node.outline ↔ ns.map Node.erase = ms.map Node.erase := by
  induction ns generalizing ms with
  | nil => cases ms <;> simp
  | cons n ns ih =>
    cases ms with
    | nil => simp
    | cons m ms => simp [ih, Node.outline_eq_iff]

instance (p q : Program) : Decidable (p.Same q) :=
  decidable_of_iff (p.directives.map Node.outline = q.directives.map Node.outline ∧
      p.body.map Node.outline = q.body.map Node.outline)
    (by rw [map_outline_eq_iff, map_outline_eq_iff, Same, erase, erase, Program.mk.injEq])

theorem gather_erase {σ α : Type} {visit : σ → Node → List α × Option σ}
    (hvisit : ∀ s n, visit s n.erase = visit s n) (s : σ) (p : Program) :
    p.erase.gather visit s = p.gather visit s := by
  rw [gather, gather, nodes, nodes, erase, ← List.map_append, List.flatMap_map]
  exact List.flatMap_congr fun n _ => Node.gather_erase hvisit s n

/-- A visitor that does not ask for spans finds the same in both. -/
theorem Same.gather_eq {σ α : Type} {visit : σ → Node → List α × Option σ} {p q : Program}
    (h : p.Same q) (hvisit : ∀ s n, visit s n.erase = visit s n) (s : σ) :
    p.gather visit s = q.gather visit s := by
  rw [← gather_erase hvisit, h, gather_erase hvisit]

/-- What is said of each statement without a word on where it stands is the same in both. -/
theorem Same.map_eq {β : Type} {f : Node → β} {p q : Program} (h : p.Same q)
    (hf : ∀ n, f n.erase = f n) : p.body.map f = q.body.map f := by
  have hbody : p.body.map Node.erase = q.body.map Node.erase := congrArg Program.body h
  have herase (p : Program) : p.body.map f = (p.body.map Node.erase).map f := by
    rw [List.map_map]
    exact List.map_congr_left fun n _ => (hf n).symm
  rw [herase, hbody, ← herase]

theorem Same.exists_mem_body {p q : Program} (h : p.Same q) {n : Node} (hn : n ∈ p.body) :
    ∃ m ∈ q.body, m.erase = n.erase := by
  have hbody : p.body.map Node.erase = q.body.map Node.erase := congrArg Program.body h
  have hmem : n.erase ∈ p.body.map Node.erase := List.mem_map_of_mem hn
  rw [hbody] at hmem
  exact List.mem_map.mp hmem

end Program

end Codemod

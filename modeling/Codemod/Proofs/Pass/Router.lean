import Codemod.Pass.Router
import Codemod.Proofs.Module.Import

/-!
# Codemod.Proofs.Pass.Router

What the router pass means to do to a tree.

`Router.meant` is the tree that a patched module should have: in every class, reads of
`this.$router` have become reads of the instance, and the classes that had some of their own have a
field for it. In a module that has this tree, wherever everything stands, the pass finds nothing to
do (`reads_of_meant`).
-/

namespace Codemod

namespace Router

/-- Whether each read of the router is inside of a class; the context is whether the node is. -/
def visitHosted (inside : Bool) (n : Node) : List Bool × Option Bool :=
  if n.class?.isSome then ([], some true)
  else if n.isThisMember "$router" then ([inside], none)
  else ([], some inside)

theorem hosted_reads (program : Program) :
    (reads program).map (fun r => r.host.isSome) = program.gather visitHosted false := by
  have hnode : ∀ n : Node, Node.gather visitHosted false n =
      (Node.gather visitReads none n).map fun r => r.host.isSome := by
    intro n
    refine Node.gather_map (fun host : Option ClassShape => host.isSome) _ ?_ none n
    intro host n
    rw [visitHosted, visitReads]
    cases n.class? with
    | some c => rfl
    | none =>
      by_cases hread : n.isThisMember "$router" = true
      · simp [hread]
      · simp [hread]
  rw [reads, Program.gather, Program.gather, List.map_flatMap]
  exact List.flatMap_congr fun n _ => (hnode n).symm

theorem visitHosted_erase (inside : Bool) (n : Node) :
    visitHosted inside n.erase = visitHosted inside n := by
  rw [visitHosted, visitHosted, n.class?_isSome_erase, n.isThisMember_erase]

/-- `this.$instance.router` -/
def instanceRead : Node :=
  .member .nowhere (.member .nowhere (.this .nowhere) instanceField) "router"

def rename (n : Node) : Node :=
  if n.isThisMember "$router" then instanceRead else n

/-- A tree with all reads of the router renamed. -/
def renamed (n : Node) : Node :=
  n.amend id rename

/-- `$instance = getCurrentInstance()` -/
def instanceDecl : Node :=
  .field .nowhere (some instanceField) []
    [.call .nowhere (.reference .nowhere instanceFactory) [] []]

/-- What becomes of a class. -/
def hosting (n : Node) : Node :=
  match n with
  | .classDef s name head body members =>
    let own := n.children.flatMap (Node.gather visitOwn ())
    let needed := !own.isEmpty && !ClassShape.has ⟨s, name, body, members⟩ instanceField
    .classDef s name (head.map renamed) body
      ((if needed then [instanceDecl] else []) ++ members.map renamed)
  | n => n

/-- The module that the pass means to leave. -/
def meant (program : Program) : Program where
  directives := program.directives.map fun n => n.amend id hosting
  body := ensured apiPackage instanceFactory (program.body.map fun n => n.amend id hosting)

/-- Nothing is found in a node that is no read, if nothing is found in its parts. -/
theorem gather_visitHosted_eq_nil {n : Node} {inside : Bool}
    (hread : n.isThisMember "$router" = false)
    (hparts : ∀ c ∈ n.children, ∀ inside, Node.gather visitHosted inside c = []) :
    Node.gather visitHosted inside n = [] := by
  rw [Node.gather_eq, visitHosted, hread]
  have hnone : ∀ inside, n.children.flatMap (Node.gather visitHosted inside) = [] := by
    intro inside
    rw [List.flatMap_eq_nil_iff]
    exact fun c hc => hparts c hc inside
  cases n.class?.isSome <;> simp [hnone]

theorem gather_instanceRead (inside : Bool) :
    Node.gather visitHosted inside instanceRead = [] := by
  cases inside <;> decide

theorem gather_instanceDecl (inside : Bool) :
    Node.gather visitHosted inside instanceDecl = [] := by
  cases inside <;> decide

theorem gather_node (c : ImportClause) (inside : Bool) :
    Node.gather visitHosted inside c.node = [] := by
  refine gather_visitHosted_eq_nil rfl fun part hpart inside => ?_
  rw [List.mem_singleton.mp hpart]
  rfl

theorem gather_renamed (n : Node) : ∀ inside, Node.gather visitHosted inside (renamed n) = [] := by
  induction n using Node.inductionOn with
  | step n ih =>
    intro inside
    rw [renamed, Node.amend_eq, rename]
    split
    · exact gather_instanceRead inside
    · rename_i hread
      refine gather_visitHosted_eq_nil (by simpa using hread) ?_
      rw [Node.children_mapParts]
      intro c hc inside
      obtain ⟨part, hpart, rfl⟩ := List.mem_map.mp hc
      exact ih part hpart inside

/-- In what becomes of a class, no read is left. -/
theorem gather_hosting {n : Node} (hclass : n.class?.isSome = true) (inside : Bool) :
    Node.gather visitHosted inside (hosting n) = [] := by
  cases n with
  | classDef s name head body members =>
    rw [hosting]
    refine gather_visitHosted_eq_nil rfl fun c hc inside => ?_
    rcases List.mem_append.mp hc with hc | hc
    · obtain ⟨part, -, rfl⟩ := List.mem_map.mp hc
      exact gather_renamed part inside
    · rcases List.mem_append.mp hc with hc | hc
      · split at hc
        · rw [List.mem_singleton.mp hc]
          exact gather_instanceDecl inside
        · cases hc
      · obtain ⟨part, -, rfl⟩ := List.mem_map.mp hc
        exact gather_renamed part inside
  | _ => cases hclass

theorem hosting_of_class?_none {n : Node} (hclass : n.class?.isSome = false) : hosting n = n := by
  cases n with
  | classDef => cases hclass
  | _ => rfl

/-- All reads that are left are outside of classes. -/
theorem gather_amend_hosting (n : Node) :
    ∀ inside ∈ Node.gather visitHosted false (n.amend id hosting), inside = false := by
  induction n using Node.inductionOn with
  | step n ih =>
    rw [Node.amend_eq]
    generalize hm : n.mapParts id (Node.amend id hosting) = m
    have hparts : ∀ c ∈ m.children, ∀ inside ∈ Node.gather visitHosted false c,
        inside = false := by
      rw [← hm, Node.children_mapParts]
      intro c hc
      obtain ⟨part, hpart, rfl⟩ := List.mem_map.mp hc
      exact ih part hpart
    cases hclass : m.class?.isSome with
    | true =>
      rw [gather_hosting hclass]
      nofun
    | false =>
      rw [hosting_of_class?_none hclass, Node.gather_eq, visitHosted, hclass]
      by_cases hread : m.isThisMember "$router" = true
      · simp [hread]
      · intro inside hinside
        simp only [hread, Bool.false_eq_true, if_false, List.nil_append,
          List.mem_flatMap] at hinside
        obtain ⟨c, hc, hinside⟩ := hinside
        exact hparts c hc inside hinside

theorem mem_nodes_meant {program : Program} {n : Node} (h : n ∈ (meant program).nodes) :
    (∃ part : Node, n = part.amend id hosting) ∨ ∃ c : ImportClause, n = c.node := by
  rw [Program.nodes, meant] at h
  rcases List.mem_append.mp h with h | h
  · obtain ⟨part, -, rfl⟩ := List.mem_map.mp h
    exact .inl ⟨part, rfl⟩
  · rcases mem_of_mem_ensured h with h | h
    · obtain ⟨part, -, rfl⟩ := List.mem_map.mp h
      exact .inl ⟨part, rfl⟩
    · exact .inr h

/-- A module that has the tree that was meant has no read inside of a class. -/
theorem reads_of_meant {program program' : Program} (h : program'.Same (meant program)) :
    ((reads program').any fun r => r.host.isSome) = false := by
  have hhosted : program'.gather visitHosted false = (meant program).gather visitHosted false :=
    h.gather_eq visitHosted_erase false
  rw [List.any_eq_false]
  intro r hr
  have hmem : r.host.isSome ∈ (meant program).gather visitHosted false := by
    rw [← hhosted, ← hosted_reads]
    exact List.mem_map.mpr ⟨r, hr, rfl⟩
  rw [Program.gather, List.mem_flatMap] at hmem
  obtain ⟨n, hn, hmem⟩ := hmem
  rcases mem_nodes_meant hn with ⟨part, rfl⟩ | ⟨c, rfl⟩
  · rw [gather_amend_hosting part _ hmem]
    exact Bool.false_ne_true
  · rw [gather_node] at hmem
    cases hmem

end Router

end Codemod
